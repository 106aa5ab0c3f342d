import ElasticTree.Fault

/-!
# Arenas

An arena stores records and names them by `NodeId`.  Releasing a record raises
the generation of its slot and puts the slot on the list of vacant ones, from
which the slot released last is taken first.  A new slot is opened only when
none is vacant.

Looking a record up comes in two forms: `get?` answers `none` for a name that is
not live, while `fetch` and `update` are for names that are meant to be live and
fault otherwise.
-/

namespace ElasticTree

/-- A place for one record, and the generation of its present or next
occupant. -/
structure Slot (α : Type) where
  generation : UInt32
  value : Option α
  deriving DecidableEq, Repr

/-- Records addressed by identity, in slots that are used again. -/
structure Arena (α : Type) where
  slots : Array (Slot α)
  /-- The vacant slots, the one released last in front. -/
  vacant : List UInt32
  /-- The number of live records. -/
  size : Nat
  deriving DecidableEq, Repr

namespace Arena

variable {α β : Type}

/-- An arena without any slots. -/
def empty : Arena α := ⟨#[], [], 0⟩

/-- The number of slots ever opened. -/
def slotCount (arena : Arena α) : Nat := arena.slots.size

/-! ## Looking up -/

/-- The record called `id`, if that name is live. -/
def get? (arena : Arena α) (id : NodeId) : Option α :=
  match arena.slots[id.index.toNat]? with
  | none => none
  | some slot => if slot.generation = id.generation then slot.value else none

/-- Whether `id` names a record. -/
def Live (arena : Arena α) (id : NodeId) : Prop := (arena.get? id).isSome

instance (arena : Arena α) (id : NodeId) : Decidable (arena.Live id) :=
  inferInstanceAs (Decidable (_ = true))

/-- The record called `id`, where anything else is a fault. -/
def fetch (arena : Arena α) (id : NodeId) : Except Fault α :=
  match arena.get? id with
  | some value => .ok value
  | none => .error (.deadNode id)

/-- The live records with their names, in the order of their slots. -/
def entries (arena : Arena α) : List (NodeId × α) :=
  arena.slots.toList.zipIdx.filterMap fun (slot, index) =>
    slot.value.map fun value => (⟨index.toUInt32, slot.generation⟩, value)

/-! ## Changing records in place -/

/-- Applies `change` to the record called `id`.  A name that is not live changes
nothing. -/
def modify (arena : Arena α) (id : NodeId) (change : α → α) : Arena α :=
  { arena with
    slots := arena.slots.modify id.index.toNat fun slot =>
      if slot.generation = id.generation then
        { slot with value := slot.value.map change }
      else slot }

/-- Applies `change` to the record called `id`, where a name that is not live is
a fault. -/
def update (arena : Arena α) (id : NodeId) (change : α → α) : Except Fault (Arena α) :=
  match arena.get? id with
  | some _ => .ok (arena.modify id change)
  | none => .error (.deadNode id)

/-- Applies `change` to every live record, given its name. -/
def map (arena : Arena α) (change : NodeId → α → β) : Arena β :=
  { slots := arena.slots.mapIdx fun index slot =>
      { slot with value := slot.value.map (change ⟨index.toUInt32, slot.generation⟩) }
    vacant := arena.vacant
    size := arena.size }

/-- Passes through slots, of which the first has the number `index`, and lets
`step` replace the record in each of them that has one. -/
def visitFrom {σ : Type} (step : σ → NodeId → α → σ × α) :
    Nat → σ → List (Slot α) → σ × List (Slot α)
  | _, state, [] => (state, [])
  | index, state, slot :: slots =>
      match slot.value with
      | none =>
          let (state, slots) := visitFrom step (index + 1) state slots
          (state, slot :: slots)
      | some value =>
          let (state, value) := step state ⟨index.toUInt32, slot.generation⟩ value
          let (state, slots) := visitFrom step (index + 1) state slots
          (state, { slot with value := some value } :: slots)

/-- Passes through the live records in the order of their slots.  Of each, `step`
gets the name and the record and may replace it; the state is handed on from one
to the next. -/
def visit {σ : Type} (step : σ → NodeId → α → σ × α) (state : σ) (arena : Arena α) : σ × Arena α :=
  let (state, slots) := visitFrom step 0 state arena.slots.toList
  (state, { arena with slots := slots.toArray })

/-! ## Adding and releasing -/

/-- The name that the next record added will have. -/
def nextId (arena : Arena α) : NodeId :=
  match arena.vacant with
  | [] => ⟨arena.slots.size.toUInt32, 0⟩
  | index :: _ =>
      ⟨index, match arena.slots[index.toNat]? with
        | some slot => slot.generation
        | none => 0⟩

/-- Stores a record made from the very name it is going to have, so that a
record can refer to itself from the start. -/
def add (arena : Arena α) (make : NodeId → α) : NodeId × Arena α :=
  let id := arena.nextId
  let slots := match arena.vacant with
    | [] => arena.slots.push ⟨id.generation, some (make id)⟩
    | index :: _ =>
        arena.slots.modify index.toNat fun slot => { slot with value := some (make id) }
  (id, ⟨slots, arena.vacant.tail, arena.size + 1⟩)

/-- Takes the record called `id` out and leaves its slot vacant, for the next
generation.  A name that is not live changes nothing. -/
def remove (arena : Arena α) (id : NodeId) : Option α × Arena α :=
  match arena.get? id with
  | none => (none, arena)
  | some value =>
      (some value,
        { slots := arena.slots.modify id.index.toNat fun slot =>
            { generation := slot.generation + 1, value := none }
          vacant := id.index :: arena.vacant
          size := arena.size - 1 })

end Arena

end ElasticTree
