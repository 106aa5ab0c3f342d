import ElasticTree.Arena.Basic
import Mathlib.Algebra.Group.Nat.Defs

/-!
# Histories of an arena

A caller adds and removes records, looks them up and writes over them.  `perform`
carries out one such access, and `play` one after the other; writing to a record
that has to be live may fault.

What the accesses amount to can be told without an arena, from what the caller has
seen of them.  The `chronicle` notes which names were given out, what was stored
under them and which were removed, the latest first.  `lastStored?` reads off it
what a name stands for, and `freed` which slots were left in which order.
-/

namespace ElasticTree

namespace Arena

variable {α : Type}

/-- What a caller may do with an arena. -/
inductive Access (α : Type) where
  | add (make : NodeId → α)
  | remove (id : NodeId)
  | get (id : NodeId)
  /-- Writes over the record called `id`, if there is one. -/
  | set (id : NodeId) (value : α)
  /-- Writes over the record called `id`, which has to be live. -/
  | put (id : NodeId) (value : α)

/-- What a caller gets to see of an access. -/
inductive Outcome (α : Type) where
  | made (id : NodeId)
  | taken (value : Option α)
  | found (value : Option α)
  | done
  deriving DecidableEq, Repr

/-- Carries out an access. -/
def perform (arena : Arena α) : Access α → Except Fault (Outcome α × Arena α)
  | .add make =>
      let (id, arena) := arena.add make
      .ok (.made id, arena)
  | .remove id =>
      let (value, arena) := arena.remove id
      .ok (.taken value, arena)
  | .get id => .ok (.found (arena.get? id), arena)
  | .set id value => .ok (.found (arena.get? id), arena.modify id fun _ => value)
  | .put id value => do return (.done, ← arena.update id fun _ => value)

/-- Carries out accesses one after the other and keeps their outcomes. -/
def play (arena : Arena α) : List (Access α) → Except Fault (List (Outcome α) × Arena α)
  | [] => .ok ([], arena)
  | access :: rest => do
      let (outcome, arena) ← arena.perform access
      let (outcomes, arena) ← arena.play rest
      return (outcome :: outcomes, arena)

/-! ## What is noted of a history -/

/-- What an access has done. -/
inductive Event (α : Type) where
  | issued (id : NodeId) (value : α)
  | written (id : NodeId) (value : α)
  | removed (id : NodeId)
  deriving DecidableEq, Repr

/-- What an access has done, to judge by its outcome. -/
def Access.event? : Access α → Outcome α → Option (Event α)
  | .add make, .made id => some (.issued id (make id))
  | .remove id, .taken (some _) => some (.removed id)
  | .set id value, .found (some _) => some (.written id value)
  | .put id value, .done => some (.written id value)
  | _, _ => none

/-- What the accesses have done, the latest first. -/
def chronicle : List (Access α) → List (Outcome α) → List (Event α)
  | access :: accesses, outcome :: outcomes =>
      chronicle accesses outcomes ++ (access.event? outcome).toList
  | _, _ => []

/-- The value that was last stored under a name, if it was not removed since. -/
def lastStored? : List (Event α) → NodeId → Option α
  | [], _ => none
  | .issued other value :: earlier, id => if other = id then some value else lastStored? earlier id
  | .written other value :: earlier, id => if other = id then some value else lastStored? earlier id
  | .removed other :: earlier, id => if other = id then none else lastStored? earlier id

/-- The slot that was left by a record. -/
def Event.freedSlot? : Event α → Option UInt32
  | .removed id => some id.index
  | _ => none

/-- The slots that were left by a record, the latest first. -/
def freed (events : List (Event α)) : List UInt32 := events.filterMap Event.freedSlot?

/-! ## What is to be expected -/

/-- An arena in which these events happened is a map from names to records, and this is
what can be said of it. -/
structure Faithful (events : List (Event α)) (arena : Arena α) : Prop where
  /-- A name stands for what was last stored under it. -/
  get?_eq : ∀ id, arena.get? id = lastStored? events id
  get?_unissued : ∀ id, (∀ value, .issued id value ∉ events) → arena.get? id = none
  /-- A name that was removed stands for a record again when its slot is taken and was
  left so often that the generations have come round. -/
  live_again_iff : ∀ later id earlier, events = later ++ .removed id :: earlier →
    (arena.Live id ↔ (∃ other, arena.Live other ∧ other.index = id.index) ∧
      2 ^ 32 ∣ (freed later).count id.index + 1)
  add_eq : ∀ make, (arena.add make).2.slotCount ≤ 2 ^ 32 →
    ¬ arena.Live (arena.add make).1 ∧
      (arena.add make).2.get? (arena.add make).1 = some (make (arena.add make).1)
  remove_eq : ∀ id, (arena.remove id).1 = lastStored? events id ∧
    (¬ arena.Live id → (arena.remove id).2 = arena)
  /-- Nothing fails but writing to a record that has to be live and is not. -/
  perform_ok_iff : ∀ access, (∃ outcome after, arena.perform access = .ok (outcome, after)) ↔
    ∀ id value, access = .put id value → arena.Live id
  /-- Every live record is listed once, in the order of the slots. -/
  entries_sorted : arena.entries.Pairwise fun first second => first.1.index < second.1.index
  mem_entries_iff : ∀ id value, (id, value) ∈ arena.entries ↔ arena.get? id = some value
  length_entries : arena.entries.length = arena.size
  /-- Whoever passes through the records to change them comes past the same. -/
  visit_eq : ∀ {σ : Type} (step : σ → NodeId → α → σ × α) (state : σ),
    (arena.visit step state).1 =
      arena.entries.foldl (fun state entry => (step state entry.1 entry.2).1) state
  mem_vacant_iff : ∀ index, index ∈ arena.vacant ↔
    index.toNat < arena.slotCount ∧ ∀ id, arena.Live id → id.index ≠ index
  vacant_nodup : arena.vacant.Nodup
  /-- Of the vacant slots the one that was left last is in front, and it is taken next. -/
  vacant_sorted : arena.vacant.Pairwise fun first second =>
    (freed events).idxOf first < (freed events).idxOf second
  add_index : ∀ make, (∀ index ∈ arena.vacant.head?, (arena.add make).1.index = index ∧
      (arena.add make).2.vacant = arena.vacant.tail) ∧
    (arena.vacant = [] → (arena.add make).1 = ⟨arena.slotCount.toUInt32, 0⟩)

end Arena

end ElasticTree
