import ElasticTree.History.Multimap
import ElasticTree.History.Request
import ElasticTree.Tree.Walk

/-!
# Histories on paper

A `Ledger` is what a history amounts to without any tree: the keys and values
that are stored under names, and the ordered multimap of those that are linked.
It carries out the same requests and gives the same kind of replies, and it can
always go on.  How keys compare is seen through a view of them, since a byte
string counts as cut or padded to the length of the comparison.

`Shows` says that a tree cannot be told from a ledger by what a caller may ask of
it.
-/

namespace ElasticTree

/-- What is stored, and what of it is linked in which order. -/
structure Ledger (K V C : Type) where
  unique : Bool
  contents : Arena (K × V)
  linked : Multimap C

namespace Ledger

variable {K V L C : Type}

/-- Nothing is stored. -/
def empty (unique : Bool) : Ledger K V C := ⟨unique, .empty, []⟩

/-- The names that are linked, in order. -/
def ids (ledger : Ledger K V C) : List NodeId := ledger.linked.map Prod.snd

variable [LT C] [DecidableLT C] [DecidableEq C]

/-- Links a name that is stored.  A ledger of distinct keys answers the holder of
a key that it has already. -/
def insert (ledger : Ledger K V C) (key : C) (id : NodeId) : NodeId × Ledger K V C :=
  match if ledger.unique then ledger.linked.find? key else none with
  | some holder => (holder, ledger)
  | none => (id, { ledger with linked := ledger.linked.insert key id })

/-- Carries out a request. -/
def perform (view : K → C) (ledger : Ledger K V C) :
    Request K V L → Reply K V × Ledger K V C
  | .alloc key value =>
      (.made ledger.contents.nextId,
        { ledger with contents := (ledger.contents.add fun _ => (key, value)).2 })
  | .insert id _ =>
      match ledger.contents.get? id with
      | none => (.inserted (.error (.unknownNode id)), ledger)
      | some (key, _) =>
          if id ∈ ledger.ids then (.inserted (.error (.alreadyLinked id)), ledger)
          else
            let (answer, ledger) := ledger.insert (view key) id
            (.inserted (.ok answer), ledger)
  | .unlink id =>
      match ledger.contents.get? id with
      | none => (.unlinked (.error (.unknownNode id)), ledger)
      | some _ =>
          if id ∈ ledger.ids then
            let linked := ledger.linked.erase id
            (.unlinked (.ok !linked.isEmpty), { ledger with linked := linked })
          else (.unlinked (.error (.notLinked id)), ledger)
  | .free id =>
      match ledger.contents.get? id with
      | none => (.released (.error (.unknownNode id)), ledger)
      | some entry =>
          if id ∈ ledger.ids then (.released (.error (.alreadyLinked id)), ledger)
          else (.released (.ok entry), { ledger with contents := (ledger.contents.remove id).2 })
  | .remove id =>
      match ledger.contents.get? id with
      | none => (.released (.error (.unknownNode id)), ledger)
      | some entry =>
          if id ∈ ledger.ids then
            (.released (.ok entry),
              { ledger with
                contents := (ledger.contents.remove id).2
                linked := ledger.linked.erase id })
          else (.released (.error (.notLinked id)), ledger)
  | .clear => (.done, { ledger with linked := [] })
  | .setValue id value =>
      (.done, { ledger with contents := ledger.contents.modify id fun entry => (entry.1, value) })

/-- Carries out requests one after the other and keeps the replies. -/
def play (view : K → C) (ledger : Ledger K V C) :
    List (Request K V L) → List (Reply K V) × Ledger K V C
  | [] => ([], ledger)
  | request :: rest =>
      let (reply, ledger) := ledger.perform view request
      let (replies, ledger) := ledger.play view rest
      (reply :: replies, ledger)

end Ledger

namespace Tree

variable {K V L C : Type}

/-- Carries out requests one after the other and keeps the replies. -/
def play (insertion : Insertion K V L) (tree : Tree K V) :
    List (Request K V L) → Except Fault (List (Reply K V) × Tree K V)
  | [] => .ok ([], tree)
  | request :: rest => do
      let (reply, tree) ← tree.perform insertion request
      let (replies, tree) ← tree.play insertion rest
      return (reply :: replies, tree)

/-- However far the requests are carried out, no more slots are opened than can
be named. -/
def Fits (insertion : Insertion K V L) (tree : Tree K V) (requests : List (Request K V L)) : Prop :=
  ∀ before after, before <+: requests → tree.run insertion before = .ok after →
    after.nodes.slotCount ≤ 2 ^ 32

/-- Stepping forward from `start` visits the nodes one after the other and then
ends. -/
inductive Visits (tree : Tree K V) : Option NodeId → List NodeId → Prop where
  | done : Visits tree none []
  | step {id : NodeId} {following : Option NodeId} {rest : List NodeId}
      (next_eq : tree.next id = .ok (.ok following)) (visits : Visits tree following rest) :
      Visits tree (some id) (id :: rest)

/-- A caller sees of the tree what the ledger says. -/
structure Shows (view : K → C) (tree : Tree K V) (ledger : Ledger K V C) : Prop where
  key?_eq : ∀ id, tree.key? id = (ledger.contents.get? id).map Prod.fst
  value?_eq : ∀ id, tree.value? id = (ledger.contents.get? id).map Prod.snd
  size_eq : tree.size = ledger.linked.length
  isEmpty_iff : tree.isEmpty = true ↔ ledger.linked = []
  isLinked_iff : ∀ id, tree.isLinked id = true ↔ id ∈ ledger.ids
  visits : ∃ start, tree.first = .ok start ∧ tree.Visits start ledger.ids
  keys : ∀ key id, (key, id) ∈ ledger.linked → (tree.key? id).map view = some key

end Tree

end ElasticTree
