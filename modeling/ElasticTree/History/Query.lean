import ElasticTree.History.Ledger
import ElasticTree.Tree.Cursor
import ElasticTree.Tree.Statistics

/-!
# Questions

What a caller may ask between requests, without changing anything.  A tree looks
the answers up in its links, a ledger in its lists; how a tree looks for a key
depends on the kind of keys and is a parameter.
-/

namespace ElasticTree

/-- What a caller may ask of a tree, where keys are looked for as `C`. -/
inductive Query (C : Type) where
  | find (key : C)
  | first
  | last
  | next (id : NodeId)
  | prev (id : NodeId)
  | nextGroup (id : NodeId)
  | prevGroup (id : NodeId)
  | entries
  | entriesReverse
  | groupHeads
  | size
  | figures
  deriving DecidableEq, Repr

/-- What a caller gets to know. -/
inductive Answer (K V : Type) where
  | found (id : Option NodeId)
  | stepped (answer : Except Refusal (Option NodeId))
  | listed (entries : List (Entry K V))
  | counted (number : Nat)
  | figures (values duplicates detached : Nat)

namespace Query

/-- The same question about keys that are seen in another way. -/
def map {C C' : Type} (code : C → C') : Query C → Query C'
  | find key => find (code key)
  | first => first
  | last => last
  | next id => next id
  | prev id => prev id
  | nextGroup id => nextGroup id
  | prevGroup id => prevGroup id
  | entries => entries
  | entriesReverse => entriesReverse
  | groupHeads => groupHeads
  | size => size
  | figures => figures

end Query

/-- What a tree answers. -/
def Tree.ask {K V C : Type} (search : C → Except Fault (Option NodeId)) (tree : Tree K V) :
    Query C → Except Fault (Answer K V)
  | .find key => do return .found (← search key)
  | .first => do return .found (← tree.first)
  | .last => do return .found (← tree.last)
  | .next id => do return .stepped (← tree.next id)
  | .prev id => do return .stepped (← tree.prev id)
  | .nextGroup id => do return .stepped (← tree.nextGroup id)
  | .prevGroup id => do return .stepped (← tree.prevGroup id)
  | .entries => do return .listed (← tree.toList)
  | .entriesReverse => do return .listed (← tree.toListReverse)
  | .groupHeads => do return .listed (← tree.groupHeads)
  | .size => .ok (.counted tree.size)
  | .figures => do
      let statistics ← tree.statistics
      return .figures statistics.values statistics.duplicates statistics.detached

namespace Ledger

variable {K V C : Type}

/-- What is stored under a name. -/
def entryOf? (ledger : Ledger K V C) (id : NodeId) : Option (Entry K V) :=
  (ledger.contents.get? id).map fun stored => ⟨id, stored.1, stored.2⟩

/-- Answers only about a name that is linked. -/
def stepFrom (ledger : Ledger K V C) (id : NodeId) (answer : Option NodeId) :
    Except Refusal (Option NodeId) :=
  match ledger.contents.get? id with
  | none => .error (.unknownNode id)
  | some _ => if id ∈ ledger.ids then .ok answer else .error (.notLinked id)

variable [LT C] [DecidableLT C] [DecidableEq C]

/-- What a ledger answers. -/
def ask (ledger : Ledger K V C) : Query C → Answer K V
  | .find key => .found (ledger.linked.find? key)
  | .first => .found ledger.ids.head?
  | .last => .found ledger.ids.getLast?
  | .next id => .stepped (ledger.stepFrom id (ledger.ids.dropWhile (· ≠ id)).tail.head?)
  | .prev id => .stepped (ledger.stepFrom id (ledger.ids.takeWhile (· ≠ id)).getLast?)
  | .nextGroup id =>
      .stepped (ledger.stepFrom id ((ledger.linked.keyOf? id).bind ledger.linked.findGT?))
  | .prevGroup id =>
      .stepped (ledger.stepFrom id ((ledger.linked.keyOf? id).bind ledger.linked.findLT?))
  | .entries => .listed (ledger.ids.filterMap ledger.entryOf?)
  | .entriesReverse => .listed (ledger.ids.reverse.filterMap ledger.entryOf?)
  | .groupHeads => .listed ((ledger.linked.heads.map Prod.snd).filterMap ledger.entryOf?)
  | .size => .counted ledger.linked.length
  | .figures => .figures ledger.linked.length (ledger.linked.length - ledger.linked.heads.length)
      (ledger.contents.entries.countP fun entry => entry.1 ∉ ledger.ids)

end Ledger

end ElasticTree
