import ElasticTree.Tree.Dealing
import ElasticTree.Tree.Listing
import ElasticTree.Tree.Pulling

/-!
# Stepping

What a caller may rely on who goes from node to node.  `Steps` says that single
steps go through a listing to and fro, and that iterating deals it out from both
ends.  `StepsByKey` says that steps from key to key lead to the nearest other key,
and there to the node that is met first.
-/

namespace ElasticTree

variable {K V C : Type}

namespace Tree

/-- Stepping from `start` leads to these nodes one after the other and then
ends. -/
inductive Strides (step : NodeId → Except Fault (Except Refusal (Option NodeId))) :
    Option NodeId → List NodeId → Prop where
  | done : Strides step none []
  | step {id : NodeId} {following : Option NodeId} {rest : List NodeId}
      (step_eq : step id = .ok (.ok following)) (strides : Strides step following rest) :
      Strides step (some id) (id :: rest)

/-- Stepping leads through the entries one by one, to and fro, and iterating deals
them out and keeps count of those left. -/
structure Steps (tree : Tree K V) (entries : List (Entry K V)) : Prop where
  lists : tree.Lists entries
  first_eq : tree.first = .ok (entries.head?.map Entry.id)
  last_eq : tree.last = .ok (entries.getLast?.map Entry.id)
  prev_first : ∀ id, tree.first = .ok (some id) → tree.prev id = .ok (.ok none)
  next_last : ∀ id, tree.last = .ok (some id) → tree.next id = .ok (.ok none)
  inverse : ∀ id other, tree.next id = .ok (.ok (some other)) ↔
    tree.prev other = .ok (.ok (some id))
  strides : Strides tree.next (entries.head?.map Entry.id) (entries.map Entry.id)
  deals : ∀ directions, ∃ answers rest, tree.pullAll directions = .ok answers ∧
    Deals entries directions answers rest ∧ ∃ start after, Cursor.start tree = .ok start ∧
      drain (Cursor.take tree) directions start = .ok (answers, after) ∧
      after.sizeHint = (rest.length, some rest.length)

end Tree

/-! ## Keys -/

/-- The entry is the first of its key. -/
def FirstOfKey [DecidableEq C] (view : K → C) (entries : List (Entry K V))
    (entry : Entry K V) : Prop :=
  entries.find? (fun other => view other.key = view entry.key) = some entry

/-- The answer names the first entry of the nearest key that comes after this one,
and is none only if no key comes after it. -/
structure FirstOfNextKey [DecidableEq C] (before : C → C → Prop) (view : K → C)
    (entries : List (Entry K V)) (key : C) (answer : Option NodeId) : Prop where
  none_iff : answer = none ↔ ∀ entry ∈ entries, ¬ before key (view entry.key)
  some_eq : ∀ id, answer = some id → ∃ entry ∈ entries, entry.id = id ∧
    before key (view entry.key) ∧
    (∀ other ∈ entries, before key (view other.key) → ¬ before (view other.key) (view entry.key)) ∧
    FirstOfKey view entries entry

/-- These are the first entries of all keys, in the order of the keys. -/
structure FirstOfEveryKey [DecidableEq C] (before : C → C → Prop) (view : K → C)
    (entries firsts : List (Entry K V)) : Prop where
  ordered : firsts.Pairwise fun first second => before (view first.key) (view second.key)
  mem_iff : ∀ entry, entry ∈ firsts ↔ entry ∈ entries ∧ FirstOfKey view entries entry

/-- Steps from key to key lead to the nearest other key, from any node of the key
they start from.  Moving right they lead to its first node, and moving left to its
last. -/
structure Tree.StepsByKey [LT C] [DecidableEq C] (view : K → C) (tree : Tree K V)
    (entries : List (Entry K V)) : Prop where
  lists : tree.Lists entries
  sorted : entries.Pairwise fun first second => ¬ view second.key < view first.key
  next : ∀ entry ∈ entries, ∃ answer, tree.nextGroup entry.id = .ok (.ok answer) ∧
    FirstOfNextKey (· < ·) view entries (view entry.key) answer
  prev : ∀ entry ∈ entries, ∃ answer, tree.prevGroup entry.id = .ok (.ok answer) ∧
    FirstOfNextKey (· > ·) view entries.reverse (view entry.key) answer
  heads : ∃ heads, tree.groupHeads = .ok heads ∧ FirstOfEveryKey (· < ·) view entries heads
  tails : ∃ tails, tree.last = .ok (tails.head?.map Entry.id) ∧
    Tree.Strides tree.prevGroup (tails.head?.map Entry.id) (tails.map Entry.id) ∧
    FirstOfEveryKey (· > ·) view entries.reverse tails

end ElasticTree
