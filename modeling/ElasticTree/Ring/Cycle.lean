import ElasticTree.Ring.Basic
import Mathlib.Data.List.Chain

/-!
# Rings as lists

A ring is a list of its members, written down from the member through which it
is entered.  Each member and the next one point at each other, and so do the
last and the first.

The links of an arena partition its records into rings if each record is in one
(`Ringed`).  What is done to a ring may change the links of some records and
nothing else (`Relinks`).
-/

namespace ElasticTree

namespace Ring

variable {α : Type} [RingMember α]

/-- The two records are live and point at each other as neighbours do. -/
def Neighbours (arena : Arena α) (first second : NodeId) : Prop :=
  ∃ before after, arena.get? first = some before ∧ arena.get? second = some after ∧
    (RingMember.links before).next = second ∧ (RingMember.links after).prev = first

/-- The ring that is entered through `head` has `rest` behind it, in the order
of successors. -/
structure Cycle (arena : Arena α) (head : NodeId) (rest : List NodeId) : Prop where
  nodup : (head :: rest).Nodup
  neighbours : (head :: (rest ++ [head])).IsChain (Neighbours arena)

/-- Every record lies in a ring. -/
def Ringed (arena : Arena α) : Prop := ∀ id, arena.Live id → ∃ rest, Cycle arena id rest

/-- The arenas differ in nothing but the ring links of some of these members. -/
structure Relinks (members : List NodeId) (before after : Arena α) : Prop where
  get?_eq : ∀ id ∉ members, after.get? id = before.get? id
  /-- Whatever can be seen of the records without looking at their links is the same,
  together with their slots, the vacant ones and the count. -/
  project_eq : ∀ {β : Type} (view : α → β),
    (∀ new record, view (RingMember.withLinks new record) = view record) →
      after.map (fun _ => view) = before.map fun _ => view

end Ring

end ElasticTree
