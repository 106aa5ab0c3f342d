import ElasticTree.Arena.Basic

/-!
# Rings of records

A ring is a circular doubly linked list threaded through the records of an
arena: every record carries the names of its successor and its predecessor, and
a record that is alone points at itself both ways.  A ring is entered through
any of its members; the member in front of the one entered through is the tail,
so adding at the tail and removing both take constant time.

Rings of one or two members alias their own ends.  The assignments below are
made one after the other, and each sees the records as the earlier ones left
them.
-/

namespace ElasticTree

/-- The two links of a ring member. -/
structure RingLinks where
  next : NodeId
  prev : NodeId
  deriving DecidableEq, Repr

/-- The links of a record that is alone in its ring. -/
def RingLinks.alone (id : NodeId) : RingLinks := ⟨id, id⟩

/-- Records that carry ring links.  The laws say that the links are a part of
the record which can be replaced independently of all the rest. -/
class RingMember (α : Type) where
  links : α → RingLinks
  withLinks : RingLinks → α → α
  links_withLinks : ∀ (new : RingLinks) (record : α), links (withLinks new record) = new
  withLinks_links : ∀ record : α, withLinks (links record) record = record
  withLinks_withLinks : ∀ (new old : RingLinks) (record : α),
    withLinks new (withLinks old record) = withLinks new record

/-- Ring links alone are a record. -/
instance : RingMember RingLinks where
  links record := record
  withLinks new _ := new
  links_withLinks _ _ := rfl
  withLinks_links _ := rfl
  withLinks_withLinks _ _ _ := rfl

namespace Ring

open RingMember

variable {α : Type} [RingMember α]

/-- The ring links of the record called `id`. -/
def linksOf (arena : Arena α) (id : NodeId) : Except Fault RingLinks := do
  return links (← arena.fetch id)

/-- Replaces the ring links of the record called `id`. -/
def setLinks (arena : Arena α) (id : NodeId) (new : RingLinks) : Except Fault (Arena α) :=
  arena.update id (withLinks new)

/-- Replaces the successor of the record called `id`. -/
def setNext (arena : Arena α) (id next : NodeId) : Except Fault (Arena α) :=
  arena.update id fun record => withLinks { links record with next := next } record

/-- Replaces the predecessor of the record called `id`. -/
def setPrev (arena : Arena α) (id prev : NodeId) : Except Fault (Arena α) :=
  arena.update id fun record => withLinks { links record with prev := prev } record

/-- Makes the record called `id` a ring of its own, without regard to the ring
it was in. -/
def isolate (arena : Arena α) (id : NodeId) : Except Fault (Arena α) :=
  setLinks arena id (.alone id)

/-- Adds `id` at the tail of the ring entered through `head`, which is the place
just before `head`. -/
def append (arena : Arena α) (head id : NodeId) : Except Fault (Arena α) := do
  let tail := (← linksOf arena head).prev
  let arena ← setLinks arena id ⟨head, tail⟩
  let arena ← setNext arena tail id
  setPrev arena head id

/-- Takes `id` out of its ring, which closes behind it, and leaves it alone. -/
def remove (arena : Arena α) (id : NodeId) : Except Fault (Arena α) := do
  let old ← linksOf arena id
  let arena ← setNext arena old.prev old.next
  let arena ← setPrev arena old.next old.prev
  isolate arena id

/-- Whether `id` is its own successor. -/
def isAlone (arena : Arena α) (id : NodeId) : Except Fault Bool := do
  return (← linksOf arena id).next == id

end Ring

end ElasticTree
