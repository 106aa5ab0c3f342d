/-!
# Node identities

A record of an arena is named by the slot it lives in together with a
generation.  Slots are used again once their record has been released; the
generation tells the occupants of one slot apart, so a name kept from before the
release does not silently reach the new occupant.
-/

namespace ElasticTree

/-- The name of a record: the slot it occupies and which occupant of that slot
it is. -/
structure NodeId where
  index : UInt32
  generation : UInt32
  deriving DecidableEq, Repr

namespace NodeId

/-- Identities are written as slot and generation: `#3v0`. -/
instance : ToString NodeId where
  toString id := s!"#{id.index}v{id.generation}"

/-- Identities are ordered by slot, and within a slot by generation. -/
instance : Ord NodeId where
  compare first second :=
    (compare first.index second.index).then (compare first.generation second.generation)

end NodeId

end ElasticTree
