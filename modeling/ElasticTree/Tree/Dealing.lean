import ElasticTree.Node

/-!
# Dealing from both ends

What is in a row is dealt one after the other, each time from the end that the
caller names, and nothing comes out when all has been dealt.  `Deals` says so of
the answers that a caller gets: each is the next one from its end, and what has
come out at either end and what is left make up the row.
-/

namespace ElasticTree

variable {α : Type}

/-- The row as it is dealt from one end: moving right from its front, and moving
left from its back. -/
def fromEnd (direction : Side) (row : List α) : List α :=
  match direction with
  | .right => row
  | .left => row.reverse

/-- What came out at one end, in the order in which it came. -/
def dealt (direction : Side) (directions : List Side) (answers : List (Option α)) : List α :=
  ((directions.zip answers).filter fun turn => turn.1 = direction).filterMap Prod.snd

/-- The row was dealt in these directions with these answers, and `rest` is left
of it. -/
structure Deals (row : List α) (directions : List Side) (answers : List (Option α))
    (rest : List α) : Prop where
  length_eq : answers.length = directions.length
  /-- The turns before say how far either end has come. -/
  nth : ∀ turn direction, directions[turn]? = some direction → answers[turn]? =
    some (if turn < row.length then
      (fromEnd direction row)[(directions.take turn).count direction]? else none)
  parted : row = dealt .right directions answers ++ rest ++ (dealt .left directions answers).reverse
  length_rest : rest.length = row.length - directions.length

end ElasticTree
