/-!
# The highest bit of a number
-/

namespace ElasticTree

/-- The position of the highest bit of `n`, counted from one; zero has none and
gives zero. -/
def topBit (n : Nat) : Nat := if n = 0 then 0 else n.log2 + 1

end ElasticTree
