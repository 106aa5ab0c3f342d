import ElasticTree.NodeId

/-!
# Ordered multimaps

What a tree of keys amounts to for its callers: a list of entries that is sorted
by key, in which entries of equal key stand in the order of their insertion.
The keys here are what is compared, so a byte string counts as cut or padded to
the length of the comparison.
-/

namespace ElasticTree

/-- Entries of keys and nodes. -/
abbrev Multimap (K : Type) := List (K × NodeId)

namespace Multimap

variable {K : Type} [LT K] [DecidableLT K]

/-- Adds an entry behind all those of smaller or equal key. -/
def insert (map : Multimap K) (key : K) (id : NodeId) : Multimap K :=
  map.takeWhile (fun entry => ¬ key < entry.1) ++
    (key, id) :: map.dropWhile (fun entry => ¬ key < entry.1)

/-- Takes out the entry of a node. -/
def erase (map : Multimap K) (id : NodeId) : Multimap K := map.filter fun entry => entry.2 ≠ id

/-- The first node of a key. -/
def find? [DecidableEq K] (map : Multimap K) (key : K) : Option NodeId :=
  (List.find? (fun entry => entry.1 = key) map).map Prod.snd

/-- The first node of a larger key. -/
def findGT? (map : Multimap K) (key : K) : Option NodeId :=
  (List.find? (fun entry => key < entry.1) map).map Prod.snd

/-- The last node of a smaller key. -/
def findLT? (map : Multimap K) (key : K) : Option NodeId :=
  (List.find? (fun entry => entry.1 < key) map.reverse).map Prod.snd

/-- The key of a node. -/
def keyOf? (map : Multimap K) (id : NodeId) : Option K :=
  (List.find? (fun entry => entry.2 = id) map).map Prod.fst

/-- The entries that come first of their key. -/
def heads [DecidableEq K] (map : Multimap K) : Multimap K :=
  map.filter fun entry => map.find? entry.1 = some entry.2

/-- Sorted by key. -/
def Sorted (map : Multimap K) : Prop := map.Pairwise fun first second => ¬ second.1 < first.1

end Multimap

end ElasticTree
