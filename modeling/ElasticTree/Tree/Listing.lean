import ElasticTree.Tree.Cursor

/-!
# Listings

What going through a tree is to give: all linked nodes, each of them once, with
what they store, and from the last to the first the same in reverse.  What a
search in it is to answer: the first of the entries that have the key, or none if
no linked node has it.
-/

namespace ElasticTree

namespace Tree

variable {K V : Type}

/-- The entries are the linked nodes of the tree, in the order in which they are
gone through. -/
structure Lists (tree : Tree K V) (entries : List (Entry K V)) : Prop where
  forward : tree.toList = .ok entries
  backward : tree.toListReverse = .ok entries.reverse
  nodup : (entries.map Entry.id).Nodup
  mem_iff : ∀ entry, entry ∈ entries ↔ ∃ node, tree.nodes.get? entry.id = some node ∧
    node.placement ≠ .detached ∧ entry.key = node.key ∧ entry.value = node.value

/-- The answer names the first of the entries whose key matches.  It is none only
if no linked node has such a key. -/
structure Answers (tree : Tree K V) (entries : List (Entry K V)) (matching : K → Bool)
    (answer : Except Fault (Option NodeId)) : Prop where
  first : answer = .ok ((entries.find? fun entry => matching entry.key).map Entry.id)
  none_iff : answer = .ok none ↔ ∀ id node, tree.nodes.get? id = some node →
    node.placement ≠ .detached → matching node.key = false

end Tree

end ElasticTree
