import ElasticTree.History.Request

/-!
# The order of arrival

A caller who writes down what was asked and what was replied knows, without any
tree or ledger, which nodes are linked and in which order they were inserted.  A
node that goes is crossed out, and one that comes back goes to the end.

`Leads` says of the answer of a search that none of the nodes with the same key
was there before it.
-/

namespace ElasticTree

variable {K V L C : Type}

/-- What becomes of the nodes noted so far, after a request and its reply. -/
def Request.note (noted : List NodeId) : Request K V L → Reply K V → List NodeId
  | .insert id _, .inserted (.ok answer) => if answer = id then noted ++ [id] else noted
  | .unlink id, .unlinked (.ok _) => noted.filter (· ≠ id)
  | .remove id, .released (.ok _) => noted.filter (· ≠ id)
  | .clear, _ => []
  | _, _ => noted

/-- The nodes that are linked after a history, in the order of their insertion,
where some were noted before it. -/
def arrivalsFrom (noted : List NodeId) : List (Request K V L) → List (Reply K V) → List NodeId
  | request :: requests, reply :: replies =>
      arrivalsFrom (request.note noted reply) requests replies
  | _, _ => noted

/-- The nodes that are linked after a history, in the order of their
insertion. -/
def arrivals (requests : List (Request K V L)) (replies : List (Reply K V)) : List NodeId :=
  arrivalsFrom [] requests replies

/-- If the answer is a node, it is the first of those in the list whose keys look
like its own. -/
def Tree.Leads [DecidableEq C] (view : K → C) (tree : Tree K V) (order : List NodeId)
    (answer : Except Fault (Option NodeId)) : Prop :=
  ∀ id, answer = .ok (some id) →
    order.find? (fun other => (tree.key? other).map view = (tree.key? id).map view) = some id

end ElasticTree
