import ElasticTree.Tree.Surgery
import Mathlib.Algebra.Group.Nat.Defs

/-!
# Requests and histories

Everything that a caller does to a tree is a sequence of requests.  `perform`
carries one out and answers what the caller gets to see, and `run` carries out
one after the other.  How a node is inserted depends on the kind of keys, so the
insertion is a parameter; `L` is what it is told besides the node.
-/

namespace ElasticTree

/-- What a caller may ask of a tree. -/
inductive Request (K V L : Type) where
  | alloc (key : K) (value : V)
  | insert (id : NodeId) (how : L)
  | unlink (id : NodeId)
  | free (id : NodeId)
  | remove (id : NodeId)
  | clear
  | setValue (id : NodeId) (value : V)
  deriving DecidableEq, Repr

/-- What a caller gets for an answer. -/
inductive Reply (K V : Type) where
  | made (id : NodeId)
  | inserted (answer : Except Refusal NodeId)
  | unlinked (answer : Except Refusal Bool)
  | released (answer : Except Refusal (K × V))
  | done

namespace Request

variable {K V L : Type}

/-- Whether the request is an insertion. -/
def isInsert : Request K V L → Bool
  | insert _ _ => true
  | _ => false

/-- Every insertion is told something that `allowed` holds of. -/
def Allowed (allowed : L → Prop) : Request K V L → Prop
  | insert _ how => allowed how
  | _ => True

end Request

namespace Tree

variable {K V L : Type}

/-- How nodes of one kind of keys are inserted. -/
abbrev Insertion (K V L : Type) : Type :=
  Tree K V → NodeId → L → Except Fault (Except Refusal NodeId × Tree K V)

/-- Carries out a request. -/
def perform (insertion : Insertion K V L) (tree : Tree K V) :
    Request K V L → Except Fault (Reply K V × Tree K V)
  | .alloc key value =>
      let (id, tree) := tree.alloc key value
      .ok (.made id, tree)
  | .insert id how => do
      let (answer, tree) ← insertion tree id how
      return (.inserted answer, tree)
  | .unlink id => do
      let (answer, tree) ← tree.unlink id
      return (.unlinked answer, tree)
  | .free id =>
      let (answer, tree) := tree.free id
      .ok (.released answer, tree)
  | .remove id => do
      let (answer, tree) ← tree.remove id
      return (.released answer, tree)
  | .clear => .ok (.done, tree.clear)
  | .setValue id value => .ok (.done, tree.setValue id value)

/-- Carries out requests one after the other. -/
def run (insertion : Insertion K V L) (tree : Tree K V) (requests : List (Request K V L)) :
    Except Fault (Tree K V) :=
  requests.foldlM (fun tree request => Prod.snd <$> tree.perform insertion request) tree

theorem run_append (insertion : Insertion K V L) (tree : Tree K V)
    (before after : List (Request K V L)) :
    tree.run insertion (before ++ after) =
      (tree.run insertion before) >>= fun middle => middle.run insertion after := by
  simp [run, List.foldlM_append]

end Tree

end ElasticTree
