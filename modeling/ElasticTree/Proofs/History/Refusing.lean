import ElasticTree.Proofs.History.Joining
import ElasticTree.Proofs.Tree.Answering

/-!
# What is refused, and why

A request that names a node wants it to be linked, or not to be.  After every history
it is refused if the name is not live or the node is in the other state, and for no other
reason, except that byte strings may be too long to be compared.  A request that was
refused has changed nothing, and neither has an insertion that found another node in its
place.

Removing a node is two requests in one.  It does not stop after the first: what is
unlinked is detached, and so it can be released.
-/

namespace ElasticTree

open Shape

namespace Tree

variable {K V L A : Type}

/-! ## What is meant -/

section Reasons

variable {tree : Tree K V} {id : NodeId} {node : Node K V} {wanted : Prop} {cause refusal : Refusal}

end Reasons

variable {tree : Tree K V} {shape : Option Shape} {id : NodeId}

namespace Stands

end Stands

section Insertion

variable {insertion : Insertion K V L} {accepts : L → Prop} {lasts : Nat → Prop}
  {holds : Nat → Tree K V → Option Shape → Prop} {floor : Nat} {rejects : L → Refusal → Prop}

end Insertion

end Tree

/-! ## Histories -/

end ElasticTree
