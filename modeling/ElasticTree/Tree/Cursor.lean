import ElasticTree.Tree.Walk

/-!
# Going through a tree

A `Cursor` goes through all linked nodes in order and can be advanced at either
end.  It counts how many nodes are left between its ends, so the two ends never
overlap.  A `Span` goes through the nodes from a first to a last one; it carries
no count and closes when its ends meet.
-/

namespace ElasticTree

/-- A linked node as it is shown to a caller. -/
structure Entry (K V : Type) where
  id : NodeId
  key : K
  value : V
  deriving DecidableEq, Repr

namespace Tree

variable {K V : Type}

/-- What the node called `id` shows. -/
def entry (tree : Tree K V) (id : NodeId) : Except Fault (Entry K V) := do
  let node ← tree.node id
  return ⟨id, node.key, node.value⟩

end Tree

/-! ## Cursors -/

/-- The nodes at either end of what is left, and how many are left. -/
structure Cursor where
  front : Option NodeId
  back : Option NodeId
  remaining : Nat
  deriving DecidableEq, Repr

namespace Cursor

variable {K V : Type}

/-- A cursor over all linked nodes. -/
def start (tree : Tree K V) : Except Fault Cursor := do
  return ⟨← tree.first, ← tree.last, tree.linked⟩

/-- Takes the node at the front. -/
def next (tree : Tree K V) (cursor : Cursor) : Except Fault (Option (Entry K V) × Cursor) :=
  match cursor.remaining, cursor.front with
  | remaining + 1, some id => do
      let front ← tree.stepNext id
      return (some (← tree.entry id), { cursor with front := front, remaining := remaining })
  | _, _ => .ok (none, cursor)

/-- Takes the node at the back. -/
def nextBack (tree : Tree K V) (cursor : Cursor) : Except Fault (Option (Entry K V) × Cursor) :=
  match cursor.remaining, cursor.back with
  | remaining + 1, some id => do
      let back ← tree.stepPrev id
      return (some (← tree.entry id), { cursor with back := back, remaining := remaining })
  | _, _ => .ok (none, cursor)

end Cursor

/-! ## Spans -/

/-- The nodes at either end of what is left of a run of neighbours. -/
structure Span where
  front : Option NodeId
  back : Option NodeId
  deriving DecidableEq, Repr

namespace Span

variable {K V : Type}

/-- A span without nodes. -/
def empty : Span := ⟨none, none⟩

/-- Takes the node at the front.  The last node of the span closes it. -/
def next (tree : Tree K V) (span : Span) : Except Fault (Option (Entry K V) × Span) :=
  match span.front with
  | none => .ok (none, span)
  | some id => do
      let entry ← tree.entry id
      if span.front = span.back then return (some entry, empty)
      else return (some entry, { span with front := ← tree.stepNext id })

/-- Takes the node at the back.  The last node of the span closes it. -/
def nextBack (tree : Tree K V) (span : Span) : Except Fault (Option (Entry K V) × Span) :=
  match span.back with
  | none => .ok (none, span)
  | some id => do
      let entry ← tree.entry id
      if span.front = span.back then return (some entry, empty)
      else return (some entry, { span with back := ← tree.stepPrev id })

end Span

/-! ## Listing -/

/-- Repeats `step`, which takes one entry at a time, until it has none left or
the limit is reached. -/
def collect {K V S : Type} (step : S → Except Fault (Option (Entry K V) × S)) :
    Nat → S → Except Fault (List (Entry K V))
  | 0, _ => .ok []
  | limit + 1, state => do
      match ← step state with
      | (none, _) => return []
      | (some entry, state) => return entry :: (← collect step limit state)

namespace Tree

variable {K V : Type}

/-- All linked nodes in order. -/
def toList (tree : Tree K V) : Except Fault (List (Entry K V)) := do
  collect (Cursor.next tree) tree.linked (← Cursor.start tree)

/-- All linked nodes from the last to the first. -/
def toListReverse (tree : Tree K V) : Except Fault (List (Entry K V)) := do
  collect (Cursor.nextBack tree) tree.linked (← Cursor.start tree)

/-- The nodes from `id` on that come first of their key, with a limit on their
number. -/
def groupHeadsWithin (tree : Tree K V) : Nat → Option NodeId → Except Fault (List (Entry K V))
  | _, none => .ok []
  | 0, some _ => .error .endless
  | limit + 1, some id => do
      let following ← tree.stepGroup .right id
      let entry ← tree.entry id
      return entry :: (← tree.groupHeadsWithin limit following)

/-- The first node of every key, in order. -/
def groupHeads (tree : Tree K V) : Except Fault (List (Entry K V)) := do
  tree.groupHeadsWithin tree.walkLimit (← tree.first)

end Tree

end ElasticTree
