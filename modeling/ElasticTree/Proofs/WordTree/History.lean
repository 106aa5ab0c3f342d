import ElasticTree.Proofs.History.Showing
import ElasticTree.Proofs.WordTree.Insertion

/-!
# Histories of trees of words

Whatever is asked of a tree of words, it replies like a ledger of words does.
The only part that is special to words is insertion, which serves the discipline
of words however often it is called: all splits are positive, and so they last.
-/

namespace ElasticTree

namespace WordTree

variable {width : Nat} {V : Type}

/-- Words are inserted by their node alone. -/
def insertion : Tree.Insertion (BitVec width) V Unit := fun tree id _ => WordTree.insert tree id

theorem serves (hwidth : width < 2 ^ 31) :
    (insertion : Tree.Insertion (BitVec width) V Unit).Serves (Word.discipline width)
      (fun word => word) (fun _ => True) where
  refuses h _ := by rw [insertion, WordTree.insert, h]
  inserts _ hstands hobeys _ hnode hid := insert_insertsInto hwidth hstands hobeys hnode hid

theorem lasts (bound : Nat) : (Word.discipline width).Lasts bound := fun split hadmits _ => by
  have hpositive : 1 ≤ split := hadmits.1
  omega

/-- A history leads to a tree that mirrors the ledger of the same history. -/
theorem play_mirrors (hwidth : width < 2 ^ 31) {unique : Bool}
    {requests : List (Request (BitVec width) V Unit)}
    (hfits : (Tree.empty unique).Fits insertion requests) :
    ∃ tree shape, (Tree.empty unique).play insertion requests =
        .ok (((Ledger.empty unique).play (fun word => word) requests).1, tree) ∧
      Tree.Mirrors (Word.discipline width) (fun word => word)
        (0 + requests.countP Request.isInsert) tree
        ((Ledger.empty unique).play (fun word => word) requests).2 shape :=
  (Tree.Mirrors.empty unique).play (serves hwidth) (fun request _ => by cases request <;> trivial)
    (lasts _) hfits

/-- A tree of words refines an ordered multimap: all replies are those of the
ledger, and after every history the tree shows what the ledger says. -/
theorem refines_ledger (hwidth : width < 2 ^ 31) (unique : Bool)
    (requests : List (Request (BitVec width) V Unit))
    (hfits : (Tree.empty unique).Fits insertion requests) :
    ∃ replies tree ledger,
      (Ledger.empty unique).play (fun word => word) requests = (replies, ledger) ∧
      (Tree.empty unique).play insertion requests = .ok (replies, tree) ∧
      tree.Shows (fun word => word) ledger ∧ ledger.linked.Sorted ∧
        (unique = true → (ledger.linked.map Prod.fst).Nodup) := by
  obtain ⟨tree, shape, hplay, hmirrors⟩ := play_mirrors hwidth hfits
  exact hmirrors.refines hplay rfl

/-- Two nodes of the word five and one of the word three, of which the first goes
and comes back behind its equal. -/
private def reinserting : List (Request (BitVec 8) String Unit) :=
  [.alloc 5 "first", .alloc 5 "second", .alloc 3 "third", .insert ⟨0, 0⟩ (), .insert ⟨1, 0⟩ (),
    .insert ⟨2, 0⟩ (), .unlink ⟨0, 0⟩, .insert ⟨0, 0⟩ (), .remove ⟨2, 0⟩]

theorem refines_ledger_reinserting :
    (Tree.empty false).Fits insertion reinserting ∧
      ((Ledger.empty false).play (fun word => word) reinserting).2.ids = [⟨1, 0⟩, ⟨0, 0⟩] ∧
      ∃ replies tree ledger,
        (Ledger.empty false).play (fun word => word) reinserting = (replies, ledger) ∧
        (Tree.empty false).play insertion reinserting = .ok (replies, tree) ∧
        tree.Shows (fun word => word) ledger ∧ ledger.linked.Sorted ∧
          (false = true → (ledger.linked.map Prod.fst).Nodup) := by
  have hfits : (Tree.empty false).Fits insertion reinserting := by decide +kernel
  exact ⟨hfits, by decide +kernel, refines_ledger (by decide) false reinserting hfits⟩

end WordTree

end ElasticTree
