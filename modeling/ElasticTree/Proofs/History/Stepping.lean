import ElasticTree.Proofs.ByteTree.History
import ElasticTree.Proofs.ByteTree.Lengths
import ElasticTree.Proofs.History.Outline
import ElasticTree.Proofs.Tree.KeySteps
import ElasticTree.Proofs.WordTree.History

/-!
# Stepping after any history

Single steps follow the order of a tree whatever its keys are, so they can be
relied on even if a caller compares byte strings over another length each time.
Steps from key to key need the keys to be in order, and so they need one length
for all insertions.
-/

namespace ElasticTree

/-- After any history, single steps go through the linked nodes to and fro, and
iterating deals them out from both ends: in a tree of words of any width, and in a
tree of byte strings that are compared over any lengths. -/
theorem stepping_exact {K V : Type} [ByteKey K] (unique : Bool) :
    (∀ (width : Nat) (requests : List (Request (BitVec width) V Unit)), width < 2 ^ 31 →
      (Tree.empty unique).Fits WordTree.insertion requests →
        ∃ tree entries, (Tree.empty unique).run WordTree.insertion requests = .ok tree ∧
          tree.Steps entries) ∧
    ∀ requests : List (Request K V Nat), (Tree.empty unique).Fits ByteTree.insert requests →
      (requests.countP Request.isInsert < 2 ^ 31 →
        ∃ tree, (Tree.empty unique).run ByteTree.insert requests = .ok tree) ∧
      ∀ tree, (Tree.empty unique).run ByteTree.insert requests = .ok tree →
        ∃ entries, tree.Steps entries := by
  refine ⟨fun width requests hwidth hfits => ?_,
    fun requests hfits => ⟨fun hinserts => ?_, fun tree hrun => ?_⟩⟩
  · obtain ⟨tree, shape, hplay, hmirrors⟩ := WordTree.play_mirrors hwidth hfits
    obtain ⟨entries, hsteps⟩ := hmirrors.stands.steps
    exact ⟨tree, entries, Tree.run_of_play hplay, hsteps⟩
  · obtain ⟨tree, shape, hrun, -⟩ := (Tree.Holds.empty unique).run
      (ByteTree.insert_maintains (2 ^ 31) (Nat.le_refl _)) (by omega) hfits
    exact ⟨tree, hrun⟩
  · obtain ⟨shape, hholds⟩ := ((Tree.Holds.empty unique).raise (Nat.zero_le _)).of_run
      ByteTree.insert_survives hfits hrun
    exact hholds.stands.steps

/-- Three nodes of one word and one of another, of which the head of the ring goes. -/
private def ring : List (Request (BitVec 8) String Unit) :=
  [.alloc 5 "first", .alloc 5 "second", .alloc 3 "third", .alloc 5 "fourth", .insert ⟨0, 0⟩ (),
    .insert ⟨1, 0⟩ (), .insert ⟨2, 0⟩ (), .insert ⟨3, 0⟩ (), .unlink ⟨0, 0⟩]

/-- Three strings that are compared over three lengths, so that they end up in no
order. -/
private def disorder : List (Request String String Nat) :=
  [.alloc "b" "first", .alloc "ac" "second", .alloc "ab" "third", .insert ⟨0, 0⟩ 2,
    .insert ⟨1, 0⟩ 0, .insert ⟨2, 0⟩ 1]

theorem stepping_exact_in_disorder :
    8 < 2 ^ 31 ∧ (Tree.empty false).Fits WordTree.insertion ring ∧
      (Tree.empty false).Fits ByteTree.insert disorder ∧
      (∃ tree entries, (Tree.empty false).run WordTree.insertion ring = .ok tree ∧
        tree.Steps entries) ∧
      ∃ tree entries, (Tree.empty false).run ByteTree.insert disorder = .ok tree ∧
        tree.Steps entries := by
  have hwidth : 8 < 2 ^ 31 := by decide
  have hring : (Tree.empty false).Fits WordTree.insertion ring := by decide +kernel
  have hdisorder : (Tree.empty false).Fits ByteTree.insert disorder := by decide +kernel
  have hstepping := stepping_exact (K := String) (V := String) false
  obtain ⟨hruns, hsteps⟩ := hstepping.2 disorder hdisorder
  obtain ⟨tree, hrun⟩ := hruns (by decide)
  obtain ⟨entries, hentries⟩ := hsteps tree hrun
  exact ⟨hwidth, hring, hdisorder, hstepping.1 8 ring hwidth hring, tree, entries, hrun, hentries⟩

/-- After any history, the step from any node of a key leads to the first node of
the next larger key, and the step back to the last node of the next smaller one;
going by these steps visits the first and the last nodes of all keys.  This holds
in a tree of words of any width, and in a tree of byte strings if all insertions
compare over the same length, whatever it is. -/
theorem key_stepping_exact {K V : Type} [ByteKey K] (unique : Bool) :
    (∀ (width : Nat) (requests : List (Request (BitVec width) V Unit)), width < 2 ^ 31 →
      (Tree.empty unique).Fits WordTree.insertion requests →
        ∃ tree entries, (Tree.empty unique).run WordTree.insertion requests = .ok tree ∧
          tree.StepsByKey (fun word => word) entries) ∧
    ∀ (length : Nat) (requests : List (Request K V Nat)),
      (∀ request ∈ requests, request.Allowed (· = length)) →
      (Tree.empty unique).Fits ByteTree.insert requests →
        (requests.countP Request.isInsert < 2 ^ 31 →
          ∃ tree, (Tree.empty unique).run ByteTree.insert requests = .ok tree) ∧
        ∀ tree, (Tree.empty unique).run ByteTree.insert requests = .ok tree →
          ∃ entries, tree.StepsByKey (fun key => ByteString.padded length (ByteKey.bytes key))
            entries := by
  refine ⟨fun width requests hwidth hfits => ?_,
    fun length requests hallowed hfits => ⟨fun hinserts => ?_, fun tree hrun => ?_⟩⟩
  · obtain ⟨tree, shape, hplay, hmirrors⟩ := WordTree.play_mirrors hwidth hfits
    obtain ⟨entries, hids, hlists⟩ := hmirrors.stands.lists
    exact ⟨tree, entries, Tree.run_of_play hplay,
      hmirrors.stands.stepsByKey (Word.settles width) hmirrors.obeys hlists hids⟩
  · obtain ⟨tree, shape, hrun, -⟩ := (Tree.Holds.empty unique).run
      (ByteTree.insert_maintains (2 ^ 31) (Nat.le_refl _)) (by omega) hfits
    exact ⟨tree, hrun⟩
  · obtain ⟨floor, ledger, shape, hmirrors⟩ := ByteTree.mirrors_of_run hallowed hfits hrun
    obtain ⟨entries, hids, hlists⟩ := hmirrors.stands.lists
    exact ⟨entries,
      hmirrors.stands.stepsByKey (ByteString.settles length) hmirrors.obeys hlists hids⟩

/-- Three strings that are the same over one byte between two others, of which the
first goes. -/
private def neighbours : List (Request String String Nat) :=
  [.alloc "b" "first", .alloc "ba" "second", .alloc "a" "third", .alloc "c" "fourth",
    .alloc "bb" "fifth", .insert ⟨0, 0⟩ 1, .insert ⟨1, 0⟩ 1, .insert ⟨2, 0⟩ 1, .insert ⟨3, 0⟩ 1,
    .insert ⟨4, 0⟩ 1, .remove ⟨0, 0⟩]

theorem key_stepping_exact_neighbours :
    8 < 2 ^ 31 ∧ (Tree.empty false).Fits WordTree.insertion ring ∧
      (∀ request ∈ neighbours, request.Allowed (· = 1)) ∧
      (Tree.empty false).Fits ByteTree.insert neighbours ∧
      (∃ tree entries, (Tree.empty false).run WordTree.insertion ring = .ok tree ∧
        tree.StepsByKey (fun word => word) entries) ∧
      ∃ tree entries, (Tree.empty false).run ByteTree.insert neighbours = .ok tree ∧
        tree.StepsByKey (fun key => ByteString.padded 1 (ByteKey.bytes key)) entries := by
  have hwidth : 8 < 2 ^ 31 := by decide
  have hring : (Tree.empty false).Fits WordTree.insertion ring := by decide +kernel
  have hallowed : ∀ request ∈ neighbours, request.Allowed (· = 1) := by
    simp [neighbours, Request.Allowed]
  have hneighbours : (Tree.empty false).Fits ByteTree.insert neighbours := by decide +kernel
  have hstepping := key_stepping_exact (K := String) (V := String) false
  obtain ⟨hruns, hsteps⟩ := hstepping.2 1 neighbours hallowed hneighbours
  obtain ⟨tree, hrun⟩ := hruns (by decide)
  obtain ⟨entries, hentries⟩ := hsteps tree hrun
  exact ⟨hwidth, hring, hallowed, hneighbours, hstepping.1 8 ring hwidth hring, tree, entries, hrun,
    hentries⟩

end ElasticTree
