import ElasticTree.Proofs.ByteTree.Inspection
import ElasticTree.Proofs.ByteTree.Search
import ElasticTree.Proofs.Tree.Listing
import ElasticTree.Proofs.WordTree.Inspection
import ElasticTree.Proofs.WordTree.Search

/-!
# Trees that pass inspection

The inspection looks at one node after the other and at what is above it.  A tree
that passes it may come from anywhere, and yet it can be relied on as a whole:
going through it gives the linked nodes in the order of their keys, and every
search finds what it is to find.
-/

namespace ElasticTree

/-- A tree that passes inspection lists its linked nodes in order and finds the
first of every key; a tree of words finds the nearest one on either side as
well. -/
theorem inspect_sound {K V : Type} [ByteKey K] :
    (∀ (width : Nat) (tree : WordTree width V), tree.nodes.Sound →
      (WordTree.inspect tree).run = .ok (.ok ()) →
        ∃ entries, tree.Lists entries ∧
          entries.Pairwise (fun first second => first.key ≤ second.key) ∧ ∀ key,
            tree.Answers entries (fun stored => stored = key) (WordTree.find? tree key) ∧
            tree.Answers entries (fun stored => key ≤ stored) (WordTree.findGE? tree key) ∧
            tree.Answers entries.reverse (fun stored => stored ≤ key) (WordTree.findLE? tree key)) ∧
    ∀ (length : Nat) (tree : ByteTree K V), 8 * length < 2 ^ 31 → tree.nodes.Sound →
      (ByteTree.inspect tree length).run = .ok (.ok ()) →
        ∃ entries, tree.Lists entries ∧
          entries.Pairwise (fun first second =>
            ¬ ByteString.padded length (ByteKey.bytes second.key) <
              ByteString.padded length (ByteKey.bytes first.key)) ∧ ∀ key,
            tree.Answers entries (fun stored => ByteString.padded length (ByteKey.bytes stored) =
              ByteString.padded length key) (ByteTree.find? tree key length) := by
  refine ⟨fun width tree hsound hinspect => ?_, fun length tree hlength hsound hinspect => ?_⟩
  · obtain ⟨shape, hstands, hobeys⟩ := WordTree.stands_of_inspect hsound hinspect
    obtain ⟨entries, hids, hlists⟩ := hstands.lists
    refine ⟨entries, hlists, (hlists.sorted (fun word => word) hids hobeys).imp BitVec.not_lt.mp,
      fun key => ⟨?_, ?_, ?_⟩⟩
    · apply hlists.answers (fun word => word) (· = key) fun _ => Iff.rfl
      rw [hids, WordTree.find?_eq hstands hobeys]
    · apply hlists.answers (fun word => word) (key ≤ ·) fun _ => Iff.rfl
      rw [hids, WordTree.findGE?_eq hstands hobeys]
    · apply hlists.answers (fun word => word) (· ≤ key) fun _ => List.mem_reverse
      rw [List.map_reverse, hids, WordTree.findLE?_eq hstands hobeys]
  · obtain ⟨shape, hstands, hobeys⟩ := ByteTree.stands_of_inspect hlength hsound hinspect
    obtain ⟨entries, hids, hlists⟩ := hstands.lists
    refine ⟨entries, hlists, hlists.sorted _ hids hobeys, fun key => ?_⟩
    apply hlists.answers (fun stored => ByteString.padded length (ByteKey.bytes stored))
      (· = ByteString.padded length key) fun _ => Iff.rfl
    rw [hids, ByteTree.find?_eq hlength hstands hobeys]

/-- Words that no insertion has put in their places, two of them chained. -/
private def writtenWords : WordTree 8 String where
  nodes := (((Arena.empty.add fun _ =>
      ⟨4, "first", .placed (.under ⟨1, 0⟩ .left), none, ⟨⟨2, 0⟩, ⟨2, 0⟩⟩⟩).2.add fun id =>
      ⟨5, "third", .placed (.under id .right), some ⟨.root, .leaf ⟨0, 0⟩, .leaf id, 1⟩,
        .alone id⟩).2.add
      fun _ => ⟨4, "second", .chained, none, ⟨⟨0, 0⟩, ⟨0, 0⟩⟩⟩).2
  root := some (.branch ⟨1, 0⟩)
  unique := true
  linked := 3

/-- Strings that no insertion has put in their places, the same over one byte. -/
private def writtenStrings : ByteTree String String where
  nodes := ((Arena.empty.add fun id =>
      ⟨"ab", "first", .placed (.under id .left),
        some ⟨.root, .leaf id, .leaf ⟨1, 0⟩, -3⟩, .alone id⟩).2.add fun id =>
      ⟨"a", "second", .placed (.under ⟨0, 0⟩ .right), none, .alone id⟩).2
  root := some (.branch ⟨0, 0⟩)
  unique := false
  linked := 2

theorem inspect_sound_written :
    (writtenWords.nodes.Sound ∧ (WordTree.inspect writtenWords).run = .ok (.ok ())) ∧
      (8 * 1 < 2 ^ 31 ∧ writtenStrings.nodes.Sound ∧
        (ByteTree.inspect writtenStrings 1).run = .ok (.ok ())) ∧
      (∃ entries, writtenWords.Lists entries ∧ ∀ key,
        writtenWords.Answers entries.reverse (fun stored => stored ≤ key)
          (WordTree.findLE? writtenWords key)) ∧
      ∃ entries, writtenStrings.Lists entries ∧ ∀ key,
        writtenStrings.Answers entries (fun stored =>
            ByteString.padded 1 (ByteKey.bytes stored) = ByteString.padded 1 key)
          (ByteTree.find? writtenStrings key 1) := by
  have hwords : writtenWords.nodes.Sound := by
    dsimp only [writtenWords]
    exact ((Arena.sound_empty.add (.inr (by decide)) _).add (.inr (by decide)) _).add
      (.inr (by decide)) _
  have hstrings : writtenStrings.nodes.Sound := by
    dsimp only [writtenStrings]
    exact (Arena.sound_empty.add (.inr (by decide)) _).add (.inr (by decide)) _
  have hpasses : (WordTree.inspect writtenWords).run = .ok (.ok ()) := by decide +kernel
  have hpasses' : (ByteTree.inspect writtenStrings 1).run = .ok (.ok ()) := by decide +kernel
  have hlength : 8 * 1 < 2 ^ 31 := by decide
  have hinspect := inspect_sound (K := String) (V := String)
  obtain ⟨entries, hlists, -, hanswers⟩ := hinspect.1 8 writtenWords hwords hpasses
  obtain ⟨entries', hlists', -, hanswers'⟩ :=
    hinspect.2 1 writtenStrings hlength hstrings hpasses'
  exact ⟨⟨hwords, hpasses⟩, ⟨hlength, hstrings, hpasses'⟩,
    ⟨entries, hlists, fun key => (hanswers key).2.2⟩, entries', hlists', hanswers'⟩

end ElasticTree
