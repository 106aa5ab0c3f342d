import ElasticTree.Proofs.Bits.Encoding
import ElasticTree.Proofs.ByteTree.Search
import ElasticTree.Proofs.History.Asking
import ElasticTree.Proofs.History.Outline
import ElasticTree.Proofs.WordTree.Search

/-!
# Words and their bytes

A tree of words and a tree of the bytes of those words have little in common.
They split at positions that are counted from opposite ends, and equal keys hang
in a ring in one and in a subtree in the other.  Yet no caller can tell them
apart: both reply and answer like a ledger, and the two ledgers are one, written
down with different keys.
-/

namespace ElasticTree

open ByteString

variable {width : Nat} {V : Type} {unique : Bool} {requests : List (Request (BitVec width) V Unit)}

/-- The bytes of words are all compared over their full length. -/
private theorem allowed_ofWord :
    ∀ request ∈ requests.map (Request.recode ofWord fun _ => width / 8),
      request.Allowed (· = width / 8) := by
  apply Request.allowed_of_mem_recode
  exact fun _ => rfl

/-- Slots are opened alike for words and for their bytes. -/
private theorem fits_ofWord (hwidth : 8 ∣ width) (hbound : width < 2 ^ 31)
    (hfits : (Tree.empty unique).Fits WordTree.insertion requests) :
    (Tree.empty unique).Fits ByteTree.insert
      (requests.map (Request.recode ofWord fun _ => width / 8)) := by
  apply (Tree.Mirrors.empty unique).fits (ByteTree.serves (by omega)) allowed_ofWord
  intro before hbefore
  obtain ⟨steps, hsteps, rfl⟩ := List.prefix_map_iff.mp hbefore
  obtain ⟨tree, shape, -, hmirrors⟩ := WordTree.play_mirrors hbound (hfits.of_prefix hsteps)
  rw [Ledger.play_empty_recode (coding_ofWord hwidth), Ledger.recode, Arena.slotCount_project]
  exact hmirrors.slotCount_le

/-- A tree of words and a tree of their bytes, compared over as many bytes as a
word has, cannot be told apart.  They give the same replies to the same requests
and, after any of them, the same answers to the same questions, but for the keys
that a caller gets to see. -/
theorem words_and_encodings_agree (hwidth : 8 ∣ width) (hbound : width < 2 ^ 31)
    (hinserts : requests.countP Request.isInsert < 2 ^ 31)
    (hfits : (Tree.empty unique).Fits WordTree.insertion requests) :
    ∃ replies tree tree',
      (Tree.empty unique).play WordTree.insertion requests = .ok (replies, tree) ∧
      (Tree.empty unique).play ByteTree.insert
          (requests.map (Request.recode ofWord fun _ => width / 8)) =
        .ok (replies.map (Reply.recode ofWord), tree') ∧
      ∀ query : Query (BitVec width), ∃ answer,
        tree.ask (WordTree.find? tree) query = .ok answer ∧
        tree'.ask (fun key => ByteTree.find? tree' key (width / 8)) (query.map ofWord) =
          .ok (answer.recode ofWord) := by
  have hlength : 8 * (width / 8) < 2 ^ 31 := by omega
  have hcoding := coding_ofWord hwidth
  obtain ⟨tree, shape, hplay, hmirrors⟩ := WordTree.play_mirrors hbound hfits
  obtain ⟨tree', shape', hplay', hmirrors'⟩ :=
    ByteTree.play_mirrors hlength allowed_ofWord (by rwa [Request.countP_isInsert_recode])
      (fits_ofWord hwidth hbound hfits)
  -- the ledger of the bytes is that of the words, written down with other keys
  rw [Ledger.play_empty_recode hcoding] at hplay' hmirrors'
  generalize (Ledger.empty unique).play (fun word => word) requests = played at *
  have hfind := WordTree.find?_eq hmirrors.stands hmirrors.obeys
  have hfind' := ByteTree.find?_eq hlength hmirrors'.stands hmirrors'.obeys
  refine ⟨played.1, tree, tree', hplay, hplay', fun query =>
    ⟨played.2.ask (query.map fun word => word),
      hmirrors.ask_eq (Word.settles width) hfind query, ?_⟩⟩
  calc tree'.ask (fun key => ByteTree.find? tree' key (width / 8)) (query.map ofWord)
      = .ok ((played.2.recode ofWord _).ask ((query.map ofWord).map (padded (width / 8)))) :=
        hmirrors'.ask_eq (ByteString.settles (width / 8)) hfind' _
    _ = .ok ((played.2.ask (query.map fun word => word)).recode ofWord) := by
        rw [← Ledger.ask_recode hcoding, Query.map_map, Query.map_map]

/-- Two nodes of one word and one of a smaller word whose low byte is larger.  The
first of the equal nodes goes and comes back behind the other. -/
private def swapping : List (Request (BitVec 16) String Unit) :=
  [.alloc 0x201 "first", .alloc 0x201 "second", .alloc 0x102 "third", .insert ⟨0, 0⟩ (),
    .insert ⟨1, 0⟩ (), .insert ⟨2, 0⟩ (), .unlink ⟨0, 0⟩, .insert ⟨0, 0⟩ (), .free ⟨1, 0⟩,
    .remove ⟨2, 0⟩]

theorem words_and_encodings_agree_swapping :
    8 ∣ 16 ∧ 16 < 2 ^ 31 ∧ swapping.countP Request.isInsert < 2 ^ 31 ∧
      (Tree.empty false).Fits WordTree.insertion swapping ∧
      ∃ replies tree tree',
        (Tree.empty false).play WordTree.insertion swapping = .ok (replies, tree) ∧
        (Tree.empty false).play ByteTree.insert
            (swapping.map (Request.recode ofWord fun _ => 16 / 8)) =
          .ok (replies.map (Reply.recode ofWord), tree') ∧
        ∀ query : Query (BitVec 16), ∃ answer,
          tree.ask (WordTree.find? tree) query = .ok answer ∧
          tree'.ask (fun key => ByteTree.find? tree' key (16 / 8)) (query.map ofWord) =
            .ok (answer.recode ofWord) := by
  have hwidth : 8 ∣ 16 := by decide
  have hbound : 16 < 2 ^ 31 := by decide
  have hinserts : swapping.countP Request.isInsert < 2 ^ 31 := by decide
  have hfits : (Tree.empty false).Fits WordTree.insertion swapping := by decide +kernel
  exact ⟨hwidth, hbound, hinserts, hfits,
    words_and_encodings_agree hwidth hbound hinserts hfits⟩

end ElasticTree
