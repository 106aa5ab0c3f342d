import ElasticTree.Proofs.ByteTree.History
import ElasticTree.Proofs.ByteTree.Search
import ElasticTree.Proofs.History.Arrivals
import ElasticTree.Proofs.Tree.Listing
import ElasticTree.Proofs.WordTree.History
import ElasticTree.Proofs.WordTree.Search

/-!
# Searches after any history

What a search answers can be told from the listing of the tree alone, and which
of several equal nodes it answers can be told from the requests alone.  A search
from the front answers the one that was inserted first of those still there, and
one from the back the one that was inserted last.
-/

namespace ElasticTree

namespace WordTree

variable {width : Nat} {V : Type} {unique : Bool} {requests : List (Request (BitVec width) V Unit)}

/-- What is noted of a history of words says in which order equal ones came. -/
private theorem notes (unique : Bool) (requests : List (Request (BitVec width) V Unit)) :
    Ledger.Notes (arrivals requests ((Ledger.empty unique).play (fun word => word) requests).1)
    ((Ledger.empty unique).play (fun word => word) requests).2.linked := by
  apply Ledger.play_notes
  · exact fun hlt => BitVec.lt_asymm hlt
  · intro first second third hsecond hthird
    exact BitVec.not_lt.mpr (BitVec.le_trans (BitVec.not_lt.mp hsecond) (BitVec.not_lt.mp hthird))

/-- After any history and for any key, the search finds the first node with the
key, the search upwards the first node whose key is not smaller, and the search
downwards the last node whose key is not larger; none of them fails to find a node
that there is.  Among equal nodes the first two find the one that was inserted
first and the last one the one that was inserted last. -/
theorem searches_exact (hwidth : width < 2 ^ 31)
    (hfits : (Tree.empty unique).Fits insertion requests) :
    ∃ replies tree entries, (Tree.empty unique).play insertion requests = .ok (replies, tree) ∧
      tree.Lists entries ∧ entries.Pairwise (fun first second => first.key ≤ second.key) ∧ ∀ key,
        (tree.Answers entries (fun stored => stored = key) (find? tree key) ∧
          tree.Leads (fun word => word) (arrivals requests replies) (find? tree key)) ∧
        (tree.Answers entries (fun stored => key ≤ stored) (findGE? tree key) ∧
          tree.Leads (fun word => word) (arrivals requests replies) (findGE? tree key)) ∧
        (tree.Answers entries.reverse (fun stored => stored ≤ key) (findLE? tree key) ∧
          tree.Leads (fun word => word) (arrivals requests replies).reverse
            (findLE? tree key)) := by
  obtain ⟨tree, shape, hplay, hmirrors⟩ := play_mirrors hwidth hfits
  obtain ⟨entries, hids, hlists⟩ := hmirrors.stands.lists
  have hnotes := notes unique requests
  refine ⟨_, tree, entries, hplay, hlists,
    (hlists.sorted (fun word => word) hids hmirrors.obeys).imp BitVec.not_lt.mp, fun key => ?_⟩
  have hfind := find?_eq hmirrors.stands hmirrors.obeys key
  have hfindGE := findGE?_eq hmirrors.stands hmirrors.obeys key
  have hfindLE := findLE?_eq hmirrors.stands hmirrors.obeys key
  refine ⟨⟨?_, hmirrors.leads hnotes (· = key) hfind⟩,
    ⟨?_, hmirrors.leads hnotes (key ≤ ·) hfindGE⟩,
    ⟨?_, hmirrors.leads_reverse hnotes (· ≤ key) hfindLE⟩⟩
  · apply hlists.answers (fun word => word) (· = key) fun _ => Iff.rfl
    rw [hids, hfind]
  · apply hlists.answers (fun word => word) (key ≤ ·) fun _ => Iff.rfl
    rw [hids, hfindGE]
  · apply hlists.answers (fun word => word) (· ≤ key) fun _ => List.mem_reverse
    rw [List.map_reverse, hids, hfindLE]

/-- Three nodes of the word five between one of the word two and one of the word
nine, of which the first owner of the five goes and comes back as the last. -/
private def neighbours : List (Request (BitVec 8) String Unit) :=
  [.alloc 5 "first", .alloc 5 "second", .alloc 5 "third", .alloc 9 "above", .alloc 2 "below",
    .insert ⟨0, 0⟩ (), .insert ⟨3, 0⟩ (), .insert ⟨1, 0⟩ (), .insert ⟨4, 0⟩ (), .insert ⟨2, 0⟩ (),
    .unlink ⟨0, 0⟩, .insert ⟨0, 0⟩ ()]

theorem searches_exact_neighbours :
    8 < 2 ^ 31 ∧ (Tree.empty false).Fits insertion neighbours ∧
      ∃ replies tree entries, (Tree.empty false).play insertion neighbours = .ok (replies, tree) ∧
        arrivals neighbours replies = [⟨3, 0⟩, ⟨1, 0⟩, ⟨4, 0⟩, ⟨2, 0⟩, ⟨0, 0⟩] ∧
        tree.Lists entries ∧ ∀ key,
          (tree.Answers entries (fun stored => key ≤ stored) (findGE? tree key) ∧
            tree.Leads (fun word => word) (arrivals neighbours replies) (findGE? tree key)) ∧
          (tree.Answers entries.reverse (fun stored => stored ≤ key) (findLE? tree key) ∧
            tree.Leads (fun word => word) (arrivals neighbours replies).reverse
              (findLE? tree key)) := by
  have hfits : (Tree.empty false).Fits insertion neighbours := by decide +kernel
  obtain ⟨replies, tree, entries, hplay, hlists, -, hsearches⟩ := searches_exact (by decide) hfits
  have harrivals : arrivals neighbours replies = [⟨3, 0⟩, ⟨1, 0⟩, ⟨4, 0⟩, ⟨2, 0⟩, ⟨0, 0⟩] := by
    obtain ⟨after, shape, hafter, -⟩ := play_mirrors (by decide) hfits
    rw [hplay, Except.ok.injEq, Prod.mk.injEq] at hafter
    rw [hafter.1]
    decide +kernel
  exact ⟨by decide, hfits, replies, tree, entries, hplay, harrivals, hlists,
    fun key => (hsearches key).2⟩

end WordTree

namespace ByteTree

open ByteString

variable {K V : Type} [ByteKey K] {length : Nat} {unique : Bool} {requests : List (Request K V Nat)}

/-- What is noted of a history of strings says in which order equal ones came. -/
private theorem notes (unique : Bool) (requests : List (Request K V Nat)) : Ledger.Notes
    (arrivals requests
      ((Ledger.empty unique).play (fun key => padded length (ByteKey.bytes key)) requests).1)
    ((Ledger.empty unique).play (fun key => padded length (ByteKey.bytes key))
      requests).2.linked := by
  apply Ledger.play_notes
  · exact fun hlt => List.lt_asymm hlt
  · intro first second third hsecond hthird
    exact List.not_lt.mpr (List.le_trans (List.not_lt.mp hsecond) (List.not_lt.mp hthird))

/-- After any history whose insertions all compare over one length, and for any
key, however long it is, the search over this length finds the first node whose
key is the same over it.  Among such nodes this is the one that was inserted
first. -/
theorem search_exact (hlength : 8 * length < 2 ^ 31)
    (hallowed : ∀ request ∈ requests, request.Allowed (· = length))
    (hfits : (Tree.empty unique).Fits insert requests) {replies : List (Reply K V)}
    {tree : ByteTree K V} (hplay : (Tree.empty unique).play insert requests = .ok (replies, tree)) :
    ∃ entries, tree.Lists entries ∧
      entries.Pairwise (fun first second =>
        ¬ padded length (ByteKey.bytes second.key) < padded length (ByteKey.bytes first.key)) ∧
      ∀ key,
        tree.Answers entries
          (fun stored => padded length (ByteKey.bytes stored) = padded length key)
          (find? tree key length) ∧
        tree.Leads (fun stored => padded length (ByteKey.bytes stored)) (arrivals requests replies)
          (find? tree key length) := by
  obtain ⟨after, shape, hafter, hmirrors⟩ | ⟨hover, -⟩ :=
    (Tree.Mirrors.empty unique).outcome (serves hlength) hallowed hfits
  · rw [hplay, Except.ok.injEq, Prod.mk.injEq] at hafter
    obtain ⟨rfl, rfl⟩ := hafter
    obtain ⟨entries, hids, hlists⟩ := hmirrors.stands.lists
    refine ⟨entries, hlists, hlists.sorted _ hids hmirrors.obeys, fun key => ?_⟩
    have hfind := find?_eq hlength hmirrors.stands hmirrors.obeys key
    refine ⟨?_, hmirrors.leads (notes unique requests) (· = padded length key) hfind⟩
    apply hlists.answers (fun stored => padded length (ByteKey.bytes stored))
      (· = padded length key) fun _ => Iff.rfl
    rw [hids, hfind]
  · rw [hplay] at hover
    cases hover

/-- Four strings that are the same over one byte, and one that is smaller.  The
first of the group goes before the last of it comes. -/
private def grouping : List (Request String String Nat) :=
  [.alloc "b" "first", .alloc "ba" "second", .alloc "bb" "third", .alloc "bc" "fourth",
    .alloc "a" "smaller", .insert ⟨0, 0⟩ 1, .insert ⟨1, 0⟩ 1, .insert ⟨2, 0⟩ 1, .insert ⟨4, 0⟩ 1,
    .remove ⟨0, 0⟩, .insert ⟨3, 0⟩ 1]

theorem search_exact_grouping :
    8 * 1 < 2 ^ 31 ∧ (∀ request ∈ grouping, request.Allowed (· = 1)) ∧
      (Tree.empty false).Fits insert grouping ∧
      ∃ replies tree entries, (Tree.empty false).play insert grouping = .ok (replies, tree) ∧
        find? tree "bz".toUTF8 1 = .ok (some ⟨1, 0⟩) ∧ tree.Lists entries ∧ ∀ key,
          tree.Answers entries (fun stored =>
              padded 1 (ByteKey.bytes stored) = padded 1 key) (find? tree key 1) ∧
            tree.Leads (fun stored => padded 1 (ByteKey.bytes stored)) (arrivals grouping replies)
              (find? tree key 1) := by
  have hlength : 8 * 1 < 2 ^ 31 := by decide
  have hallowed : ∀ request ∈ grouping, request.Allowed (· = 1) := by
    simp [grouping, Request.Allowed]
  have hfits : (Tree.empty false).Fits insert grouping := by decide +kernel
  obtain ⟨tree, shape, hplay, -⟩ := play_mirrors hlength hallowed (by decide) hfits
  have hfind : ((Tree.empty false).play insert grouping >>= fun played =>
      find? played.2 "bz".toUTF8 1) = .ok (some ⟨1, 0⟩) := by decide +kernel
  rw [hplay] at hfind
  obtain ⟨entries, hlists, -, hsearches⟩ := search_exact hlength hallowed hfits hplay
  exact ⟨hlength, hallowed, hfits, _, tree, entries, hplay, hfind, hlists, hsearches⟩

end ByteTree

end ElasticTree
