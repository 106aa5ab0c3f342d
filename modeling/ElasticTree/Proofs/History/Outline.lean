import ElasticTree.Proofs.ByteTree.History
import ElasticTree.Proofs.Tree.Outline
import ElasticTree.Proofs.WordTree.History

/-!
# Outlines do not tell histories

Whatever has been linked and unlinked, and in whatever order, the outline of a
tree depends on nothing but the keys that are linked in the end.  History shows
only in who owns a branch, in the order of a ring, and inside groups.
-/

namespace ElasticTree

theorem Word.settles (width : Nat) : (Word.discipline width).Settles where
  eq_of_agrees hsplit hagrees := BitVec.eq_of_getLsbD_eq fun i _ => hagrees i (by omega)
  deepens_total {first second} _ _ hne := by
    rcases Int.lt_trichotomy second first with hlt | heq | hlt
    · exact .inl hlt
    · exact absurd heq.symm hne
    · exact .inr hlt

theorem ByteString.settles (length : Nat) : (ByteString.discipline length).Settles where
  eq_of_agrees hsplit hagrees := (agreeTo_iff_of_neg hsplit).mp hagrees
  deepens_total {first second} hfirst hsecond hne := by
    rcases Int.lt_trichotomy first second with hlt | heq | hlt
    · exact .inl (deepens_iff.mpr (.inr ⟨hfirst, hlt⟩))
    · exact absurd heq hne
    · exact .inr (deepens_iff.mpr (.inr ⟨hsecond, hlt⟩))

/-- Without groups the figures of a tree can be read off its outline. -/
private theorem figures_outline {C : Type} (rank : NodeId → C) {shape : Option Shape}
    (h : ∀ found ∈ shape, ∀ split ∈ found.splits, 0 ≤ split) :
    (shape.elim [] Shape.leaves).length = (shape.map (Shape.outline rank)).elim 0 Outline.leaves ∧
      (shape.elim [] Shape.owners).length =
        (shape.map (Shape.outline rank)).elim 0 Outline.branches ∧
        shape.elim 0 Shape.height = (shape.map (Shape.outline rank)).elim 0 Outline.height := by
  cases shape with
  | none => exact ⟨rfl, rfl, rfl⟩
  | some found =>
      have hsplits := h found rfl
      exact ⟨(Shape.leaves_outline hsplits).symm, (Shape.branches_outline hsplits).symm,
        (Shape.height_outline hsplits).symm⟩

/-- Trees of words whose outlines are the same have the same figures. -/
private theorem figures_eq {width : Nat} {rank rank' : NodeId → BitVec width}
    {shape shape' : Option Shape} (h : ∀ found ∈ shape, found.Obeys (Word.discipline width) rank)
    (h' : ∀ found ∈ shape', found.Obeys (Word.discipline width) rank')
    (heq : shape.map (Shape.outline rank) = shape'.map (Shape.outline rank')) :
    (shape.elim [] Shape.leaves).length = (shape'.elim [] Shape.leaves).length ∧
      (shape.elim [] Shape.owners).length = (shape'.elim [] Shape.owners).length ∧
        shape.elim 0 Shape.height = shape'.elim 0 Shape.height := by
  have hplain : ∀ {rank : NodeId → BitVec width} {found : Shape},
      found.Obeys (Word.discipline width) rank → ∀ split ∈ found.splits, 0 ≤ split := by
    intro rank found hobeys split hsplit
    have hadmits : 1 ≤ split ∧ split ≤ width := hobeys.admits split hsplit
    omega
  obtain ⟨hleaves, hbranches, hheight⟩ := figures_outline rank fun found hfound =>
    hplain (h found hfound)
  obtain ⟨hleaves', hbranches', hheight'⟩ := figures_outline rank' fun found hfound =>
    hplain (h' found hfound)
  rw [hleaves, hbranches, hheight, heq]
  exact ⟨hleaves'.symm, hbranches'.symm, hheight'.symm⟩

/-- Two histories after which the same keys are linked leave trees of the same
outline, and if the keys are words, also of the same figures. -/
theorem outline_independent_of_history {K V : Type} [ByteKey K] (unique unique' : Bool) :
    (∀ (width : Nat) (requests requests' : List (Request (BitVec width) V Unit)),
      width < 2 ^ 31 → (Tree.empty unique).Fits WordTree.insertion requests →
      (Tree.empty unique').Fits WordTree.insertion requests' →
        ∃ tree tree', (Tree.empty unique).run WordTree.insertion requests = .ok tree ∧
          (Tree.empty unique').run WordTree.insertion requests' = .ok tree' ∧
          ((∀ key, key ∈ tree.linkedKeys (fun word => word) ↔
              key ∈ tree'.linkedKeys (fun word => word)) →
            ∃ outline figures figures',
              tree.outline (fun word => word) = .ok outline ∧
              tree'.outline (fun word => word) = .ok outline ∧
              tree.statistics = .ok figures ∧ tree'.statistics = .ok figures' ∧
              figures.leaves = figures'.leaves ∧ figures.branches = figures'.branches ∧
                figures.maxHeight = figures'.maxHeight)) ∧
    ∀ (length : Nat) (requests requests' : List (Request K V Nat)), 8 * length < 2 ^ 31 →
      (∀ request ∈ requests, request.Allowed (· = length)) →
      (∀ request ∈ requests', request.Allowed (· = length)) →
      (Tree.empty unique).Fits ByteTree.insert requests →
      (Tree.empty unique').Fits ByteTree.insert requests' →
        ∀ tree tree', (Tree.empty unique).run ByteTree.insert requests = .ok tree →
          (Tree.empty unique').run ByteTree.insert requests' = .ok tree' →
          (∀ key, key ∈ tree.linkedKeys (fun key => ByteString.padded length (ByteKey.bytes key)) ↔
            key ∈ tree'.linkedKeys (fun key => ByteString.padded length (ByteKey.bytes key))) →
            ∃ outline,
              tree.outline (fun key => ByteString.padded length (ByteKey.bytes key)) = .ok outline ∧
              tree'.outline (fun key => ByteString.padded length (ByteKey.bytes key)) =
                .ok outline := by
  refine ⟨fun width requests requests' hwidth hfits hfits' => ?_,
    fun length requests requests' hlength hallowed hallowed' hfits hfits' tree tree' hrun hrun'
      hkeys => ?_⟩
  · obtain ⟨tree, shape, hplay, hmirrors⟩ := WordTree.play_mirrors hwidth hfits
    obtain ⟨tree', shape', hplay', hmirrors'⟩ := WordTree.play_mirrors hwidth hfits'
    refine ⟨tree, tree', ?_, ?_, fun hkeys => ?_⟩
    · rw [Tree.run_eq_play, hplay]
      rfl
    · rw [Tree.run_eq_play, hplay']
      rfl
    · have heq := hmirrors.stands.outline_eq_of_linkedKeys (Word.settles width) hmirrors'.stands
        hmirrors.obeys hmirrors'.obeys hkeys
      exact ⟨_, _, _, hmirrors.stands.outline_eq, heq ▸ hmirrors'.stands.outline_eq,
        hmirrors.stands.statistics_eq, hmirrors'.stands.statistics_eq,
        figures_eq hmirrors.obeys hmirrors'.obeys heq⟩
  · obtain ⟨shape, hmirrors⟩ :=
      (Tree.Mirrors.empty unique).of_run (ByteTree.serves hlength) hallowed hfits hrun
    obtain ⟨shape', hmirrors'⟩ :=
      (Tree.Mirrors.empty unique').of_run (ByteTree.serves hlength) hallowed' hfits' hrun'
    have heq := hmirrors.stands.outline_eq_of_linkedKeys (ByteString.settles length)
      hmirrors'.stands hmirrors.obeys hmirrors'.obeys hkeys
    exact ⟨_, hmirrors.stands.outline_eq, heq ▸ hmirrors'.stands.outline_eq⟩

/-- The words five and three, five again and seven, as they come. -/
private def ascending : List (Request (BitVec 8) String Unit) :=
  [.alloc 5 "first", .alloc 3 "second", .alloc 5 "third", .alloc 7 "fourth", .insert ⟨0, 0⟩ (),
    .insert ⟨1, 0⟩ (), .insert ⟨2, 0⟩ (), .insert ⟨3, 0⟩ ()]

/-- The same words the other way round, with a four in between that goes again. -/
private def detour : List (Request (BitVec 8) String Unit) :=
  [.alloc 7 "first", .alloc 4 "second", .alloc 3 "third", .alloc 5 "fourth", .insert ⟨1, 0⟩ (),
    .insert ⟨0, 0⟩ (), .insert ⟨3, 0⟩ (), .insert ⟨2, 0⟩ (), .remove ⟨1, 0⟩]

/-- Strings that are the same over one byte, and one that is not. -/
private def doubled : List (Request String String Nat) :=
  [.alloc "ab" "first", .alloc "ac" "second", .alloc "b" "third", .insert ⟨0, 0⟩ 1,
    .insert ⟨1, 0⟩ 1, .insert ⟨2, 0⟩ 1]

/-- One string for each key. -/
private def single : List (Request String String Nat) :=
  [.alloc "b" "first", .alloc "a" "second", .insert ⟨0, 0⟩ 1, .insert ⟨1, 0⟩ 1]

theorem outline_independent_of_history_detour :
    (Tree.empty false).Fits WordTree.insertion ascending ∧
      (Tree.empty true).Fits WordTree.insertion detour ∧
      (∀ request ∈ doubled, request.Allowed (· = 1)) ∧
      (∀ request ∈ single, request.Allowed (· = 1)) ∧
      (Tree.empty false).Fits ByteTree.insert doubled ∧
      (Tree.empty true).Fits ByteTree.insert single ∧
      (∃ tree tree' outline, (Tree.empty false).run WordTree.insertion ascending = .ok tree ∧
        (Tree.empty true).run WordTree.insertion detour = .ok tree' ∧
        tree.outline (fun word => word) = .ok outline ∧
        tree'.outline (fun word => word) = .ok outline) ∧
      ∃ tree tree' outline, (Tree.empty false).run ByteTree.insert doubled = .ok tree ∧
        (Tree.empty true).run ByteTree.insert single = .ok tree' ∧
        tree.outline (fun key => ByteString.padded 1 (ByteKey.bytes key)) = .ok outline ∧
        tree'.outline (fun key => ByteString.padded 1 (ByteKey.bytes key)) = .ok outline := by
  have hascending : (Tree.empty false).Fits WordTree.insertion ascending := by decide +kernel
  have hdetour : (Tree.empty true).Fits WordTree.insertion detour := by decide +kernel
  have hdoubled : ∀ request ∈ doubled, request.Allowed (· = 1) := by simp [doubled, Request.Allowed]
  have hsingle : ∀ request ∈ single, request.Allowed (· = 1) := by simp [single, Request.Allowed]
  have hdoubled_fits : (Tree.empty false).Fits ByteTree.insert doubled := by decide +kernel
  have hsingle_fits : (Tree.empty true).Fits ByteTree.insert single := by decide +kernel
  have houtline := outline_independent_of_history (K := String) (V := String) false true
  refine ⟨hascending, hdetour, hdoubled, hsingle, hdoubled_fits, hsingle_fits, ?_, ?_⟩
  · obtain ⟨tree, tree', hrun, hrun', hsame⟩ :=
      houtline.1 8 ascending detour (by decide) hascending hdetour
    have hseen : (Tree.linkedKeys fun word => word) <$>
        (Tree.empty false).run WordTree.insertion ascending = .ok [5, 3, 5, 7] := by decide +kernel
    have hseen' : (Tree.linkedKeys fun word => word) <$>
        (Tree.empty true).run WordTree.insertion detour = .ok [7, 3, 5] := by decide +kernel
    obtain ⟨_, hrun₁, hkeys⟩ := exists_run hseen
    obtain ⟨_, hrun₂, hkeys'⟩ := exists_run hseen'
    obtain rfl := Except.ok.inj (hrun.symm.trans hrun₁)
    obtain rfl := Except.ok.inj (hrun'.symm.trans hrun₂)
    obtain ⟨outline, -, -, houtline, houtline', -⟩ := hsame fun key => by
      rw [hkeys, hkeys']
      simp
      tauto
    exact ⟨tree, tree', outline, hrun, hrun', houtline, houtline'⟩
  · have hseen : (Tree.linkedKeys fun key => ByteString.padded 1 (ByteKey.bytes key)) <$>
        (Tree.empty false).run ByteTree.insert doubled = .ok [[97], [97], [98]] := by decide +kernel
    have hseen' : (Tree.linkedKeys fun key => ByteString.padded 1 (ByteKey.bytes key)) <$>
        (Tree.empty true).run ByteTree.insert single = .ok [[98], [97]] := by decide +kernel
    obtain ⟨tree, hrun, hkeys⟩ := exists_run hseen
    obtain ⟨tree', hrun', hkeys'⟩ := exists_run hseen'
    obtain ⟨outline, houtline, houtline'⟩ :=
      houtline.2 1 doubled single (by decide) hdoubled hsingle
        hdoubled_fits hsingle_fits tree tree' hrun hrun' fun key => by
          rw [hkeys, hkeys']
          simp
          tauto
    exact ⟨tree, tree', outline, hrun, hrun', houtline, houtline'⟩

end ElasticTree
