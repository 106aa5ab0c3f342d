import ElasticTree.Proofs.Tree.Recognition

/-!
# When an inspection comes to an end

The first pass looks before it leaps and always ends with a count or a finding.
The second pass climbs from leaves that the first one need not have reached, and
it trusts the positions on its way.  It gets through exactly if each of these
climbs meets the branch it looks for or the root, and so do the climbs of all
nodes that it comes to before its first finding
(`inspectStructure_completes_iff`).

A climb that ends passes no branch twice, for from there on it would go the same
way again.  So it ends within the limit that all walks have.
-/

namespace ElasticTree

namespace Inspection

variable {α β : Type} {condition : Prop} [Decidable condition] {corruption : Corruption}

/-- The check ends well or with a finding, but not with a fault. -/
def Completes (check : Inspection α) : Prop := ∃ verdict, check.run = .ok verdict

theorem pure_completes (found : α) : (pure found : Inspection α).Completes := ⟨.ok found, rfl⟩

theorem expect_completes : (expect condition corruption).Completes := by
  unfold expect
  split
  · exact ⟨.ok (), rfl⟩
  · exact ⟨.error corruption, rfl⟩

theorem reportAny_completes (finding : Option Corruption) : (reportAny finding).Completes := by
  cases finding with
  | none => exact ⟨.ok (), rfl⟩
  | some corruption => exact ⟨.error corruption, rfl⟩

theorem ofSafe_completes (check : Except Corruption α) : (ofSafe check).Completes := ⟨check, rfl⟩

theorem liftM_completes_iff {step : Except Fault α} :
    (liftM step : Inspection α).Completes ↔ ∃ found, step = .ok found := by
  cases step with
  | error fault => exact ⟨fun ⟨_, h⟩ => (nomatch h), fun ⟨_, h⟩ => (nomatch h)⟩
  | ok found => exact ⟨fun _ => ⟨found, rfl⟩, fun _ => ⟨.ok found, rfl⟩⟩

theorem bind_completes_iff {step : Inspection α} {next : α → Inspection β} :
    (step >>= next).Completes ↔
      step.Completes ∧ ∀ found, step = pure found → (next found).Completes := by
  match step with
  | .error fault => exact ⟨fun ⟨_, h⟩ => (nomatch h), fun ⟨⟨_, h⟩, _⟩ => (nomatch h)⟩
  | .ok (.error corruption) =>
      exact ⟨fun _ => ⟨⟨.error corruption, rfl⟩, fun _ h => (nomatch h)⟩,
        fun _ => ⟨.error corruption, rfl⟩⟩
  | .ok (.ok found) =>
      refine ⟨fun h => ⟨⟨.ok found, rfl⟩, fun other hother => ?_⟩, fun h => h.2 found rfl⟩
      obtain rfl : found = other := pure_injective hother
      exact h

/-- A check goes through a list if it completes on every element that it comes
to. -/
theorem foldlM_completes_iff {check : β → α → Inspection β} {elements : List α} {start : β} :
    (elements.foldlM check start).Completes ↔ ∀ before element after reached,
      elements = before ++ element :: after → before.foldlM check start = pure reached →
        (check reached element).Completes := by
  induction elements generalizing start with
  | nil => exact ⟨by simp, fun _ => pure_completes start⟩
  | cons first elements ih =>
      rw [List.foldlM_cons, bind_completes_iff]
      constructor
      · rintro ⟨hfirst, hrest⟩ before element after reached hsplit hbefore
        cases before with
        | nil =>
            obtain ⟨rfl, rfl⟩ := List.cons.inj hsplit
            obtain rfl : start = reached := pure_injective hbefore
            exact hfirst
        | cons other before =>
            obtain ⟨rfl, rfl⟩ := List.cons.inj hsplit
            rw [List.foldlM_cons, bind_eq_pure] at hbefore
            obtain ⟨middle, hmiddle, hbefore⟩ := hbefore
            exact ih.mp (hrest middle hmiddle) before element after reached rfl hbefore
      · intro h
        refine ⟨h [] first elements start rfl rfl, fun middle hmiddle => ih.mpr ?_⟩
        intro before element after reached hsplit hbefore
        refine h (first :: before) element after reached (by rw [hsplit, List.cons_append]) ?_
        rw [List.foldlM_cons, hmiddle, pure_bind, hbefore]

theorem forM_completes {check : α → Inspection Unit} {elements : List α}
    (h : ∀ element ∈ elements, (check element).Completes) : (elements.forM check).Completes := by
  rw [List.forM_eq_forM]
  induction elements with
  | nil => exact pure_completes ()
  | cons element elements ih =>
      obtain ⟨hfirst, hrest⟩ := List.forall_mem_cons.mp h
      exact bind_completes_iff.mpr ⟨hfirst, fun _ _ => ih hrest⟩

end Inspection

open Inspection

namespace Tree

variable {K V : Type} {tree : Tree K V} {id : NodeId} {position : Position} {owners : List NodeId}

/-! ## Climbs -/

/-- Going up from a position, a branch of `id` or the root is come to through the
branches of these nodes, all of which are in use. -/
inductive Climbs (tree : Tree K V) (id : NodeId) : Position → List NodeId → Prop where
  | root : Climbs tree id .root []
  | met {side : Side} {branch : Branch} (branch_eq : tree.branch id = .ok branch) :
      Climbs tree id (.under id side) [id]
  | up {owner : NodeId} {side : Side} {branch : Branch} {owners : List NodeId} (ne : owner ≠ id)
      (branch_eq : tree.branch owner = .ok branch)
      (climbs : Climbs tree id branch.position owners) :
      Climbs tree id (.under owner side) (owner :: owners)

namespace Climbs

/-- There is one way up. -/
theorem unique {owners' : List NodeId} (h : tree.Climbs id position owners)
    (h' : tree.Climbs id position owners') : owners = owners' := by
  induction h generalizing owners' with
  | root =>
      cases h'
      rfl
  | met =>
      cases h' with
      | met => rfl
      | up ne => exact absurd rfl ne
  | up ne branch_eq climbs ih =>
      cases h' with
      | met => exact absurd rfl ne
      | up _ branch_eq' climbs' =>
          obtain rfl := Except.ok.inj (branch_eq.symm.trans branch_eq')
          rw [ih climbs']

/-- It leads through the same branches from both sides of one. -/
theorem other_side {owner : NodeId} {side : Side} (h : tree.Climbs id (.under owner side) owners)
    (side' : Side) : tree.Climbs id (.under owner side') owners := by
  cases h with
  | met branch_eq => exact .met branch_eq
  | up ne branch_eq climbs => exact .up ne branch_eq climbs

/-- The rest of the way from a branch on it. -/
theorem exists_suffix (h : tree.Climbs id position owners) {owner : NodeId}
    (howner : owner ∈ owners) :
    ∃ side rest, tree.Climbs id (.under owner side) rest ∧ rest <:+ owners := by
  induction h with
  | root => cases howner
  | @met side branch branch_eq =>
      obtain rfl := List.mem_singleton.mp howner
      exact ⟨side, _, .met branch_eq, List.suffix_refl _⟩
  | @up first side branch owners ne branch_eq climbs ih =>
      rcases List.mem_cons.mp howner with rfl | howner
      · exact ⟨side, _, .up ne branch_eq climbs, List.suffix_refl _⟩
      · obtain ⟨side, rest, hrest, hsuffix⟩ := ih howner
        exact ⟨side, rest, hrest, hsuffix.trans (List.suffix_cons _ _)⟩

/-- No branch is passed twice. -/
theorem nodup (h : tree.Climbs id position owners) : owners.Nodup := by
  induction h with
  | root => exact List.nodup_nil
  | met => exact List.nodup_singleton id
  | @up owner side branch owners ne branch_eq climbs ih =>
      refine List.nodup_cons.mpr ⟨fun howner => ?_, ih⟩
      -- the way from the second time on would be the whole way, which is longer
      obtain ⟨side', rest, hrest, hsuffix⟩ := climbs.exists_suffix howner
      have hwhole := (hrest.other_side side).unique (.up ne branch_eq climbs)
      have hlength := hsuffix.length_le
      rw [hwhole, List.length_cons] at hlength
      omega

theorem live (h : tree.Climbs id position owners) : ∀ owner ∈ owners, tree.nodes.Live owner := by
  have hbranch : ∀ {owner : NodeId} {branch : Branch}, tree.branch owner = .ok branch →
      tree.nodes.Live owner := by
    intro owner branch hbranch
    obtain ⟨node, hnode, -⟩ := except_bind_eq_ok.mp hbranch
    exact Option.isSome_iff_exists.mpr ⟨node, Arena.fetch_eq_ok_iff.mp hnode⟩
  induction h with
  | root => simp
  | met branch_eq => simpa using hbranch branch_eq
  | up ne branch_eq climbs ih => exact List.forall_mem_cons.mpr ⟨hbranch branch_eq, ih⟩

end Climbs

/-! ## The way up -/

/-- What a climb for `id` does with a branch on its way. -/
private def seeking (id owner : NodeId) (_ : Side) (_ : Branch) : Except Fault (Option Unit) :=
  .ok (if owner = id then some () else none)

private theorem exists_climbs {limit : Nat} {answer : Option Unit}
    (h : tree.firstAboveWithin? (seeking id) limit position = .ok answer) :
    ∃ owners, tree.Climbs id position owners := by
  induction limit generalizing position with
  | zero =>
      cases position with
      | root => exact ⟨[], .root⟩
      | under owner side => cases h
  | succ limit ih =>
      cases position with
      | root => exact ⟨[], .root⟩
      | under owner side =>
          rw [firstAboveWithin?, except_bind_eq_ok] at h
          obtain ⟨branch, hbranch, h⟩ := h
          by_cases howner : owner = id
          · subst howner
            exact ⟨[owner], .met hbranch⟩
          · rw [seeking, if_neg howner] at h
            obtain ⟨owners, howners⟩ := ih h
            exact ⟨owner :: owners, .up howner hbranch howners⟩

private theorem firstAboveWithin?_of_climbs {limit : Nat} (h : tree.Climbs id position owners)
    (hlimit : owners.length ≤ limit) :
    ∃ answer, tree.firstAboveWithin? (seeking id) limit position = .ok answer := by
  induction h generalizing limit with
  | root => exact ⟨none, by unfold firstAboveWithin?; rfl⟩
  | met branch_eq =>
      obtain ⟨limit, rfl⟩ : ∃ fewer, limit = fewer + 1 := ⟨limit - 1, by simp at hlimit; omega⟩
      rw [firstAboveWithin?, branch_eq, Fault.ok_bind, seeking, if_pos rfl]
      exact ⟨some (), rfl⟩
  | up ne branch_eq climbs ih =>
      obtain ⟨limit, rfl⟩ : ∃ fewer, limit = fewer + 1 := ⟨limit - 1, by simp at hlimit; omega⟩
      rw [firstAboveWithin?, branch_eq, Fault.ok_bind, seeking, if_neg ne]
      exact ih (by simpa using hlimit)

/-- The way up can be looked through if it ends. -/
theorem hasAbove_ok_iff (sound : tree.nodes.Sound) :
    (∃ answer, tree.hasAbove id position = .ok answer) ↔
      ∃ owners, tree.Climbs id position owners := by
  constructor
  · rintro ⟨answer, h⟩
    obtain ⟨found, hfound, -⟩ := except_bind_eq_ok.mp h
    exact exists_climbs hfound
  · rintro ⟨owners, h⟩
    have hlength : owners.length ≤ tree.walkLimit :=
      Nat.le_succ_of_le (Arena.length_le_slotCount sound h.nodup h.live)
    obtain ⟨answer, hanswer⟩ := firstAboveWithin?_of_climbs h hlength
    refine ⟨answer.isSome, ?_⟩
    show (tree.firstAboveWithin? (seeking id) tree.walkLimit position >>= _) = _
    rw [hanswer]
    rfl

/-! ## The second pass -/

/-- A node stops the second pass only if it has a branch in use and the way up from
its leaf does not end. -/
private theorem inspectRecorded_completes_iff (sound : tree.nodes.Sound) {node : Node K V}
    {recorded : Tally} : (tree.inspectRecorded recorded (id, node)).Completes ↔
      ∀ position, node.placement = .placed position → node.branch ≠ none →
        ∃ owners, tree.Climbs id position owners := by
  rw [inspectRecorded]
  cases hplacement : node.placement with
  | detached =>
      refine iff_of_true (bind_completes_iff.mpr ⟨expect_completes, fun _ _ => pure_completes _⟩) ?_
      intro position h
      cases h
  | chained =>
      refine iff_of_true (bind_completes_iff.mpr ⟨expect_completes, fun _ _ => pure_completes _⟩) ?_
      intro position h
      cases h
  | placed position =>
      dsimp only
      by_cases hbranch : node.branch = none
      · rw [if_pos hbranch]
        exact iff_of_true (pure_completes _) fun _ _ hused => absurd hbranch hused
      · rw [if_neg hbranch, bind_completes_iff, liftM_completes_iff, hasAbove_ok_iff sound]
        constructor
        · rintro ⟨hclimbs, -⟩ other hother -
          rwa [← Placement.placed.inj hother]
        · intro h
          refine ⟨h position rfl hbranch, fun above _ => ?_⟩
          exact bind_completes_iff.mpr ⟨expect_completes, fun _ _ => pure_completes _⟩

/-- Whatever its arena holds, the inspection of a tree ends with a verdict exactly
if the first pass ends with a finding, or if the way up ends from the leaf of every
node with a branch in use that the second pass comes to before it has a finding. -/
theorem inspectStructure_completes_iff (sound : tree.nodes.Sound) :
    tree.inspectStructure.Completes ↔ ∀ reached, tree.inspectReached = .ok reached →
      ∀ before id node after recorded, tree.nodes.entries = before ++ (id, node) :: after →
        before.foldlM tree.inspectRecorded .zero = pure recorded →
          ∀ position, node.placement = .placed position → node.branch ≠ none →
            ∃ owners, tree.Climbs id position owners := by
  rw [inspectStructure, bind_completes_iff, and_iff_right (ofSafe_completes _)]
  refine forall_congr' fun reached => ?_
  rw [ofSafe_eq_pure]
  refine imp_congr_right fun _ => ?_
  rw [bind_completes_iff, and_iff_left fun _ _ => expect_completes, foldlM_completes_iff]
  constructor
  · intro h before id node after recorded hsplit hbefore
    exact (inspectRecorded_completes_iff sound).mp
      (h before (id, node) after recorded hsplit hbefore)
  · rintro h before ⟨id, node⟩ after recorded hsplit hbefore
    exact (inspectRecorded_completes_iff sound).mpr (h before id node after recorded hsplit hbefore)

/-- A node that is not reached from the root.  Its leaf and its branch record
places that somebody has written over. -/
private def stray (position above : Position) : Tree Nat Unit where
  nodes := ((Arena.empty.add fun _ =>
      ⟨4, (), .placed position, some ⟨.root, .leaf ⟨0, 0⟩, .leaf ⟨1, 0⟩, 1⟩,
        .alone ⟨0, 0⟩⟩).2.add fun id =>
      ⟨5, (), .detached, some ⟨above, .leaf ⟨0, 0⟩, .leaf ⟨1, 0⟩, 1⟩, .alone id⟩).2
  root := none
  unique := false
  linked := 0

private theorem sound_stray (position above : Position) : (stray position above).nodes.Sound := by
  dsimp only [stray]
  exact (Arena.sound_empty.add (.inr (by decide)) _).add (.inr (show 1 < 2 ^ 32 by decide)) _

theorem inspectStructure_completes_iff_stray :
    (stray (.under ⟨1, 0⟩ .left) .root).nodes.Sound ∧
      (stray (.under ⟨1, 0⟩ .left) .root).inspectStructure.run =
        .ok (.error (.branchNotAbove ⟨0, 0⟩)) ∧
      ∃ owners, (stray (.under ⟨1, 0⟩ .left) .root).Climbs ⟨0, 0⟩ (.under ⟨1, 0⟩ .left) owners := by
  have hsound := sound_stray (.under ⟨1, 0⟩ .left) .root
  have hrun : (stray (.under ⟨1, 0⟩ .left) .root).inspectStructure.run =
      .ok (.error (.branchNotAbove ⟨0, 0⟩)) := by decide +kernel
  refine ⟨hsound, hrun, ?_⟩
  exact (inspectStructure_completes_iff hsound).mp ⟨_, hrun⟩ .zero rfl [] ⟨0, 0⟩ _ _ .zero rfl rfl _
    rfl (by simp)

/-- The second pass faults where it climbs from a leaf that the first pass has not
reached, be it to a node that is not live or round in a circle. -/
theorem inspectStructure_faults :
    ¬ (∀ tree : Tree Nat Unit, tree.nodes.Sound → tree.inspectStructure.Completes) ∧
      (stray (.under ⟨7, 0⟩ .left) .root).inspectStructure.run = .error (.deadNode ⟨7, 0⟩) ∧
      (stray (.under ⟨1, 0⟩ .left) (.under ⟨1, 0⟩ .left)).inspectStructure.run =
        .error .endless := by
  have hrun : (stray (.under ⟨7, 0⟩ .left) .root).inspectStructure.run =
      .error (.deadNode ⟨7, 0⟩) := by decide +kernel
  refine ⟨fun h => ?_, hrun, by decide +kernel⟩
  obtain ⟨verdict, hverdict⟩ := h _ (sound_stray (.under ⟨7, 0⟩ .left) .root)
  rw [hrun] at hverdict
  cases hverdict

end Tree

end ElasticTree
