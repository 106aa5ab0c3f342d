import ElasticTree.Proofs.ByteTree.Landing
import ElasticTree.Proofs.Tree.Passing

/-!
# Trees of byte strings under inspection

A tree that stands in the discipline of some length has nothing wrong with its
keys when it is inspected over that length.  No node is chained in it, and what
a leaf has in common with the owners of the branches above it is what the
discipline says of all keys below those branches.  Conversely, a tree that passes
inspection over a length stands, and its shape obeys the discipline of that
length (`stands_of_inspect`).
-/

namespace ElasticTree

open Shape Inspection ByteString

namespace ByteTree

variable {K V : Type} [ByteKey K] {tree : ByteTree K V} {length : Nat} {shape : Option Shape}
  {id : NodeId} {node : Node K V} {key stored : ByteArray}

/-- A leaf may hang where the discipline wants its key. -/
private theorem belongs_eq {side : Side} {branch : Branch} (hadmits : branch.split < 8 * length)
    (hagrees : AgreeTo branch.split (padded length key) (padded length stored))
    (hside : BelongsOn branch.split side (padded length key)) :
    belongs key stored (8 * length) side branch = true := by
  have hcommon : ∀ shared ≤ 8 * length, AgreeTo shared (padded length key) (padded length stored) →
      commonBits key stored 0 shared = shared := fun shared hle hagree =>
    commonBits_eq (by simp) ⟨Nat.le_refl _, bitAt_eq_of_agreeTo hle hagree,
      fun hlt => absurd hlt (Nat.lt_irrefl _)⟩
  unfold belongs Branch.isGroup
  by_cases hgroup : branch.split < 0
  · rw [agreeTo_iff_of_neg hgroup] at hagrees
    have hsame := (discipline length).agrees_refl ((8 * length : Nat) : Int) (padded length stored)
    rw [if_pos (decide_eq_true hgroup)]
    exact decide_eq_true (hcommon _ (Nat.le_refl _) (hagrees ▸ hsame))
  · obtain ⟨split, hsplit⟩ := Int.eq_ofNat_of_zero_le (Int.not_lt.mp hgroup)
    rw [hsplit] at hadmits hagrees hside
    have hlt : split < 8 * length := by omega
    have hbelongs := hside (Int.natCast_nonneg split)
    rw [Int.toNat_natCast, bit_padded key hlt] at hbelongs
    simp [hsplit, hlt, hcommon split hlt.le hagrees, hbelongs]

/-- A leaf is not misplaced under a branch that the discipline lets it hang
under. -/
private theorem misplacement?_eq {owner : NodeId} {side : Side} {branch : Branch} {found : Node K V}
    (hadmits : branch.split < 8 * length) (hfound : tree.node owner = .ok found)
    (hagrees : AgreeTo branch.split (padded length key) (padded length (ByteKey.bytes found.key)))
    (hside : BelongsOn branch.split side (padded length key)) :
    tree.misplacement? (8 * length) id key owner side branch = .ok none := by
  rw [misplacement?, keyOf, hfound]
  simp only [Fault.ok_bind, pure, Except.pure, belongs_eq hadmits hagrees hside, if_true]

private theorem inspectKey_eq (h : tree.Stands shape)
    (hobeys : ∀ found ∈ shape, found.Obeys (discipline length) (bytesOf length tree))
    (hnode : tree.nodes.get? id = some node) :
    tree.inspectKey (8 * length) (id, node) = pure () := by
  have hkey : bytesOf length tree id = padded length (ByteKey.bytes node.key) :=
    Tree.rank_of_get? (fun key => padded length (ByteKey.bytes key)) hnode
  rw [inspectKey]
  cases h.stance hnode with
  | detached _ hplacement =>
      simp only [hplacement]
  | chained context head behind hshape hmem =>
      subst hshape
      have hempty := (obeys_plug_iff.mp (hobeys _ rfl)).1.2.resolve_right not_false
      simp [hempty] at hmem
  | placed context behind hshape hplacement =>
      subst hshape
      simp only [hplacement]
      exact h.inspectPlaced_of_obeys (hobeys _ rfl) hnode
        (fun owner side branch found hadmits hfound hagrees hside =>
          misplacement?_eq hadmits hfound (hkey ▸ hagrees) (hkey ▸ hside))
        fun _ _ hdeepens => hdeepens

/-- Keys that are not in the wrong order compare as smaller or equal. -/
private theorem compareBits_isLE (hnot : ¬ padded length stored < padded length key) :
    (compareBits key stored 0 (8 * length)).isLE = true := by
  obtain ⟨place, hparts⟩ : ∃ place, PartsAt key stored (8 * length) place :=
    ⟨_, partsAt_commonBits (by simp : ∀ i < 0, bitAt key i = bitAt stored i) _⟩
  rw [compareBits_eq (by simp) hparts]
  split
  · rfl
  · rename_i hlt
    cases hbit : bitAt key place with
    | false => cases bitAt stored place <;> rfl
    | true =>
        obtain ⟨hagree, hright, hleft, -⟩ :=
          parted_of_partsAt hparts (Nat.not_le.mp hlt) (Nat.le_refl _)
        have hagree : (discipline length).agrees place (padded length key) (padded length stored) :=
          hagree
        rw [hbit] at hright hleft
        exact absurd (lt_of_parted (Int.natCast_nonneg place)
          ((discipline length).agrees_symm hagree) hleft hright) hnot

/-- A tree that stands in the discipline of a length passes inspection over that
length. -/
theorem inspect_eq (hlength : 8 * length < 2 ^ 31) (h : tree.Stands shape)
    (hobeys : ∀ found ∈ shape, found.Obeys (discipline length) (bytesOf length tree)) :
    ByteTree.inspect tree length = pure () := by
  rw [ByteTree.inspect, bitLengthWrapped_eq hlength, h.inspectStructure_eq, pure_bind,
    forM_eq fun entry hentry => inspectKey_eq h hobeys ((Arena.mem_entries_iff h.sound).mp hentry),
    pure_bind]
  exact h.inspectOrder_of_obeys hobeys fun _ _ hnot => compareBits_isLE hnot

/-! ## What an inspected tree is like -/

/-- A leaf belongs where the discipline wants its key. -/
private theorem of_belongs {side : Side} {branch : Branch}
    (h : belongs key stored (8 * length) side branch = true) :
    branch.split < 8 * length ∧ AgreeTo branch.split (padded length key) (padded length stored) ∧
      BelongsOn branch.split side (padded length key) := by
  have hagree : ∀ shared ≤ 8 * length, commonBits key stored 0 shared = shared →
      ∀ i < shared, bit (padded length key) i = bit (padded length stored) i := by
    intro shared hle hcommon i hi
    have hparts := partsAt_commonBits (by simp : ∀ i < 0, bitAt key i = bitAt stored i) shared
    rw [bit_padded key (by omega), bit_padded stored (by omega)]
    exact hparts.agrees i (by omega)
  unfold belongs Branch.isGroup at h
  by_cases hgroup : branch.split < 0
  · rw [if_pos (decide_eq_true hgroup), decide_eq_true_eq] at h
    refine ⟨by omega, (agreeTo_iff_of_neg hgroup).mpr (padded_eq_of_bits fun i hi => ?_),
      fun hnonneg => absurd hgroup (Int.not_lt.mpr hnonneg)⟩
    rw [← bit_padded key hi, ← bit_padded stored hi]
    exact hagree _ (Nat.le_refl _) h i hi
  · obtain ⟨split, hsplit⟩ := Int.eq_ofNat_of_zero_le (Int.not_lt.mp hgroup)
    rw [if_neg (by simpa using hgroup)] at h
    simp only [hsplit, Int.toNat_natCast, Bool.and_eq_true, decide_eq_true_eq] at h
    obtain ⟨⟨hlt, hcommon⟩, hside⟩ := h
    rw [hsplit]
    refine ⟨by omega, (agreeTo_iff_of_nonneg (Int.natCast_nonneg _)).mpr fun i hi => ?_,
      fun _ => ?_⟩
    · exact hagree split (by omega) hcommon i (by omega)
    · rwa [Int.toNat_natCast, bit_padded key hlt]

private theorem of_misplacement? {owner : NodeId} {side : Side} {branch : Branch}
    (h : tree.misplacement? (8 * length) id key owner side branch = .ok none) :
    branch.split < 8 * length ∧ ∃ found, tree.node owner = .ok found ∧
      AgreeTo branch.split (padded length key) (padded length (ByteKey.bytes found.key)) ∧
        BelongsOn branch.split side (padded length key) := by
  unfold misplacement? keyOf at h
  obtain ⟨stored, hstored, h⟩ := except_bind_eq_ok.mp h
  obtain ⟨found, hfound, hbytes⟩ := except_bind_eq_ok.mp hstored
  obtain rfl : ByteKey.bytes found.key = stored := Except.ok.inj hbytes
  cases hbelongs : belongs key (ByteKey.bytes found.key) (8 * length) side branch with
  | false =>
      rw [hbelongs, if_neg Bool.false_ne_true] at h
      cases h
  | true =>
      obtain ⟨hadmits, hagree, hside⟩ := of_belongs hbelongs
      exact ⟨hadmits, found, hfound, hagree, hside⟩

/-- A tree of byte strings that passes inspection over a length stands in the
discipline of that length. -/
theorem stands_of_inspect (hlength : 8 * length < 2 ^ 31) (hsound : tree.nodes.Sound)
    (h : ByteTree.inspect tree length = pure ()) : ∃ shape, tree.Stands shape ∧
      ∀ found ∈ shape, found.Obeys (discipline length) (bytesOf length tree) := by
  unfold ByteTree.inspect at h
  rw [bitLengthWrapped_eq hlength] at h
  obtain ⟨_, hstructure, h⟩ := bind_eq_pure.mp h
  obtain ⟨_, hkeys, -⟩ := bind_eq_pure.mp h
  obtain ⟨shape, hforms⟩ := Tree.formsWith_of_inspectStructure hsound hstructure
  have hstands := hforms.stands hsound
  have hkey : ∀ {id node}, tree.nodes.get? id = some node →
      tree.inspectKey (8 * length) (id, node) = pure () :=
    fun hnode => forM_eq_pure hkeys _ ((Arena.mem_entries_iff hsound).mpr hnode)
  refine ⟨shape, hstands, ?_⟩
  rintro found rfl
  refine Tree.Stands.obeys_of_checks deepens
    (fun id node => tree.misplacement? (8 * length) id (ByteKey.bytes node.key)) hstands ?_ ?_ ?_ ?_
  · intro id node head hnode hplacement _
    have hcheck := hkey hnode
    simp only [inspectKey, hplacement] at hcheck
    cases hcheck
  · intro id node position hnode hplacement
    have hcheck := hkey hnode
    simp only [inspectKey, hplacement] at hcheck
    exact hcheck
  · intro id node owner side branch hvisit
    exact of_misplacement? hvisit
  · intro upper lower hdeeper
    exact hdeeper

end ByteTree

end ElasticTree
