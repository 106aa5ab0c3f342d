import ElasticTree.Proofs.Tree.Passing
import ElasticTree.Proofs.WordTree.Insertion
import ElasticTree.WordTree.Inspection

/-!
# Trees of words under inspection

A tree that stands in the discipline of words has nothing wrong with its keys.
The inspection compares a leaf with the owners of the branches above it, and the
discipline says it of all keys below those branches.  Conversely, a tree that
passes inspection stands, and its shape obeys the discipline of words, however
the tree came about (`stands_of_inspect`).
-/

namespace ElasticTree

open Shape Inspection

namespace WordTree

variable {width : Nat} {V : Type} {tree : WordTree width V} {shape : Option Shape} {id : NodeId}
  {node : Node (BitVec width) V}

/-- A leaf is not misplaced under a branch that the discipline lets it hang
under. -/
private theorem misplacement?_eq {key : BitVec width} {owner : NodeId} {side : Side}
    {branch : Branch} {stored : Node (BitVec width) V}
    (hadmits : 1 ≤ branch.split ∧ branch.split ≤ width)
    (hstored : tree.node owner = .ok stored) (hagrees : Word.AgreeFrom branch.split key stored.key)
    (hside : Word.BelongsOn branch.split side key) :
    tree.misplacement? id key owner side branch = .ok none := by
  obtain ⟨found, hfound, hbelongs⟩ := Word.sideOf_eq hadmits key
  have hsame : found = side := hbelongs.symm.trans hside
  have hdiverge := (Word.diverge_eq_false_iff (by omega)).mpr hagrees
  rw [misplacement?, if_neg (by omega), hstored]
  simp only [Fault.ok_bind, hdiverge, Bool.false_eq_true, if_false, hfound, hsame, ne_eq,
    not_true_eq_false]
  rfl

private theorem inspectKey_eq (h : tree.Stands shape)
    (hobeys : ∀ found ∈ shape, found.Obeys (Word.discipline width) (wordOf tree))
    (hnode : tree.nodes.get? id = some node) : tree.inspectKey (id, node) = pure () := by
  have hkey : wordOf tree id = node.key := Tree.rank_of_get? (fun word => word) hnode
  rw [inspectKey]
  cases h.stance hnode with
  | detached _ hplacement =>
      simp only [hplacement]
  | chained context head behind hshape hmem hplacement =>
      subst hshape
      obtain ⟨first, hfirst, hfirst_key⟩ :=
        h.exists_node_below (fun word => word) (List.mem_cons_self : head ∈ head :: behind)
      have hsame : first.key = node.key := by
        rw [hfirst_key, ← hkey]
        exact ((obeys_plug_iff.mp (hobeys _ rfl)).1.1 id hmem).symm
      simp only [hplacement, h.groupHead_eq hmem, hfirst, liftM_ok, pure_bind, expect_eq _ hsame]
  | placed context behind hshape hplacement =>
      subst hshape
      simp only [hplacement]
      exact h.inspectPlaced_of_obeys (hobeys _ rfl) hnode
        (fun owner side branch stored hadmits hstored hagrees hside =>
          misplacement?_eq hadmits hstored (hkey ▸ hagrees) (hkey ▸ hside))
        fun upper lower hdeepens => decide_eq_true (show lower < upper from hdeepens)

/-- A tree that stands in the discipline of words passes inspection. -/
theorem inspect_eq (h : tree.Stands shape)
    (hobeys : ∀ found ∈ shape, found.Obeys (Word.discipline width) (wordOf tree)) :
    WordTree.inspect tree = pure () := by
  rw [WordTree.inspect, h.inspectStructure_eq, pure_bind,
    forM_eq fun entry hentry => inspectKey_eq h hobeys ((Arena.mem_entries_iff h.sound).mp hentry),
    pure_bind]
  exact h.inspectOrder_of_obeys hobeys fun smaller larger hnot => by
    simpa using BitVec.not_lt.mp hnot

/-! ## What an inspected tree is like -/

/-- A leaf that is not misplaced is where the discipline wants it. -/
private theorem of_misplacement? {key : BitVec width} {owner : NodeId} {side : Side}
    {branch : Branch} (h : tree.misplacement? id key owner side branch = .ok none) :
    (1 ≤ branch.split ∧ branch.split ≤ width) ∧ ∃ stored, tree.node owner = .ok stored ∧
      Word.AgreeFrom branch.split key stored.key ∧ Word.BelongsOn branch.split side key := by
  unfold misplacement? at h
  by_cases hrange : branch.split < 1 ∨ width < branch.split
  · rw [if_pos hrange] at h
    cases h
  · have hadmits : 1 ≤ branch.split ∧ branch.split ≤ width := by omega
    rw [if_neg hrange] at h
    obtain ⟨stored, hstored, h⟩ := except_bind_eq_ok.mp h
    refine ⟨hadmits, stored, hstored, ?_⟩
    obtain ⟨parted, hdiverge, h⟩ := except_bind_eq_ok.mp h
    cases parted with
    | true => cases h
    | false =>
        obtain ⟨found, hfound, hbelongs⟩ := Word.sideOf_eq hadmits key
        rw [if_neg Bool.false_ne_true, hfound, Fault.ok_bind] at h
        by_cases hside : found = side
        · exact ⟨(Word.diverge_eq_false_iff (by omega)).mp hdiverge, hside ▸ hbelongs⟩
        · rw [if_pos hside] at h
          cases h

private theorem of_inspectKey_chained (h : tree.inspectKey (id, node) = pure ())
    (hplacement : node.placement = .chained) {head : NodeId}
    (hhead : tree.groupHead id = .ok head) :
    ∃ first, tree.node head = .ok first ∧ first.key = node.key := by
  unfold inspectKey at h
  simp only [hplacement, hhead, liftM_ok, pure_bind] at h
  obtain ⟨first, hfirst, hcheck⟩ := bind_eq_pure.mp h
  exact ⟨first, liftM_eq_pure.mp hfirst, expect_eq_pure.mp hcheck⟩

/-- A tree of words that passes inspection stands in the discipline of words. -/
theorem stands_of_inspect (hsound : tree.nodes.Sound) (h : WordTree.inspect tree = pure ()) :
    ∃ shape, tree.Stands shape ∧
      ∀ found ∈ shape, found.Obeys (Word.discipline width) (wordOf tree) := by
  unfold WordTree.inspect at h
  obtain ⟨_, hstructure, h⟩ := bind_eq_pure.mp h
  obtain ⟨_, hkeys, -⟩ := bind_eq_pure.mp h
  obtain ⟨shape, hforms⟩ := Tree.formsWith_of_inspectStructure hsound hstructure
  have hstands := hforms.stands hsound
  have hkey : ∀ {id node}, tree.nodes.get? id = some node → tree.inspectKey (id, node) = pure () :=
    fun hnode => forM_eq_pure hkeys _ ((Arena.mem_entries_iff hsound).mpr hnode)
  refine ⟨shape, hstands, ?_⟩
  rintro found rfl
  refine Tree.Stands.obeys_of_checks (fun above below => below < above)
    (fun id node => tree.misplacement? id node.key) hstands ?_ ?_ ?_ ?_
  · intro id node head hnode hplacement hhead
    exact ⟨trivial, of_inspectKey_chained (hkey hnode) hplacement hhead⟩
  · intro id node position hnode hplacement
    have hcheck := hkey hnode
    simp only [inspectKey, hplacement] at hcheck
    exact hcheck
  · intro id node owner side branch hvisit
    exact of_misplacement? hvisit
  · intro upper lower hdeeper
    exact (of_decide_eq_true hdeeper : lower < upper)

end WordTree

end ElasticTree
