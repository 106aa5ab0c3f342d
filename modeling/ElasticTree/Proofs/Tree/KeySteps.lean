import ElasticTree.Proofs.Filtering
import ElasticTree.Proofs.Tree.Heads
import ElasticTree.Proofs.Tree.Stepping

/-!
# Stepping from key to key

From any node of a key the step to another one leads to the first node beyond the
key.  Where nodes are in order, this is the first node of the nearest key.  The
first nodes of all keys are therefore chained by these steps, and the same holds
in both directions.
-/

namespace ElasticTree

open Shape

variable {K V C : Type} [DecidableEq C] {view : K → C}

section Order

variable {before : C → C → Prop} {order firsts front back : List (Entry K V)} {entry : Entry K V}
  (hirrefl : ∀ key, ¬ before key key)
  (hsorted : order.Pairwise fun first second => ¬ before (view second.key) (view first.key))

include hirrefl hsorted in
/-- The first entry of a later key is the first one of the nearest. -/
theorem nearest_of_find? [DecidableRel before] {key : C}
    (h : (order.find? fun other => before key (view other.key)) = some entry) :
    entry ∈ order ∧ before key (view entry.key) ∧
      (∀ other ∈ order, before key (view other.key) → ¬ before (view other.key) (view entry.key)) ∧
      FirstOfKey view order entry := by
  have hbefore : before key (view entry.key) :=
    of_decide_eq_true
      (List.find?_some (p := fun other : Entry K V => decide (before key (view other.key))) h)
  refine ⟨List.mem_of_find?_eq_some h, hbefore, fun other hother hlater => ?_, ?_⟩
  · exact rel_of_find? hsorted (fun _ => hirrefl _) h hother (decide_eq_true hlater)
  · refine find?_narrow h (decide_eq_true rfl) fun other _ hsame => ?_
    rw [of_decide_eq_true hsame]
    exact decide_eq_true hbefore

include hirrefl hsorted in
theorem firstOfNextKey_find? [DecidableRel before] (key : C) : FirstOfNextKey before view order key
    ((order.find? fun other => before key (view other.key)).map Entry.id) where
  none_iff := by simp
  some_eq id hid := by
    obtain ⟨found, hfind, rfl⟩ := Option.map_eq_some_iff.mp hid
    obtain ⟨hmem, hnearest⟩ := nearest_of_find? hirrefl hsorted hfind
    exact ⟨found, hmem, rfl, hnearest⟩

/-- Every key has a first entry. -/
theorem exists_firstOfEveryKey (hnodup : order.Nodup) (hordered : order.Pairwise fun first second =>
      before (view first.key) (view second.key) ∨ view first.key = view second.key) :
    ∃ firsts, FirstOfEveryKey before view order firsts ∧ firsts.Sublist order := by
  classical
  refine ⟨order.filter fun entry => FirstOfKey view order entry, ⟨?_, by simp⟩, List.filter_sublist⟩
  refine ((hordered.and hnodup).sublist List.filter_sublist).imp_of_mem ?_
  rintro first second hfirst hsecond ⟨hbefore | hsame, hne⟩
  · exact hbefore
  · -- a key has only one first entry
    have hfirst : FirstOfKey view order first := by simpa using (List.mem_filter.mp hfirst).2
    have hsecond : FirstOfKey view order second := by simpa using (List.mem_filter.mp hsecond).2
    rw [FirstOfKey, hsame] at hfirst
    exact absurd (Option.some.inj (hfirst.symm.trans hsecond)) hne

include hirrefl hsorted in
/-- Beyond the first entry of a key comes the first entry of the next. -/
theorem FirstOfEveryKey.find?_eq [DecidableRel before]
    (h : FirstOfEveryKey before view order firsts)
    (hsublist : firsts.Sublist order) (hfirsts : firsts = front ++ entry :: back) :
    (order.find? fun other => before (view entry.key) (view other.key)) = back.head? := by
  have hordered := h.ordered
  have hback := hsorted.sublist hsublist
  rw [hfirsts, List.pairwise_append, List.pairwise_cons] at hordered hback
  cases hfind : order.find? fun other => before (view entry.key) (view other.key) with
  | none =>
      rcases back with _ | ⟨next, back⟩
      · rfl
      · have hnext : next ∈ order := hsublist.subset (by simp [hfirsts])
        exact absurd (decide_eq_true (hordered.2.1.1 next List.mem_cons_self))
          (List.find?_eq_none.mp hfind next hnext)
  | some next =>
      obtain ⟨hnext, hbefore, hnearest, hleads⟩ := nearest_of_find? hirrefl hsorted hfind
      have hmem : next ∈ front ++ entry :: back := hfirsts ▸ (h.mem_iff next).mpr ⟨hnext, hleads⟩
      rcases List.mem_append.mp hmem with hfront | hmem
      · exact absurd hbefore (hback.2.2 next hfront entry List.mem_cons_self)
      · rcases List.mem_cons.mp hmem with rfl | hmem
        · exact absurd hbefore (hirrefl _)
        · rcases back with _ | ⟨first, back⟩
          · cases hmem
          · rcases List.mem_cons.mp hmem with rfl | hlater
            · rfl
            · -- the first one behind is nearer than any other
              have hfirst : first ∈ order := hsublist.subset (by simp [hfirsts])
              exact absurd (List.rel_of_pairwise_cons hordered.2.1.2 hlater)
                (hnearest first hfirst (hordered.2.1.1 first List.mem_cons_self))

/-- The first entry of all is the first of its key. -/
theorem FirstOfEveryKey.head?_eq (h : FirstOfEveryKey before view order firsts)
    (hsublist : firsts.Sublist order) (hnodup : order.Nodup) : firsts.head? = order.head? := by
  rcases order with _ | ⟨first, order⟩
  · rw [List.sublist_nil.mp hsublist]
  · have hmem : first ∈ firsts := (h.mem_iff first).mpr ⟨List.mem_cons_self, by simp [FirstOfKey]⟩
    cases hsublist with
    | cons _ hsublist => exact absurd (hsublist.subset hmem) (List.nodup_cons.mp hnodup).1
    | cons_cons _ _ => rfl

/-- The first entries have the names that come first of their key. -/
theorem FirstOfEveryKey.map_id_eq {rank : NodeId → C} (h : FirstOfEveryKey before view order firsts)
    (hsublist : firsts.Sublist order) (hnodup : (order.map Entry.id).Nodup)
    (hrank : ∀ entry ∈ order, rank entry.id = view entry.key) :
    firsts.map Entry.id = ElasticTree.firsts rank (order.map Entry.id) := by
  classical
  have hfilter : firsts = order.filter fun entry => FirstOfKey view order entry := by
    have hparts := hsublist.filter fun entry => decide (FirstOfKey view order entry)
    rw [List.filter_eq_self.mpr fun entry hentry => decide_eq_true ((h.mem_iff entry).mp hentry).2]
      at hparts
    refine hparts.eq_of_length (List.Perm.length_eq ?_)
    refine (List.perm_ext_iff_of_nodup (hnodup.of_map.sublist hsublist)
      (hnodup.of_map.filter _)).mpr ?_
    simp [h.mem_iff]
  rw [hfilter, ElasticTree.firsts, List.filter_map]
  congr 1
  apply List.filter_congr
  intro entry hentry
  have hsame : (order.find? fun other => rank other.id = rank entry.id) =
      order.find? fun other => view other.key = view entry.key :=
    List.find?_congr fun other hother => by rw [hrank other hother, hrank entry hentry]
  rw [Function.comp_apply, List.find?_map, decide_eq_decide, FirstOfKey, ← hsame]
  constructor
  · intro hfirst
    exact congrArg (Option.map Entry.id) hfirst
  · intro hfirst
    obtain ⟨found, hfound, hid⟩ := Option.map_eq_some_iff.mp hfirst
    obtain rfl := List.inj_on_of_nodup_map hnodup (List.mem_of_find?_eq_some hfound) hentry hid
    exact hfound

end Order

namespace Tree

namespace Stands

variable {tree : Tree K V} {shape : Option Shape} {entries : List (Entry K V)}
  (h : tree.Stands shape)
include h

omit [DecidableEq C] in
/-- Going through the groups gives the entries that the steps visit. -/
theorem groupHeads_of_strides {heads : List (Entry K V)} (hsublist : heads.Sublist entries)
    (hlists : tree.Lists entries) (hids : entries.map Entry.id = shape.elim [] Shape.members)
    (hfirst : tree.first = .ok (heads.head?.map Entry.id))
    (hstrides : Strides tree.nextGroup (heads.head?.map Entry.id) (heads.map Entry.id)) :
    tree.groupHeads = .ok heads := by
  have hwithin : ∀ {rest : List (Entry K V)} {start : Option NodeId} {limit : Nat},
      Strides tree.nextGroup start (rest.map Entry.id) → rest ⊆ entries → rest.length ≤ limit →
        tree.groupHeadsWithin limit start = .ok rest := by
    intro rest
    induction rest with
    | nil =>
        rintro start limit ⟨⟩ - -
        cases limit <;> rfl
    | cons entry rest ih =>
        rintro start limit hstrides hsubset hlimit
        obtain ⟨limit, rfl⟩ : ∃ fewer, limit = fewer + 1 := ⟨limit - 1, by simp at hlimit; omega⟩
        cases hstrides with
        | step hstep hrest =>
            rw [groupHeadsWithin, (h.stepFrom_eq_ok_iff.mp hstep).2, Fault.ok_bind,
              hlists.entry_eq (hsubset List.mem_cons_self), Fault.ok_bind,
              ih hrest (fun other hother => hsubset (List.mem_cons_of_mem _ hother))
                (by simpa using hlimit)]
            rfl
  have hlength := Arena.length_le_slotCount h.sound h.draws.members_nodup fun id hid => h.live hid
  rw [← hids, List.length_map] at hlength
  rw [groupHeads, hfirst, Fault.ok_bind]
  exact hwithin hstrides hsublist.subset (Nat.le_succ_of_le (hsublist.length_le.trans hlength))

variable [LT C] [Inhabited C] [DecidableLT C] {discipline : Discipline C}
  (hsettles : discipline.Settles)
  (hobeys : ∀ found ∈ shape, found.Obeys discipline (tree.rank view))
  (hlists : tree.Lists entries) (hids : entries.map Entry.id = shape.elim [] Shape.members)
include hsettles hobeys hlists hids

omit [DecidableEq C] in
/-- The step from a key finds the first entry beyond it. -/
theorem stepGroup_find? (direction : Side) {entry : Entry K V} (hentry : entry ∈ entries) :
    tree.stepFrom (tree.stepGroup direction) entry.id = .ok (.ok (((fromEnd direction entries).find?
      fun other => liesBeyond direction (view entry.key) (view other.key)).map Entry.id)) := by
  have hid : entry.id ∈ shape.elim [] Shape.members := hids ▸ List.mem_map_of_mem hentry
  have horder : ∀ other, other ∈ fromEnd direction entries ↔ other ∈ entries := by
    cases direction <;> simp [fromEnd]
  have harranged : (fromEnd direction entries).map Entry.id =
      arranged direction (shape.elim [] Shape.members) := by
    rw [← hids]
    cases direction <;> simp [fromEnd, arranged]
  refine h.stepFrom_eq_ok_iff.mpr ⟨hid, ?_⟩
  refine (hlists.answers view (liesBeyond direction (view entry.key)) horder ?_).first
  rw [h.stepGroup_eq hsettles direction hobeys hid, harranged, hlists.rank_eq view hentry]

omit [DecidableEq C] h hsettles in
private theorem fromEnd_sorted (direction : Side) : (fromEnd direction entries).Pairwise
    fun first second => liesBeyond direction (view second.key) (view first.key) = false := by
  have hsorted := (hlists.sorted view hids hobeys).imp fun hnot => decide_eq_false hnot
  cases direction with
  | right => exact hsorted
  | left => exact List.pairwise_reverse.mpr hsorted

omit [DecidableEq C] h in
private theorem fromEnd_ordered (direction : Side) : (fromEnd direction entries).Pairwise
    fun first second => liesBeyond direction (view first.key) (view second.key) = true ∨
      view first.key = view second.key := by
  have hmembers : (entries.map Entry.id).Pairwise fun first second =>
      tree.rank view first < tree.rank view second ∨
        tree.rank view first = tree.rank view second := by
    rw [hids]
    cases shape with
    | none => exact List.Pairwise.nil
    | some found => exact (hobeys found rfl).ordered hsettles
  have hordered :=
    hlists.pairwise view (R := fun first second => first < second ∨ first = second) hmembers
  cases direction with
  | right => exact hordered.imp fun hrel => hrel.imp_left fun hlt => decide_eq_true hlt
  | left =>
      exact List.pairwise_reverse.mpr
        (hordered.imp fun hrel => hrel.imp (fun hlt => decide_eq_true hlt) Eq.symm)

/-- In either direction, the steps from key to key lead to the nearest one and
visit the first entries of all of them. -/
theorem keySteps (direction : Side) {before : C → C → Prop} [DecidableRel before]
    (hbefore : ∀ key other, liesBeyond direction key other = decide (before key other)) :
    (∀ entry ∈ entries, ∃ answer,
      tree.stepFrom (tree.stepGroup direction) entry.id = .ok (.ok answer) ∧
      FirstOfNextKey before view (fromEnd direction entries) (view entry.key) answer) ∧
    ∃ firsts, tree.outermost direction = .ok (firsts.head?.map Entry.id) ∧
      Strides (tree.stepFrom (tree.stepGroup direction)) (firsts.head?.map Entry.id)
        (firsts.map Entry.id) ∧
      FirstOfEveryKey before view (fromEnd direction entries) firsts ∧
      firsts.Sublist (fromEnd direction entries) := by
  have hsorted := fromEnd_sorted hobeys hlists hids direction
  have hordered := fromEnd_ordered hsettles hobeys hlists hids direction
  have hstep := fun entry (hentry : entry ∈ entries) =>
    h.stepGroup_find? hsettles hobeys hlists hids direction hentry
  have hirrefl : ∀ key, ¬ before key key := by
    intro key
    have hkey : liesBeyond direction key key = false := by
      cases direction <;> exact decide_eq_false (discipline.lt_irrefl key)
    rw [hbefore] at hkey
    exact of_decide_eq_false hkey
  simp only [hbefore, decide_eq_false_iff_not, decide_eq_true_eq] at hsorted hordered hstep
  have hnodup : (fromEnd direction entries).Nodup := by
    have := hlists.nodup.of_map
    cases direction <;> simpa [fromEnd] using this
  obtain ⟨firsts, hfirsts, hsublist⟩ := exists_firstOfEveryKey hnodup hordered
  refine ⟨fun entry hentry => ⟨_, hstep entry hentry, firstOfNextKey_find? hirrefl hsorted _⟩,
    firsts, ?_, ?_, hfirsts, hsublist⟩
  · rw [h.outermost_eq, hfirsts.head?_eq hsublist hnodup, ← hids]
    cases direction <;> simp [metFirst, fromEnd]
  · rw [← List.head?_map]
    refine .of_chain fun front id back heq => ?_
    obtain ⟨front, ahead, hsplit, rfl, hahead⟩ := List.map_eq_append_iff.mp heq
    obtain ⟨entry, back, rfl, rfl, rfl⟩ := List.map_eq_cons_iff.mp hahead
    have hentry : entry ∈ fromEnd direction entries := hsublist.subset (by simp [hsplit])
    rw [hstep entry (by cases direction <;> simpa [fromEnd] using hentry),
      hfirsts.find?_eq hirrefl hsorted hsublist hsplit, List.head?_map]

/-- Going through the groups gives the first node of every key. -/
theorem groupHeads_eq : ∃ heads, tree.groupHeads = .ok heads ∧ heads.Sublist entries ∧
    heads.map Entry.id = firsts (tree.rank view) (shape.elim [] Shape.members) := by
  obtain ⟨-, heads, hfirst, hstrides, hheads, hsublist⟩ :=
    h.keySteps hsettles hobeys hlists hids .right
      (fun _ _ => rfl : ∀ key other : C, liesBeyond .right key other = decide (key < other))
  refine ⟨heads, h.groupHeads_of_strides hsublist hlists hids hfirst hstrides, hsublist, ?_⟩
  rw [← hids]
  exact hheads.map_id_eq hsublist hlists.nodup fun entry hentry => hlists.rank_eq view hentry

/-- A tree in order is gone through key by key. -/
theorem stepsByKey : tree.StepsByKey view entries := by
  obtain ⟨hnext, heads, hfirst, hstrides, hheads, hsublist⟩ :=
    h.keySteps hsettles hobeys hlists hids .right
      (fun _ _ => rfl : ∀ key other : C, liesBeyond .right key other = decide (key < other))
  obtain ⟨hprev, tails, hlast, hstrides', htails, -⟩ :=
    h.keySteps hsettles hobeys hlists hids .left
      (fun _ _ => rfl : ∀ key other : C, liesBeyond .left key other = decide (key > other))
  have hgroups := h.groupHeads_of_strides hsublist hlists hids hfirst hstrides
  exact ⟨hlists, hlists.sorted view hids hobeys, hnext, hprev, ⟨heads, hgroups, hheads⟩,
    tails, hlast, hstrides', htails⟩

end Stands

end Tree

end ElasticTree
