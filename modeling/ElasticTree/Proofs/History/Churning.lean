import ElasticTree.Proofs.History.Heights

/-!
# Groups that nodes come to and go from

When a node goes, the branches that are left keep their splits, and the group counts on from
there as if the node were still to be counted.  So the depth of a group is bounded by what has
been linked since there was no node of the key (`churned_group_bounded`), and of course by the
number of its branches, but not by the logarithm of the number of its nodes.
-/

namespace ElasticTree

open Shape

namespace ByteTree

open ByteString

variable {K V : Type} [ByteKey K] {length limit levels : Nat} {key : List UInt8}
  {tree : ByteTree K V} {shape : Option Shape} {context : Context} {found : Shape} {id : NodeId}
  {plain group : List Int}
  {top : Link}

/-- What hangs where the way down comes to the group is the group. -/
theorem groupIn_of_wayDown (h : tree.Stands shape)
    (hobeys : ∀ found ∈ shape, found.Obeys (discipline length) (bytesOf length tree))
    (hway : tree.WayDown (fun key => padded length (ByteKey.bytes key)) limit id key plain group top
      levels) :
    ∃ (context : Context) (found : Shape), shape = some (context.plug found) ∧ found.link = top ∧
      groupIn length key tree shape = some found := by
  obtain ⟨context, found, rfl, rfl, -⟩ := h.pathFromRoot_iff.mp hway.path_plain
  have hmem : ∀ other, other ∈ found.members ↔
      other ∈ (context.plug found).members ∧ bytesOf length tree other = key := by
    intro other
    have hfound := (obeys_plug_iff.mp (hobeys _ rfl)).1
    rw [← hfound.mem_leaves_iff not_chains, ← h.exists_path_iff, hway.gathers, h.linkedUnder_iff]
    rfl
  have hperm : (context.plug found).members.Perm
      (found.members ++ (context.before ++ context.after)) := by
    rw [members_plug, ← List.append_assoc]
    exact List.perm_append_comm.append_right _
  have hnodup := h.draws.members_nodup
  rw [Option.elim_some, hperm.nodup_iff, List.nodup_append] at hnodup
  refine ⟨context, found, rfl, rfl, ?_⟩
  refine (restrict_plug fun other hother => decide_eq_false fun hkey => ?_).trans
    (restrict_eq_self fun known hknown => decide_eq_true ((hmem known).mp hknown).2)
  have hbeside := hperm.mem_iff.mpr (List.mem_append_right _ hother)
  exact hnodup.2.2 other ((hmem other).mpr ⟨hbeside, hkey⟩) other hother rfl

/-- The split above a group says no more than its weight allows. -/
theorem levels_le_of_rising (h : tree.Stands (some (context.plug found)))
    (hway : tree.WayDown (fun key => padded length (ByteKey.bytes key)) limit id key plain group
      found.link levels)
    {bound : Nat} (hrising : Rising bound found) : levels ≤ Nat.clog 2 found.weight := by
  rcases hway.levels_eq with ⟨-, rfl⟩ | ⟨owner, branch, hlink, hbranch, hsplit, -⟩
  · exact Nat.zero_le _
  · cases found with
    | leaf head behind => cases hlink
    | branch top split left right =>
        obtain rfl : top = owner := Link.branch.inj hlink
        obtain rfl := Except.ok.inj (h.branch_eq.symm.trans hbranch)
        obtain rfl : split = -(levels : Int) := hsplit
        have htop := hrising.top_le _ rfl
        omega

/-- A group has fewer branches above one another than nodes. -/
theorem length_group_le (h : tree.Stands (some (context.plug found)))
    (hobeys : (context.plug found).Obeys (discipline length) (bytesOf length tree))
    (hway : tree.WayDown (fun key => padded length (ByteKey.bytes key)) limit id key plain group
      found.link levels) : group.length ≤ found.members.length - 1 := by
  obtain ⟨inner, part, rfl, -, rfl⟩ := h.path_iff.mp hway.path_group
  have hheight := (length_add_height_le inner part).trans (inner.plug part).height_le
  rw [(obeys_plug_iff.mp hobeys).1.length_members not_chains, List.length_reverse,
    List.length_map]
  omega

/-- Over any history in which all insertions are told the same length, the way through a group
passes no more branches than the logarithm of the number of times that a node of the key was
linked since there was none, and no more than there are other nodes. -/
theorem churned_group_bounded (hlength : 8 * length < 2 ^ 31) (unique : Bool)
    (before since : List (Request K V Nat))
    (hallowed : ∀ request ∈ before ++ since, request.Allowed (· = length))
    (hfits : (Tree.empty unique).Fits insert (before ++ since)) {early : ByteTree K V}
    (hbefore : (Tree.empty unique).run insert before = .ok early)
    (hsince : early.run insert since = .ok tree) (key : List UInt8)
    (hnone : early.nodesUnder (fun key => padded length (ByteKey.bytes key)) key = [])
    {splits : List Int} (hpath : tree.PathFromRoot splits (.leaf id))
    (hkey : tree.LinkedUnder (fun key => padded length (ByteKey.bytes key)) key id) :
    ∃ plain group top levels, splits = plain ++ group ∧
      tree.WayDown (fun key => padded length (ByteKey.bytes key)) (8 * length) id key plain group
        top levels ∧
      levels ≤ Nat.clog 2
        (early.countLinks insert (fun key => padded length (ByteKey.bytes key)) key since) ∧
      group.length ≤
        (tree.nodesUnder (fun key => padded length (ByteKey.bytes key)) key).length - 1 := by
  rw [List.forall_mem_append] at hallowed
  obtain ⟨shape, hmirrors⟩ := (Tree.Mirrors.empty unique).of_run (serves hlength) hallowed.1
    (hfits.of_prefix (List.prefix_append before since)) hbefore
  have hfits := hfits.of_append hbefore
  obtain ⟨shape', hmirrors'⟩ := hmirrors.of_run (serves hlength) hallowed.2 hfits hsince
  have hstands := hmirrors'.stands
  obtain ⟨plain, group, top, levels, key', hsplits, hway⟩ :=
    (shallowGroups hstands hmirrors'.obeys).wayDown splits id hpath
  obtain rfl : key' = key := Option.some.inj (hway.key_eq.symm.trans hkey.2)
  obtain ⟨context, found, rfl, rfl, hgroup⟩ := groupIn_of_wayDown hstands hmirrors'.obeys hway
  refine ⟨plain, group, _, levels, hsplits, hway, ?_, ?_⟩
  · have hregroups : Regroups _ _ (groupIn length key' early shape)
        (groupIn length key' tree (some (context.plug found))) :=
      regroups_run hlength hmirrors hallowed.2 hfits hsince hstands
    rw [groupIn_eq_none hmirrors.stands hnone, hgroup] at hregroups
    obtain ⟨⟨bound, hrising⟩, hweight⟩ := hregroups.rising (by simp) found rfl
    rw [Option.elim_none, Nat.zero_add] at hweight
    exact (levels_le_of_rising hstands hway hrising).trans (Nat.clog_mono_right 2 hweight)
  · have hlinked := hstands.mem_nodesUnder_iff.mpr hkey
    obtain ⟨_, _, -, -, hperm, hgroup'⟩ :=
      exists_group hstands hmirrors'.obeys (List.ne_nil_of_mem hlinked)
    obtain rfl := Option.some.inj (hgroup.symm.trans hgroup')
    rw [← hperm.length_eq]
    exact length_group_le hstands (hmirrors'.obeys _ rfl) hway

/-- A node of one key, and one of another that comes and goes. -/
private def deserted : List (Request String String Nat) :=
  [.alloc "b" "first", .alloc "a" "second", .insert ⟨0, 0⟩ 1, .insert ⟨1, 0⟩ 1, .unlink ⟨1, 0⟩]

/-- The node comes back, two others follow, and it goes again before the last one comes. -/
private def resettled : List (Request String String Nat) :=
  [.alloc "ab" "third", .alloc "ac" "fourth", .alloc "ad" "fifth", .insert ⟨1, 0⟩ 1,
    .insert ⟨2, 0⟩ 1, .insert ⟨3, 0⟩ 1, .unlink ⟨1, 0⟩, .insert ⟨4, 0⟩ 1]

theorem churned_group_bounded_resettled :
    8 * 1 < 2 ^ 31 ∧ (∀ request ∈ deserted ++ resettled, request.Allowed (· = 1)) ∧
      (Tree.empty false).Fits insert (deserted ++ resettled) ∧
      ∃ early tree splits, (Tree.empty false).run insert deserted = .ok early ∧
        early.run insert resettled = .ok tree ∧
        early.nodesUnder (fun key => padded 1 (ByteKey.bytes key)) [97] = [] ∧
        tree.PathFromRoot splits (.leaf ⟨4, 0⟩) ∧
        tree.LinkedUnder (fun key => padded 1 (ByteKey.bytes key)) [97] ⟨4, 0⟩ ∧
        early.countLinks insert (fun key => padded 1 (ByteKey.bytes key)) [97] resettled = 4 ∧
        ∃ plain group top levels, splits = plain ++ group ∧
          tree.WayDown (fun key => padded 1 (ByteKey.bytes key)) (8 * 1) ⟨4, 0⟩ [97] plain group top
            levels ∧
          levels ≤ Nat.clog 2
            (early.countLinks insert (fun key => padded 1 (ByteKey.bytes key)) [97] resettled) ∧
          group.length ≤
            (tree.nodesUnder (fun key => padded 1 (ByteKey.bytes key)) [97]).length - 1 := by
  have hlength : 8 * 1 < 2 ^ 31 := by decide
  have hallowed : ∀ request ∈ deserted ++ resettled, request.Allowed (· = 1) := by
    simp [deserted, resettled, Request.Allowed]
  have hfits : (Tree.empty false).Fits insert (deserted ++ resettled) := by decide +kernel
  have hearly : (fun early : ByteTree String String =>
      (early.nodesUnder (fun key => padded 1 (ByteKey.bytes key)) [97],
        early.countLinks insert (fun key => padded 1 (ByteKey.bytes key)) [97] resettled)) <$>
          (Tree.empty false).run insert deserted = .ok ([], 4) := by decide +kernel
  have htree : (fun tree : ByteTree String String =>
      decide (tree.LinkedUnder (fun key => padded 1 (ByteKey.bytes key)) [97] ⟨4, 0⟩)) <$>
        (Tree.empty false).run insert (deserted ++ resettled) = .ok true := by decide +kernel
  obtain ⟨early, hbefore, hseen⟩ := exists_run hearly
  obtain ⟨hnone, hcount⟩ := Prod.mk.inj hseen
  obtain ⟨tree, hrun, hseen⟩ := exists_run htree
  have hlinked := of_decide_eq_true hseen
  have hsince : early.run insert resettled = .ok tree := by
    rwa [Tree.run_append, hbefore, Fault.ok_bind] at hrun
  obtain ⟨_, _, shape, hmirrors⟩ := mirrors_of_run hallowed hfits hrun
  obtain ⟨splits, hpath⟩ :=
    ((shallowGroups hmirrors.stands hmirrors.obeys).reached ⟨4, 0⟩).mpr hlinked.1
  exact ⟨hlength, hallowed, hfits, early, tree, splits, hbefore, hsince, hnone, hpath,
    hlinked, hcount,
    churned_group_bounded hlength false deserted resettled hallowed hfits hbefore hsince [97] hnone
      hpath hlinked⟩

/-! ## Deep groups of few nodes -/

/-- If the topmost branch belongs to a group, there is nothing else in the tree. -/
theorem wayDown_plain_eq_nil
    (hway : tree.WayDown (fun key => padded length (ByteKey.bytes key)) limit id key plain group top
      levels)
    (htop : ∀ root ∈ tree.root, ∀ branch, tree.branch root.node = .ok branch → branch.split < 0) :
    plain = [] := by
  obtain ⟨root, hroot, hplain⟩ := hway.path_plain
  cases hplain with
  | here => rfl
  | @down owner branch _ _ hbranch =>
      have hneg := htop _ hroot branch hbranch
      have hnonneg := hway.plain_nonneg _ List.mem_cons_self
      omega

/-- Deepens the right edge of a group by so many branches where only `start` is left: first by
one branch less, then a node comes above all this, of which one node is left, and then the
same again beside it.  Nodes that are spare are used by turns.  Besides the requests, the nodes
that are left and those that are spare afterwards are told. -/
private def deepening : Nat → UInt32 → List UInt32 →
    List (Request String String Nat) × List UInt32 × List UInt32
  | 0, start, spare => ([], [start], spare)
  | levels + 1, start, spare =>
      let (requests, left, spare) := deepening levels start spare
      let next := spare.headD 0
      let (requests', left', spare) := deepening levels next (spare.tail ++ left.dropLast)
      (requests ++ .insert ⟨next, 0⟩ 1 :: left.dropLast.map (.unlink ⟨·, 0⟩) ++ requests',
        left.getLastD 0 :: left', spare)

private theorem allowed_deepening (levels : Nat) (start : UInt32) (spare : List UInt32) :
    ∀ request ∈ (deepening levels start spare).1, request.Allowed (· = 1) := by
  induction levels generalizing start spare with
  | zero => simp [deepening]
  | succ levels ih =>
      intro request hrequest
      simp only [deepening, List.mem_append, List.mem_cons, List.mem_map] at hrequest
      rcases hrequest with (hrequest | rfl | ⟨slot, -, rfl⟩) | hrequest
      · exact ih _ _ request hrequest
      · rfl
      · trivial
      · exact ih _ _ request hrequest

/-- Eight nodes of one key come and go until all are linked. -/
private def eroded : List (Request String String Nat) :=
  List.replicate 8 (.alloc "a" "value") ++ .insert ⟨0, 0⟩ 1 ::
    (deepening 6 0 [1, 2, 3, 4, 5, 6, 7]).1 ++ [.insert ⟨7, 0⟩ 1]

/-- A group of eight nodes may be seven branches deep, more than twice the logarithm of its
size. -/
theorem eroded_group_deeper :
    (∀ request ∈ eroded, request.Allowed (· = 1)) ∧ (Tree.empty false).Fits insert eroded ∧
      ∃ tree splits id plain group top levels, (Tree.empty false).run insert eroded = .ok tree ∧
        tree.PathFromRoot splits (.leaf id) ∧ splits = plain ++ group ∧
        tree.WayDown (fun key => padded 1 (ByteKey.bytes key)) (8 * 1) id [97] plain group top
          levels ∧
        (tree.nodesUnder (fun key => padded 1 (ByteKey.bytes key)) [97]).length = 8 ∧
        group.length = 7 ∧
        ¬ group.length ≤
          2 * Nat.clog 2
            (tree.nodesUnder (fun key => padded 1 (ByteKey.bytes key)) [97]).length := by
  have hallowed : ∀ request ∈ eroded, request.Allowed (· = 1) := by
    intro request hrequest
    simp only [eroded, List.mem_append, List.mem_replicate, List.mem_cons, List.not_mem_nil,
      or_false] at hrequest
    rcases hrequest with (⟨-, rfl⟩ | rfl | hrequest) | rfl
    · trivial
    · rfl
    · exact allowed_deepening _ _ _ request hrequest
    · rfl
  have hfits : (Tree.empty false).Fits insert eroded := by decide +kernel
  have heroded : (fun tree : ByteTree String String =>
      ((tree.nodesUnder (fun key => padded 1 (ByteKey.bytes key)) [97]).length,
        tree.nodes.names.all fun id =>
          (tree.key? id).map (fun key => padded 1 (ByteKey.bytes key)) = some [97],
        Statistics.maxHeight <$> tree.statistics,
        tree.root.all fun root => (tree.branch root.node).toOption.all fun branch =>
          branch.split < 0)) <$>
      (Tree.empty false).run insert eroded = .ok (8, true, .ok 7, true) := by decide +kernel
  obtain ⟨tree, hrun, hseen⟩ := exists_run heroded
  simp only [Prod.mk.injEq, List.all_eq_true, Option.all_eq_true, decide_eq_true_eq] at hseen
  obtain ⟨hnodes, hkeys, hheight, htop⟩ := hseen
  obtain ⟨_, _, shape, hmirrors⟩ := mirrors_of_run hallowed hfits hrun
  have hstands := hmirrors.stands
  rw [hstands.statistics_eq] at hheight
  cases shape with
  | none => cases hheight
  | some found =>
      obtain ⟨splits, id, hpath, hlength⟩ := hstands.exists_longest_path
      have hlength : splits.length = 7 := hlength.trans (Except.ok.inj hheight)
      obtain ⟨plain, group, top, levels, key, rfl, hway⟩ :=
        (shallowGroups hstands hmirrors.obeys).wayDown splits id hpath
      have hname : id ∈ tree.nodes.names := by
        refine (Arena.mem_names_iff hstands.sound).mpr (Option.isSome_iff_exists.mpr ?_)
        obtain ⟨stored, hstored, -⟩ := Option.map_eq_some_iff.mp hway.key_eq
        obtain ⟨node, hnode, -⟩ := Option.map_eq_some_iff.mp hstored
        exact ⟨node, hnode⟩
      obtain rfl : key = [97] := Option.some.inj (hway.key_eq.symm.trans (hkeys id hname))
      obtain rfl := wayDown_plain_eq_nil hway fun root hroot branch hbranch =>
        htop root hroot branch (by rw [hbranch]; rfl)
      refine ⟨hallowed, hfits, tree, _, id, [], group, top, levels, hrun, hpath, rfl, hway, hnodes,
        hlength, ?_⟩
      rw [hnodes, show group.length = 7 from hlength]
      decide

end ByteTree

end ElasticTree
