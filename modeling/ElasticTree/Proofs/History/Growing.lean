import ElasticTree.Proofs.History.Regrouping

/-!
# Groups that only ever grew

As long as no node of a key goes, its group is as it was built: each node was put
into the deepest gap on the right edge that there was when it came.  The group of `n`
nodes then has the least height that it can have, and the split of its topmost branch
says so.
-/

namespace ElasticTree

open Shape ByteString

namespace Shape

/-- The nodes are parted by branches of negative split, as few of them above one another
as possible, and the split of the topmost branch counts them. -/
structure LowestGroup (nodes : List NodeId) (group : Shape) : Prop where
  members_perm : group.members.Perm nodes
  length_owners : group.owners.length = nodes.length - 1
  splits_neg : ∀ split ∈ group.splits, split < 0
  top?_eq : group.top? = some (-(Nat.clog 2 nodes.length : Int))
  height_eq : group.height = Nat.clog 2 nodes.length

theorem LowestGroup.of_grown {level : Nat} {group : Shape} {nodes : List NodeId}
    (h : Grown level group) (hperm : group.members.Perm nodes) (hmany : 2 ≤ nodes.length) :
    LowestGroup nodes group := by
  have hlevel : level = Nat.clog 2 nodes.length := by rw [h.level_eq, hperm.length_eq]
  have hpos : 0 < level := by
    rw [hlevel]
    exact Nat.clog_pos (by omega) hmany
  have hleaves := group.members_perm.length_eq
  rw [h.chained_eq, List.append_nil, hperm.length_eq, group.length_leaves] at hleaves
  refine ⟨hperm, by omega, h.splits_neg, ?_, ?_⟩
  · rw [← hlevel]
    exact h.top?_eq hpos
  · rw [← hlevel]
    exact h.height_eq

end Shape

namespace ByteTree

variable {K V : Type} [ByteKey K] {length floor : Nat} {key : List UInt8}
  {tree after : ByteTree K V} {ledger : Ledger K V (List UInt8)} {shape : Option Shape}

/-- What holds of a tree as long as the group of a key only grows. -/
structure Growing (length : Nat) (key : List UInt8) (tree : ByteTree K V) : Prop where
  mirrors : ∃ floor ledger shape,
    Tree.Mirrors (discipline length) (fun key => padded length (ByteKey.bytes key)) floor tree
      ledger shape ∧
    ∀ group ∈ groupIn length key tree shape, ∃ level, Grown level group
  unique_eq : tree.unique = false

namespace Growing

/-- Where no node of the key is linked, its group is yet to be. -/
theorem of_nil (hmirrors : Tree.Mirrors (discipline length)
      (fun key => padded length (ByteKey.bytes key)) floor tree ledger shape)
    (hunique : tree.unique = false)
    (hnone : tree.nodesUnder (fun key => padded length (ByteKey.bytes key)) key = []) :
    Growing length key tree := by
  refine ⟨⟨floor, ledger, shape, hmirrors, ?_⟩, hunique⟩
  simp [groupIn_eq_none hmirrors.stands hnone]

/-- No history that spares the group is the end of its growing. -/
theorem run (h : Growing length key tree) (hlength : 8 * length < 2 ^ 31)
    {requests : List (Request K V Nat)}
    (hallowed : ∀ request ∈ requests, request.Allowed (· = length))
    (hfits : tree.Fits insert requests)
    (hspares : tree.Spares insert (fun key => padded length (ByteKey.bytes key)) key requests)
    (hrun : tree.run insert requests = .ok after) : Growing length key after := by
  obtain ⟨⟨floor, ledger, shape, hmirrors, hgrown⟩, hunique⟩ := h
  obtain ⟨shape', hmirrors'⟩ := hmirrors.of_run (serves hlength) hallowed hfits hrun
  refine ⟨⟨_, _, shape', hmirrors', ?_⟩, ?_⟩
  · exact (regroups_run hlength hmirrors hallowed hfits hrun hmirrors'.stands).grown_of_not
      (not_not_intro hspares) hgrown
  · rw [← hmirrors'.unique_eq, ← hunique, ← hmirrors.unique_eq]
    exact Ledger.unique_play ledger requests

/-- The nodes of the key hang in a group of their own. -/
theorem exists_lowestGroup (h : Growing length key tree)
    (hmany : 2 ≤ (tree.nodesUnder (fun key => padded length (ByteKey.bytes key)) key).length) :
    ∃ (context : Context) (group : Shape), tree.FormsWith (some (context.plug group)) ∧
      context.Plain ∧
        LowestGroup (tree.nodesUnder (fun key => padded length (ByteKey.bytes key)) key) group := by
  obtain ⟨⟨floor, ledger, shape, hmirrors, hgrown⟩, -⟩ := h
  have hsome := List.ne_nil_of_length_pos (Nat.lt_of_lt_of_le Nat.two_pos hmany)
  obtain ⟨context, group, rfl, hplain, hperm, hgroup⟩ :=
    exists_group hmirrors.stands hmirrors.obeys hsome
  obtain ⟨level, hlevel⟩ := hgrown group hgroup
  exact ⟨context, group, hmirrors.stands.formsWith, hplain, .of_grown hlevel hperm hmany⟩

end Growing

/-- If all insertions are told the same length, and none of the nodes of a key went since
there was no node of it, its nodes hang in a group of their own that is as low as can be,
whatever happened to other keys. -/
theorem grown_group_lowest (hlength : 8 * length < 2 ^ 31) (before since : List (Request K V Nat))
    (hallowed : ∀ request ∈ before ++ since, request.Allowed (· = length))
    (hfits : (Tree.empty false).Fits insert (before ++ since)) {early : ByteTree K V}
    (hbefore : (Tree.empty false).run insert before = .ok early)
    (hsince : early.run insert since = .ok tree) (key : List UInt8)
    (hnone : early.nodesUnder (fun key => padded length (ByteKey.bytes key)) key = [])
    (hspares : early.Spares insert (fun key => padded length (ByteKey.bytes key)) key since)
    (hmany : 2 ≤ (tree.nodesUnder (fun key => padded length (ByteKey.bytes key)) key).length) :
    ∃ (context : Context) (group : Shape), tree.FormsWith (some (context.plug group)) ∧
      context.Plain ∧
        LowestGroup (tree.nodesUnder (fun key => padded length (ByteKey.bytes key)) key) group := by
  rw [List.forall_mem_append] at hallowed
  obtain ⟨shape, hmirrors⟩ := (Tree.Mirrors.empty false).of_run (serves hlength) hallowed.1
    (hfits.of_prefix (List.prefix_append before since)) hbefore
  have hunique : early.unique = false := hmirrors.unique_eq.symm.trans (Ledger.unique_play _ before)
  exact ((Growing.of_nil hmirrors hunique hnone).run hlength hallowed.2 (hfits.of_append hbefore)
    hspares hsince).exists_lowestGroup hmany

/-- A node comes and goes, and another of a larger key stays. -/
private def dwindling : List (Request String String Nat) :=
  [.alloc "a" "first", .alloc "b" "second", .insert ⟨0, 0⟩ 1, .insert ⟨1, 0⟩ 1, .unlink ⟨0, 0⟩]

/-- The node comes back and four of the same key follow, while other keys come and go. -/
private def thriving : List (Request String String Nat) :=
  [.insert ⟨0, 0⟩ 1, .alloc "ab" "third", .insert ⟨2, 0⟩ 1, .alloc "c" "fourth", .insert ⟨3, 0⟩ 1,
    .alloc "ac" "fifth", .insert ⟨4, 0⟩ 1, .unlink ⟨1, 0⟩, .alloc "ad" "sixth", .insert ⟨5, 0⟩ 1,
    .remove ⟨3, 0⟩, .insert ⟨1, 0⟩ 1, .alloc "ae" "seventh", .insert ⟨3, 1⟩ 1]

theorem grown_group_lowest_thriving :
    8 * 1 < 2 ^ 31 ∧ (∀ request ∈ dwindling ++ thriving, request.Allowed (· = 1)) ∧
      (Tree.empty false).Fits insert (dwindling ++ thriving) ∧
      ∃ early tree, (Tree.empty false).run insert dwindling = .ok early ∧
        early.run insert thriving = .ok tree ∧
        early.nodesUnder (fun key => padded 1 (ByteKey.bytes key)) [97] = [] ∧
        early.Spares insert (fun key => padded 1 (ByteKey.bytes key)) [97] thriving ∧
        tree.nodesUnder (fun key => padded 1 (ByteKey.bytes key)) [97] =
          [⟨0, 0⟩, ⟨2, 0⟩, ⟨3, 1⟩, ⟨4, 0⟩, ⟨5, 0⟩] ∧
        ∃ (context : Context) (group : Shape), tree.FormsWith (some (context.plug group)) ∧
          context.Plain ∧
            LowestGroup (tree.nodesUnder (fun key => padded 1 (ByteKey.bytes key)) [97]) group := by
  have hlength : 8 * 1 < 2 ^ 31 := by decide
  have hallowed : ∀ request ∈ dwindling ++ thriving, request.Allowed (· = 1) := by
    simp [dwindling, thriving, Request.Allowed]
  have hfits : (Tree.empty false).Fits insert (dwindling ++ thriving) := by decide +kernel
  have hruns : ((Tree.empty false).run insert dwindling >>= fun early =>
      early.run insert thriving >>= fun tree =>
        .ok (early.nodesUnder (fun key => padded 1 (ByteKey.bytes key)) [97],
          decide (early.Spares insert (fun key => padded 1 (ByteKey.bytes key)) [97] thriving),
          tree.nodesUnder (fun key => padded 1 (ByteKey.bytes key)) [97])) =
      .ok ([], true, [⟨0, 0⟩, ⟨2, 0⟩, ⟨3, 1⟩, ⟨4, 0⟩, ⟨5, 0⟩]) := by decide +kernel
  cases hbefore : (Tree.empty false).run insert dwindling with
  | error fault =>
      rw [hbefore] at hruns
      cases hruns
  | ok early =>
      rw [hbefore, Fault.ok_bind] at hruns
      cases hsince : early.run insert thriving with
      | error fault =>
          rw [hsince] at hruns
          cases hruns
      | ok tree =>
          rw [hsince, Fault.ok_bind, Except.ok.injEq, Prod.mk.injEq, Prod.mk.injEq,
            decide_eq_true_eq] at hruns
          obtain ⟨hnone, hspares, hnodes⟩ := hruns
          exact ⟨hlength, hallowed, hfits, early, tree, rfl, hsince, hnone, hspares, hnodes,
            grown_group_lowest hlength dwindling thriving hallowed hfits hbefore hsince [97] hnone
              hspares (by rw [hnodes]; decide)⟩

end ByteTree

end ElasticTree
