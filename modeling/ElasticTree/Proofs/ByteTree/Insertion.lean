import ElasticTree.Proofs.ByteTree.Growth
import ElasticTree.Proofs.ByteTree.Landing

/-!
# Inserting byte strings

A key that parts from what its way down found is put above it, and a key that
was found becomes the last of its group.  The latter is put above a gap on the
right edge of the group, and since everything there has the same key, all that
is to be shown is that the new split fits in between.
-/

namespace ElasticTree

open Shape ByteString

namespace ByteTree

variable {K V : Type} [ByteKey K] {tree : ByteTree K V} {length : Nat} {id : NodeId}
  {context edge : Context} {hole inner : Shape} {split : Int}

/-! ## Joining a group -/

/-- The splits of a group are negative and follow that of its topmost branch. -/
private theorem group_splits {rank : NodeId → List UInt8}
    (hobeys : hole.Obeys (discipline length) rank)
    (hgroup : ∀ top ∈ hole.top?, top < 0) : ∀ split ∈ hole.splits, split < 0 := by
  intro split hsplit
  cases hole with
  | leaf head behind => simp [splits] at hsplit
  | branch owner top left right =>
      have htop : top < 0 := hgroup top rfl
      rw [splits, List.mem_cons] at hsplit
      rcases hsplit with rfl | hsplit
      · exact htop
      · have hdeepens := deepens_iff.mp (hobeys.1.deepens split hsplit)
        omega

omit [ByteKey K] in
/-- A node whose key was found is put above a gap on the right edge of its group. -/
private theorem linkEqual_gap (id : NodeId) (h : tree.Stands (some (context.plug hole)))
    {rank : NodeId → List UInt8} (hobeys : (context.plug hole).Obeys (discipline length) rank)
    (hgroup : ∀ top ∈ hole.top?, top < 0)
    (hranged : ∀ split ∈ (context.plug hole).splits, -2 ^ 31 ≤ split) :
    ∃ (edge : Context) (inner : Shape) (place : Int), hole = edge.plug inner ∧
      (∀ frame ∈ edge, frame.side = .right) ∧ Gap edge inner place ∧
        tree.linkEqual id context.position hole.link =
          tree.insertAbove id (edge ++ context).position inner.link .right place := by
  refine linkEqual_eq id h fun split hsplit => ?_
  have hlower := hranged split (mem_splits_plug context hsplit)
  have hupper := group_splits (obeys_plug_iff.mp hobeys).1 hgroup split hsplit
  omega

/-- In a gap of a group, the split follows what is above and precedes what is
below. -/
private theorem gap_fits {rank : NodeId → List UInt8}
    (hobeys : (context.plug (edge.plug inner)).Obeys (discipline length) rank)
    (hplain : context.Plain) (hgroup : ∀ top ∈ (edge.plug inner).top?, top < 0)
    (hgap : Gap edge inner split) :
    split < 0 ∧ (∀ frame ∈ edge ++ context, (discipline length).deepens frame.split split) ∧
      (∀ lower ∈ inner.splits, (discipline length).deepens split lower) ∧
        (split = -1 ∨ split + 1 ∈ inner.splits) := by
  have hnegative := group_splits (obeys_plug_iff.mp hobeys).1 hgroup
  have hinner : ∀ split ∈ inner.splits, split < 0 := fun split hsplit =>
    hnegative split (mem_splits_plug edge hsplit)
  rw [← plug_append, obeys_plug_iff] at hobeys
  have hsplit : split < 0 ∧ (∀ frame ∈ edge.head?, frame.split < split) := by
    cases hgap with
    | lowest room => exact ⟨by omega, room⟩
    | skipped room =>
        have := hinner _ List.mem_cons_self
        refine ⟨by omega, fun frame hframe => ?_⟩
        have := room frame hframe
        omega
  -- splits follow one another all the way down, so the innermost frame speaks for the rest
  refine ⟨hsplit.1,
    hobeys.2.deepens fun frame hframe => deepens_iff.mpr (.inl ⟨hsplit.1, ?_⟩), ?_, ?_⟩
  · intro hframe_neg
    cases edge with
    | nil =>
        have := hplain frame (List.mem_of_mem_head? hframe)
        omega
    | cons first edge => exact hsplit.2 frame hframe
  · intro lower hlower
    cases hgap with
    | lowest room => simp [splits] at hlower
    | skipped room tight =>
        rename_i owner top left right
        have htop := hinner top List.mem_cons_self
        have hstep : (discipline length).deepens (top - 1) top :=
          deepens_iff.mpr (.inl ⟨htop, fun _ => by omega⟩)
        rw [splits, List.mem_cons] at hlower
        rcases hlower with rfl | hlower
        · exact hstep
        · exact (discipline length).deepens_trans hstep (hobeys.1.1.deepens lower hlower)
  · cases hgap with
    | lowest room => exact .inl rfl
    | skipped room =>
        refine .inr ?_
        rw [splits, List.mem_cons]
        exact .inl (by omega)

/-- A node may be put above what holds nothing but its key, as the last of it. -/
private theorem obeys_behind {rank : NodeId → List UInt8}
    (hobeys : (context.plug inner).Obeys (discipline length) rank)
    (hequal : ∀ known ∈ inner.members, rank known = rank id) (hsplit : split < 0)
    (habove : ∀ frame ∈ context, (discipline length).deepens frame.split split)
    (hbelow : ∀ lower ∈ inner.splits, (discipline length).deepens split lower) :
    (context.plug (Frame.close ⟨id, split, .left, leaf id []⟩ inner)).Obeys (discipline length)
      rank := by
  obtain ⟨hinner, hcontext⟩ := obeys_plug_iff.mp hobeys
  obtain ⟨known, hknown⟩ := List.exists_mem_of_ne_nil _ inner.members_ne_nil
  have hmem : rank id ∈ inner.keys rank := mem_keys_iff.mpr ⟨known, hknown, hequal known hknown⟩
  have hkeys : ∀ key ∈ inner.keys rank, key = rank id := by
    intro key hkey
    obtain ⟨other, hother, rfl⟩ := mem_keys_iff.mp hkey
    exact hequal other hother
  have hfollows := hcontext.follows hmem
  have hextended := hcontext.extend hmem
    (fun frame hframe => ⟨hfollows.agrees frame hframe, hfollows.onSide frame hframe⟩) habove
  -- at a negative split no key is on a side, and to agree is to be equal
  have hside : ∀ side key, BelongsOn split side key := fun side key hnonneg => by omega
  show (Context.plug (⟨id, split, .left, leaf id []⟩ :: context) inner).Obeys _ rank
  rw [obeys_plug_iff]
  refine ⟨hinner, ⟨?_, fun first hfirst second hsecond => ?_, fun key _ => hside _ key,
    fun key _ => hside _ key, by simpa [splits] using hbelow⟩, ⟨by simp, .inl rfl⟩,
    hextended.mono ?_ ?_⟩
  · show split < 8 * length
    omega
  · have hall : ∀ key ∈ inner.keys rank ++ (leaf id []).keys rank, key = rank id := by
      simpa [keys, members, or_imp, forall_and] using hkeys
    refine (agreeTo_iff_of_neg hsplit).mpr ?_
    rw [hall first hfirst, hall second hsecond]
  · intro key hkey
    simpa [keys, members, or_comm] using hkey
  · simp [splits]

/-- A node whose key was found becomes the last of what was found, unless the
splits of the group have run out. -/
private theorem insertsInto_behind (h : tree.Stands (some (context.plug hole)))
    (hobeys : (context.plug hole).Obeys (discipline length) (bytesOf length tree))
    (hid : tree.nodes.Live id) (hdetached : tree.layout.placement id = .detached)
    (hequal : ∀ known ∈ hole.members, bytesOf length tree known = bytesOf length tree id)
    (hplain : context.Plain) (hgroup : ∀ top ∈ hole.top?, top < 0) (hunique : tree.unique = false)
    (hranged : ∀ split ∈ (context.plug hole).splits, -2 ^ 31 ≤ split) :
    Tree.InsertsInto (discipline length) (fun key => padded length (ByteKey.bytes key)) tree
      (some (context.plug hole)) id (do
        return (.ok id, ← tree.linkEqual id context.position hole.link)) := by
  obtain ⟨edge, inner, place, rfl, hright, hgap, hlink⟩ := linkEqual_gap id h hobeys hgroup hranged
  obtain ⟨hneg, habove, hbelow, hlast⟩ := gap_fits hobeys hplain hgroup hgap
  have hinner : ∀ known ∈ inner.members, bytesOf length tree known = bytesOf length tree id :=
    fun known hknown => hequal known (mem_members_plug edge hknown)
  rw [← plug_append] at h hobeys hranged ⊢
  have hlast : place = -1 ∨ place + 1 ∈ (Context.plug (edge ++ context) inner).splits :=
    hlast.imp_right (mem_splits_plug (edge ++ context))
  rw [hlink]
  by_cases hplace : -2 ^ 31 ≤ place
  · obtain ⟨after, hafter, hstands, hkeeps⟩ :=
      h.insertAbove hid hdetached .right (by omega : -2 ^ 31 ≤ place ∧ place < 2 ^ 31)
    rw [hafter, Fault.ok_bind]
    refine .linked after _ hstands hkeeps (obeys_behind hobeys hinner hneg habove hbelow) ?_
      (fun htrue => absurd htrue (by simp [hunique])) (.splice hplace (hlast.imp_left (by omega)))
      (.beside (edge ++ context) inner .right place)
    have henters := Tree.Stands.enters_behind (obeys_plug_iff.mp hobeys).2 hinner
      fun frame hframe hside => by
        rcases List.mem_append.mp hframe with hframe | hframe
        · exact absurd ((hright frame hframe).symm.trans hside) (by simp)
        · exact hplain frame hframe
    simpa [members_plug, Frame.members_close, Frame.before, Frame.after, Side.opposite,
      Shape.members] using henters
  · -- the gap is below the smallest split that a branch can hold
    rw [Tree.insertAbove_overflow _ _ _ fun hrange => hplace hrange.1]
    refine .overflowed ?_
    have hlast := hlast.resolve_left (by omega)
    have := hranged _ hlast
    rwa [show place + 1 = -2 ^ 31 by omega] at hlast

/-! ## Insertion -/

/-- Inserting a detached node links it where its bytes belong, or finds them in a
unique tree, or fails since no split is left for them. -/
theorem insert_insertsInto {shape : Option Shape} {node : Node K V}
    (hlength : 8 * length < 2 ^ 31) (h : tree.Stands shape)
    (hobeys : ∀ found ∈ shape, found.Obeys (discipline length) (bytesOf length tree))
    (hranged : ∀ split ∈ shape.elim [] Shape.splits, -2 ^ 31 ≤ split)
    (hnode : tree.nodes.get? id = some node) (hid : id ∉ shape.elim [] Shape.members) :
    Tree.InsertsInto (discipline length) (fun key => padded length (ByteKey.bytes key)) tree shape
      id (ByteTree.insert tree id length) := by
  have hlive : tree.nodes.Live id := by simp [Arena.Live, hnode]
  have hkey : padded length (ByteKey.bytes node.key) = bytesOf length tree id :=
    (Tree.rank_of_get? (fun key => padded length (ByteKey.bytes key)) hnode).symm
  have hdetached := h.placement_eq_detached_iff.mpr hid
  have hroot := h.root_eq
  unfold ByteTree.insert
  rw [h.expectDetached_of_not_mem hnode hid, bitLength_eq hlength]
  cases shape with
  | none =>
      obtain ⟨after, hafter, hinserts⟩ := h.insertsInto_first (discipline length)
        (fun key => padded length (ByteKey.bytes key)) hlive
      simp only [hroot, Option.map_none, hafter, Fault.ok_bind]
      exact hinserts
  | some shape =>
      obtain ⟨landing, hlanding, hlands⟩ := land_lands h (hobeys shape rfl) (ByteKey.bytes node.key)
      rw [hkey] at hlands
      simp only [hroot, Option.map_some, hlanding, Fault.ok_bind]
      cases hlands with
      | held context hole hshape hequal hplain hgroup =>
          subst hshape
          have hobeys := hobeys _ rfl
          have hcontext := (obeys_plug_iff.mp hobeys).2
          cases hunique : tree.unique with
          | true =>
              obtain ⟨rest, hrest⟩ := hole.exists_members_eq
              have hmem : hole.endLeaf .left ∈ hole.members := by simp [hrest]
              have hknown : bytesOf length tree id ∈ hole.keys (bytesOf length tree) :=
                mem_keys_iff.mpr ⟨_, hmem, hequal _ hmem⟩
              simp only [if_true, h.descend_eq .left, Fault.ok_bind]
              refine .held (hole.endLeaf .left) context.before (rest ++ context.after) hunique ?_
                (hequal _ hmem)
                (hcontext.lt_before hknown (hcontext.follows hknown) hplain)
              simp [members_plug, hrest]
          | false =>
              exact insertsInto_behind h hobeys hlive hdetached hequal hplain hgroup hunique hranged
      | beside context hole side place hshape known hmem hfollows hplain hparted =>
          subst hshape
          have hadmits : (place : Int) < 8 * length := hparted.admits
          obtain ⟨after, hafter, hinserts⟩ :=
            h.insertsInto_above (hobeys _ rfl) hlive hdetached hplain
              (List.mem_map_of_mem hmem) hfollows hparted (by omega)
          simp only [hafter, Fault.ok_bind]
          exact hinserts

/-- A node whose key others have makes their group grow. -/
theorem insert_grows {found : Shape} {node : Node K V} {after : ByteTree K V}
    {answer : Except Refusal NodeId} (hlength : 8 * length < 2 ^ 31) (h : tree.Stands (some found))
    (hobeys : found.Obeys (discipline length) (bytesOf length tree))
    (hranged : ∀ split ∈ found.splits, -2 ^ 31 ≤ split) (hunique : tree.unique = false)
    (hnode : tree.nodes.get? id = some node) (hid : id ∉ found.members)
    (hother : ∃ other ∈ found.members, bytesOf length tree other = bytesOf length tree id)
    (hinsert : ByteTree.insert tree id length = .ok (answer, after)) :
    ∃ context hole hole', found = context.plug hole ∧
      Gathers length tree (bytesOf length tree id) context hole ∧ Grows id none hole hole' ∧
        after.Stands (some (context.plug hole')) := by
  have hlive : tree.nodes.Live id := by simp [Arena.Live, hnode]
  have hkey : padded length (ByteKey.bytes node.key) = bytesOf length tree id :=
    (Tree.rank_of_get? (fun key => padded length (ByteKey.bytes key)) hnode).symm
  have hdetached := h.placement_eq_detached_iff.mpr hid
  obtain ⟨other, hmem, hsame⟩ := hother
  obtain ⟨context, hole, rfl, hland, hgathers⟩ := land_of_mem h hobeys hmem (hsame.trans hkey.symm)
  rw [hkey] at hgathers
  obtain ⟨edge, inner, place, rfl, hright, hgap, hlink⟩ :=
    linkEqual_gap id h hobeys hgathers.group hranged
  refine ⟨context, _, _, rfl, hgathers, .of_gap hgap hright, ?_⟩
  simp only [ByteTree.insert, h.expectDetached_of_not_mem hnode hid, bitLength_eq hlength,
    h.root_eq, Option.map_some, hland, Fault.ok_bind, hunique, Bool.false_eq_true, if_false,
    hlink] at hinsert
  rw [← plug_append] at h
  by_cases hplace : -2 ^ 31 ≤ place ∧ place < 2 ^ 31
  · obtain ⟨grown, hgrown, hstands, -⟩ := h.insertAbove hlive hdetached .right hplace
    rw [hgrown] at hinsert
    obtain rfl : grown = after := congrArg Prod.snd (Except.ok.inj hinsert)
    rw [plug_append] at hstands
    exact hstands
  · rw [Tree.insertAbove_overflow _ _ _ hplace] at hinsert
    cases hinsert

end ByteTree

end ElasticTree
