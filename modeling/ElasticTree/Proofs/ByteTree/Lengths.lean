import ElasticTree.Proofs.ByteTree.Groups
import ElasticTree.Proofs.ByteTree.Keys
import ElasticTree.Proofs.History.Holding

/-!
# Inserting byte strings over any lengths

If insertions compare over different lengths, the way down may lead anywhere, and
a node may be taken for equal to one of another key.  Still the way ends at a
slot of the tree, and the split that comes out of it is one that a branch can
hold: it is no larger than the length of the comparison, or it is smaller than
one that is there already.
-/

namespace ElasticTree

open Shape ByteString

theorem ByteString.commonBits_le (first second : ByteArray) (known limit : Nat) :
    commonBits first second known limit ≤ limit := by
  unfold commonBits
  cases firstDifferentByte? first second (known / 8) with
  | none => exact Nat.le_refl limit
  | some index => exact Nat.min_le_right _ _

namespace ByteTree

variable {K V : Type} [ByteKey K] {tree : ByteTree K V} {shape : Option Shape} {context : Context}
  {hole : Shape} {key stored : ByteArray} {floor next bits : Nat} {id : NodeId}

/-- The way down ends at some slot of the shape, with a split that a branch can
hold. -/
inductive Ends (shape : Shape) : Landing → Prop where
  | held (context : Context) (hole : Shape) (shape_eq : shape = context.plug hole) :
      Ends shape (.held context.position hole.link)
  | beside (context : Context) (hole : Shape) (side : Side) (place : Nat)
      (shape_eq : shape = context.plug hole) (place_le : (place : Int) ≤ 2 ^ 31 - 8) :
      Ends shape (.beside context.position hole.link side place)

private theorem settle_ends (context : Context) (hole : Shape) {place : Nat}
    (hplace : (place : Int) ≤ 2 ^ 31 - 8) :
    Ends (context.plug hole) (settle key stored place bits context.position hole.link) := by
  unfold settle
  cases compareBits key stored place bits with
  | lt => exact .beside context hole .left place rfl hplace
  | eq => exact .held context hole rfl
  | gt => exact .beside context hole .right place rfl hplace

private theorem landWithin_ends (context : Context) {hole : Shape} {limit shared : Nat}
    (h : tree.Stands (some (context.plug hole))) (hbits : (bits : Int) ≤ 2 ^ 31 - 8)
    (hsplits : ∀ split ∈ hole.splits, split ≤ 2 ^ 31 - 8) (hlimit : hole.height ≤ limit) :
    ∃ landing, tree.landWithin key bits limit shared context.position hole.link = .ok landing ∧
      Ends (context.plug hole) landing := by
  have hcommon : ∀ stored known, (commonBits key stored known bits : Int) ≤ 2 ^ 31 - 8 := by
    intro stored known
    have := commonBits_le key stored known bits
    omega
  induction hole generalizing context limit shared with
  | leaf head behind =>
      obtain ⟨node, hnode, -⟩ := h.exists_head
      simp only [Shape.link, landWithin, keyOf, Tree.node_eq hnode, bind, Except.bind, pure,
        Except.pure]
      exact ⟨_, rfl, settle_ends context (.leaf head behind) (hcommon _ _)⟩
  | branch owner split left right hleft hright =>
      obtain ⟨node, hnode, -⟩ := h.exists_owner
      have hsplit : split ≤ 2 ^ 31 - 8 := hsplits split (by simp [Shape.splits])
      rw [Shape.height] at hlimit
      obtain ⟨limit, rfl⟩ : ∃ rest, limit = rest + 1 := ⟨limit - 1, by omega⟩
      simp only [Shape.link, landWithin, h.branch_eq, keyOf, Tree.node_eq hnode, bind, Except.bind,
        pure, Except.pure, Branch.isGroup, decide_eq_true_eq]
      by_cases hgroup : split < 0
      · rw [if_pos hgroup]
        exact ⟨_, rfl, settle_ends context (.branch owner split left right) (hcommon _ _)⟩
      · rw [if_neg hgroup]
        generalize (if shared < split.toNat then
          commonBits key (ByteKey.bytes node.key) shared split.toNat else shared) = place
        by_cases hlt : place < split.toNat
        · rw [if_pos hlt]
          exact ⟨_, rfl, settle_ends context (.branch owner split left right) (by omega)⟩
        · rw [if_neg hlt]
          cases Side.ofBit (bitAt key split.toNat) with
          | left =>
              exact hleft _ h.into_left
                (fun lower hlower => hsplits lower (by simp [Shape.splits, hlower])) (by omega)
          | right =>
              exact hright _ h.into_right
                (fun lower hlower => hsplits lower (by simp [Shape.splits, hlower])) (by omega)

theorem land_ends {found : Shape} (h : tree.Stands (some found)) (hbits : (bits : Int) ≤ 2 ^ 31 - 8)
    (hsplits : ∀ split ∈ found.splits, split ≤ 2 ^ 31 - 8) (key : ByteArray) :
    ∃ landing, tree.land key bits found.link = .ok landing ∧ Ends found landing :=
  landWithin_ends [] h hbits hsplits h.height_lt.le

/-! ## Insertion -/

omit [ByteKey K] in
/-- A node that is taken for equal is put above some gap, unless that takes a split
smaller than any. -/
private theorem linkEqual_holds (h : tree.Holds floor (some (context.plug hole)))
    (hfloor : floor ≤ 2 ^ 31) (hid : tree.nodes.Live id)
    (hdetached : tree.layout.placement id = .detached) :
    (∃ after shape', tree.linkEqual id context.position hole.link = .ok after ∧
      Adds id (some (context.plug hole)) shape' ∧ Tree.Keeps tree after ∧
        after.Holds (min (floor + 1) (2 ^ 31)) (some shape')) ∨
    tree.linkEqual id context.position hole.link = .error .splitOverflow ∧ floor = 2 ^ 31 := by
  have hsplits : ∀ split ∈ hole.splits, -(floor : Int) ≤ split ∧ split ≤ 2 ^ 31 - 8 :=
    fun split hsplit => h.bounded split (mem_splits_plug context hsplit)
  obtain ⟨edge, inner, place, rfl, -, hgap, hlink⟩ :=
    linkEqual_eq id h.stands fun split hsplit => by
      have := hsplits split hsplit
      omega
  have hplace : -(floor : Int) - 1 ≤ place ∧ place ≤ 2 ^ 31 - 8 := by
    cases hgap with
    | lowest => omega
    | skipped =>
        have := hsplits _ (mem_splits_plug edge List.mem_cons_self)
        omega
  rw [hlink]
  rw [← plug_append] at h ⊢
  by_cases hroom : -2 ^ 31 ≤ place
  · obtain ⟨after, hafter, hkeeps, hholds⟩ := h.insertAbove
      (by omega : floor ≤ min (floor + 1) (2 ^ 31) ∧ min (floor + 1) (2 ^ 31) ≤ 2 ^ 31)
      hid hdetached .right
      (by omega : -((min (floor + 1) (2 ^ 31) : Nat) : Int) ≤ place ∧ place ≤ 2 ^ 31 - 8)
    exact .inl ⟨after, _, hafter, .beside (edge ++ context) inner .right place, hkeeps, hholds⟩
  · exact .inr ⟨Tree.insertAbove_overflow _ _ _ fun hrange => hroom hrange.1, by omega⟩

/-- Where nodes are linked, a detached node joins above the place where its way down
ended, or what was found there is found to be in its place. -/
private theorem insert_beside {found : Shape} {node : Node K V} {length : Nat}
    (hnext : floor ≤ next ∧ next ≤ 2 ^ 31)
    (hlower : tree.unique = true ∨ min (floor + 1) (2 ^ 31) ≤ next)
    (h : tree.Holds floor (some found)) (hlength : 8 * length < 2 ^ 31)
    (hnode : tree.nodes.get? id = some node) (hid : id ∉ found.members) :
    (∃ answer after shape', insert tree id length = .ok (answer, after) ∧
      tree.Joined (8 * length < 2 ^ 31) (some found) id answer after shape' ∧
        after.Holds next shape') ∨
    insert tree id length = .error .splitOverflow ∧ tree.unique = false ∧ floor = 2 ^ 31 := by
  have hlive : tree.nodes.Live id := by simp [Arena.Live, hnode]
  have hdetached := h.stands.placement_eq_detached_iff.mpr hid
  obtain ⟨landing, hlanding, hends⟩ := land_ends h.stands
    (by omega : ((8 * length : Nat) : Int) ≤ 2 ^ 31 - 8)
    (fun split hsplit => (h.bounded split hsplit).2) (ByteKey.bytes node.key)
  unfold ByteTree.insert
  simp only [h.stands.expectDetached_of_not_mem hnode hid, bitLength_eq hlength, h.stands.root_eq,
    Option.map_some, hlanding, Fault.ok_bind]
  cases hends with
  | held context hole hshape =>
      subst hshape
      by_cases hunique : tree.unique = true
      · simp only [hunique, if_true, h.stands.descend_eq .left, Fault.ok_bind]
        obtain ⟨rest, hrest⟩ := hole.exists_members_eq
        have hmem : hole.endLeaf .left ∈ (context.plug hole).members :=
          mem_members_plug context (by simp [hrest])
        exact .inl ⟨_, tree, _, rfl, .held _ hunique hmem hid, h.raise hnext.1⟩
      · simp only [hunique, Bool.false_eq_true, if_false]
        rcases linkEqual_holds h (by omega : floor ≤ 2 ^ 31) hlive hdetached with
          ⟨after, shape', hafter, hadds, hkeeps, hholds⟩ | ⟨hover, heq⟩
        · rw [hafter]
          exact .inl ⟨_, after, _, rfl, .linked after shape' hadds hholds.stands hkeeps,
            hholds.raise (hlower.resolve_left hunique)⟩
        · rw [hover]
          exact .inr ⟨rfl, trivial, heq⟩
  | beside context hole side place hshape hplace =>
      subst hshape
      obtain ⟨after, hafter, hkeeps, hholds⟩ := h.insertAbove hnext hlive hdetached side
        (by omega : -(next : Int) ≤ place ∧ (place : Int) ≤ 2 ^ 31 - 8)
      simp only [hafter, Fault.ok_bind]
      exact .inl ⟨_, after, _, rfl,
        .linked after _ (.beside context hole side place) hholds.stands hkeeps, hholds⟩

/-- Whatever length it compares over, insertion lets a detached node join a tree that
stands, as long as there are splits.  A unique tree needs none that are lower. -/
private theorem insert_lowering (hnext : floor ≤ next ∧ next ≤ 2 ^ 31)
    (hlower : tree.unique = true ∨ min (floor + 1) (2 ^ 31) ≤ next) (h : tree.Holds floor shape)
    (id : NodeId) (length : Nat) :
    (∃ answer after shape', insert tree id length = .ok (answer, after) ∧
      tree.Joined (8 * length < 2 ^ 31) shape id answer after shape' ∧ after.Holds next shape') ∨
    insert tree id length = .error .splitOverflow ∧ tree.unique = false ∧ floor = 2 ^ 31 := by
  have hraise := h.raise hnext.1
  cases hnode : tree.nodes.get? id with
  | none =>
      refine .inl ⟨.error (.unknownNode id), tree, shape, ?_, .refused _ (.inl ?_), hraise⟩
      · rw [ByteTree.insert, Tree.expectDetached_of_none hnode]
      · simp [Arena.Live, hnode]
  | some node =>
      by_cases hid : id ∈ shape.elim [] Shape.members
      · refine .inl ⟨.error (.alreadyLinked id), tree, shape, ?_,
          .refused _ (.inr (.inl hid)), hraise⟩
        rw [ByteTree.insert, h.stands.expectDetached_of_mem hnode hid]
      · by_cases hlength : 8 * length < 2 ^ 31
        · cases shape with
          | none =>
              have hlive : tree.nodes.Live id := by simp [Arena.Live, hnode]
              obtain ⟨after, hafter, hkeeps, hholds⟩ := h.linkFirst hlive
              unfold ByteTree.insert
              simp only [h.stands.expectDetached_of_not_mem hnode hid, bitLength_eq hlength,
                h.stands.root_eq, Option.map_none, hafter, Fault.ok_bind]
              exact .inl ⟨_, after, _, rfl, .linked after _ .first hholds.stands hkeeps, hholds⟩
          | some found => exact insert_beside hnext hlower h hlength hnode hid
        · refine .inl ⟨.error (.keyTooLong length), tree, shape, ?_,
            .refused _ (.inr (.inr hlength)), hraise⟩
          rw [ByteTree.insert, h.stands.expectDetached_of_not_mem hnode hid,
            bitLength_of_le (Nat.not_lt.mp hlength)]

/-- Whatever length it compares over, insertion lets a detached node join a tree that
stands, as long as there are splits. -/
theorem insert_joined (hfloor : floor ≤ 2 ^ 31) (h : tree.Holds floor shape) (id : NodeId)
    (length : Nat) :
    (∃ answer after shape', insert tree id length = .ok (answer, after) ∧
      tree.Joined (8 * length < 2 ^ 31) shape id answer after shape' ∧
        after.Holds (min (floor + 1) (2 ^ 31)) shape') ∨
    insert tree id length = .error .splitOverflow ∧ floor = 2 ^ 31 := by
  rcases insert_lowering
    (by omega : floor ≤ min (floor + 1) (2 ^ 31) ∧ min (floor + 1) (2 ^ 31) ≤ 2 ^ 31)
    (.inr (Nat.le_refl _)) h id length with hjoined | ⟨hover, -, heq⟩
  · exact .inl hjoined
  · exact .inr ⟨hover, heq⟩

/-- In a unique tree, where no groups grow, insertion never fails and leaves the splits
where they are. -/
theorem insert_joined_of_unique (hfloor : floor ≤ 2 ^ 31) (hunique : tree.unique = true)
    (h : tree.Holds floor shape) (id : NodeId) (length : Nat) :
    ∃ answer after shape', insert tree id length = .ok (answer, after) ∧
      tree.Joined (8 * length < 2 ^ 31) shape id answer after shape' ∧
      after.Holds floor shape' := by
  rcases insert_lowering ⟨Nat.le_refl _, hfloor⟩ (.inl hunique) h id length with
    hjoined | ⟨-, hplain, -⟩
  · exact hjoined
  · simp [hunique] at hplain

/-- Whatever length it compares over, insertion keeps a tree standing, as long as
there are splits. -/
theorem insert_survives : Tree.Insertion.Survives (insert : Tree.Insertion K V Nat) := by
  intro tree shape floor hfloor h id length
  rcases insert_joined hfloor h id length with ⟨answer, after, shape', hinsert, -, hholds⟩ | hover
  · exact .inl ⟨answer, after, shape', hinsert, hholds⟩
  · exact .inr hover

/-- Before the splits are as low as can be, insertion does not fail. -/
theorem insert_maintains (bound : Nat) (hbound : bound ≤ 2 ^ 31) :
    Tree.Insertion.Maintains (insert : Tree.Insertion K V Nat) bound :=
  insert_survives.maintains hbound

end ByteTree

end ElasticTree
