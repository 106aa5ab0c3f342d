import ElasticTree.Proofs.ByteTree.Keys
import ElasticTree.Proofs.Tree.Descending

/-!
# The way down for a byte string

On the way down the number of bits is carried along in which the key agrees with
everything below, so no bit is compared twice.  At a branch of different keys
only the bits up to its split have to be looked at, and if there is a difference
among them, it is the first difference over the whole length as well.  Thus the
bit count at which the way ends is the one at which the key parts from what it
found, wherever it ended (`Lands`).
-/

namespace ElasticTree

open Shape ByteString

namespace ByteTree

variable {K V : Type} [ByteKey K] {tree : ByteTree K V} {length : Nat} {id : NodeId}
  {key stored : ByteArray} {shape hole : Shape} {context : Context}

/-- The bytes of a tree by the names of their nodes, over the length of the
comparison. -/
abbrev bytesOf (length : Nat) (tree : ByteTree K V) : NodeId → List UInt8 :=
  tree.rank fun key => padded length (ByteKey.bytes key)

theorem keyOf_eq (length : Nat) (h : tree.Stands (some (context.plug hole)))
    (hid : id ∈ hole.members) :
    ∃ stored, tree.keyOf id = .ok stored ∧ padded length stored = bytesOf length tree id := by
  obtain ⟨node, hnode, hrank⟩ :=
    h.exists_node_below (fun key => padded length (ByteKey.bytes key)) hid
  refine ⟨ByteKey.bytes node.key, ?_, hrank⟩
  rw [keyOf, hnode]
  rfl

/-! ## Settling -/

/-- A comparison that is known to part at a place settles there. -/
theorem settle_eq {limit place : Nat} (h : PartsAt key stored limit place) (position : Position)
    (link : Link) : settle key stored place limit position link =
      if limit ≤ place then .held position link
      else .beside position link (.ofBit (bitAt key place)) place := by
  rw [settle, compareBits_eq h.agrees h]
  by_cases hle : limit ≤ place
  · simp [hle]
  · have hdiffers := h.differs (Nat.not_le.mp hle)
    revert hdiffers
    rw [if_neg hle, if_neg hle]
    cases bitAt key place <;> cases bitAt stored place <;> simp [Side.ofBit] <;> rfl

/-- What parting within the length means for the keys. -/
theorem parted_of_partsAt {limit place : Nat} (h : PartsAt key stored limit place)
    (hlt : place < limit) (hlimit : limit ≤ 8 * length) :
    AgreeTo place (padded length key) (padded length stored) ∧
      BelongsOn place (.ofBit (bitAt key place)) (padded length key) ∧
        BelongsOn place (Side.ofBit (bitAt key place)).opposite (padded length stored) ∧
          bit (padded length key) place ≠ bit (padded length stored) place := by
  have hdiffers := h.differs hlt
  rw [← bit_padded key (by omega : place < 8 * length),
    ← bit_padded stored (by omega : place < 8 * length)] at hdiffers
  refine ⟨(agreeTo_iff_of_nonneg (by omega)).mpr fun i hi => ?_, fun _ => ?_, fun _ => ?_, hdiffers⟩
  · rw [bit_padded key (by omega), bit_padded stored (by omega)]
    exact h.agrees i (by omega)
  · rw [Int.toNat_natCast, bit_padded key (by omega)]
  · rw [Int.toNat_natCast, ← bit_padded key (by omega : place < 8 * length)]
    revert hdiffers
    cases bit (padded length key) place <;> cases bit (padded length stored) place <;>
      simp [Side.ofBit, Side.opposite]

/-! ## The way down -/

/-- The way down for the key ends where it belongs. -/
inductive Lands (length : Nat) (tree : ByteTree K V) (shape : Shape) (key : List UInt8) :
    Landing → Prop where
  | held (context : Context) (hole : Shape) (shape_eq : shape = context.plug hole)
      (key_eq : ∀ known ∈ hole.members, bytesOf length tree known = key) (plain : context.Plain)
      (group : ∀ top ∈ hole.top?, top < 0) :
      Lands length tree shape key (.held context.position hole.link)
  | beside (context : Context) (hole : Shape) (side : Side) (place : Nat)
      (shape_eq : shape = context.plug hole) (known : NodeId) (mem : known ∈ hole.members)
      (follows : Follows (discipline length) context key (bytesOf length tree known))
      (plain : context.Plain)
      (parted : Parted (discipline length) hole place side key (bytesOf length tree known)) :
      Lands length tree shape key (.beside context.position hole.link side place)

/-- Bits of the padded keys are bits of the keys. -/
theorem bitAt_eq_of_agreeTo {shared : Nat} (hshared : shared ≤ 8 * length)
    (h : AgreeTo shared (padded length key) (padded length stored)) :
    ∀ i < shared, bitAt key i = bitAt stored i := by
  intro i hi
  rw [← bit_padded key (by omega : i < 8 * length), ← bit_padded stored (by omega : i < 8 * length)]
  exact (agreeTo_iff_of_nonneg (by omega)).mp h i (by omega)

/-- The key is on its way down, past branches of different keys only, and it is
known to agree with all that lies in the hole in its first `shared` bits. -/
structure Approaches (length : Nat) (tree : ByteTree K V) (key : ByteArray) (shared : Nat)
    (context : Context) (hole : Shape) : Prop where
  descends : tree.Descends (discipline length) (fun key => padded length (ByteKey.bytes key))
    (padded length key) context hole
  plain : context.Plain
  shared_le : shared ≤ 8 * length
  agrees : ∀ known ∈ hole.members, AgreeTo shared (padded length key) (bytesOf length tree known)

namespace Approaches

variable {shared place split : Nat} {owner : NodeId} {left right : Shape}

theorem keyOf_eq (h : Approaches length tree key shared context hole) (hid : id ∈ hole.members) :
    ∃ stored, tree.keyOf id = .ok stored ∧ padded length stored = bytesOf length tree id ∧
      ∀ i < shared, bitAt key i = bitAt stored i := by
  obtain ⟨stored, hkey, hstored⟩ := ByteTree.keyOf_eq length h.descends.stands hid
  exact ⟨stored, hkey, hstored, bitAt_eq_of_agreeTo h.shared_le (hstored ▸ h.agrees id hid)⟩

/-- Nothing is known at the root. -/
theorem root (h : tree.Stands (some shape))
    (hobeys : shape.Obeys (discipline length) (bytesOf length tree)) (key : ByteArray) :
    Approaches length tree key 0 [] shape where
  descends := .root h hobeys _
  plain := by simp [Context.Plain]
  shared_le := Nat.zero_le _
  agrees _ _ := (agreeTo_iff_of_nonneg (Int.le_refl 0)).mpr (by omega)

/-- Fewer bits may be taken to agree than are known to. -/
theorem mono {fewer : Nat} (h : Approaches length tree key shared context hole)
    (hle : fewer ≤ shared) : Approaches length tree key fewer context hole where
  descends := h.descends
  plain := h.plain
  shared_le := Nat.le_trans hle h.shared_le
  agrees known hknown := (agreeTo_iff_of_nonneg (Int.natCast_nonneg _)).mpr fun i hi =>
    (agreeTo_iff_of_nonneg (Int.natCast_nonneg _)).mp (h.agrees known hknown) i (by omega)

/-- Where all keys in the hole are equal, the comparison with one of them speaks
for all. -/
theorem settles (h : Approaches length tree key shared context hole) (hid : id ∈ hole.members)
    (hstored : padded length stored = bytesOf length tree id)
    (hall : ∀ known ∈ hole.members, bytesOf length tree known = bytesOf length tree id)
    (hgroup : ∀ top ∈ hole.top?, top < 0) (hparts : PartsAt key stored (8 * length) place) :
    Lands length tree (context.plug hole) (padded length key)
      (settle key stored place (8 * length) context.position hole.link) := by
  rw [settle_eq hparts]
  by_cases hle : 8 * length ≤ place
  · rw [if_pos hle]
    refine .held context hole rfl (fun known hknown => ?_) h.plain hgroup
    rw [hall known hknown, ← hstored]
    exact (padded_eq_of_bits fun i hi => hparts.agrees i (by omega)).symm
  · rw [if_neg hle]
    obtain ⟨hagree, hside, hopposite, hne⟩ :=
      parted_of_partsAt hparts (Nat.not_le.mp hle) (Nat.le_refl _)
    rw [hstored] at hagree hopposite hne
    refine .beside context hole _ place rfl id hid (h.descends.follows id hid) h.plain
      ⟨?_, Int.natCast_nonneg _, hagree, hside, hopposite, fun top htop hsame => ?_⟩
    · show (place : Int) < 8 * length
      omega
    · exact hne (congrArg (bit · place) ((agreeTo_iff_of_neg (hgroup top htop)).mp hsame))

/-- A key that parts from the owner before the split goes beside the branch. -/
theorem settles_before
    (h : Approaches length tree key shared context (.branch owner split left right))
    (hstored : padded length stored = bytesOf length tree owner) (hlt : place < split)
    (hparts : PartsAt key stored split place) :
    Lands length tree (context.plug (.branch owner split left right)) (padded length key)
      (settle key stored place (8 * length) context.position (.branch owner)) := by
  have hadmits : (split : Int) < 8 * length := h.descends.admits
  have howner := h.descends.owner_mem
  have hparts := hparts.extend hlt (by omega : split ≤ 8 * length)
  obtain ⟨hagree, hside, hopposite, hne⟩ := parted_of_partsAt hparts (by omega) (Nat.le_refl _)
  rw [hstored] at hagree hopposite hne
  rw [settle_eq hparts, if_neg (by omega)]
  refine .beside context (.branch owner split left right) _ place rfl owner howner
    (h.descends.follows owner howner) h.plain
    ⟨?_, Int.natCast_nonneg _, hagree, hside, hopposite, fun top htop hsame => hne ?_⟩
  · show (place : Int) < 8 * length
    omega
  · rw [top?, Option.mem_some_iff] at htop
    subst htop
    exact (agreeTo_iff_of_nonneg (Int.natCast_nonneg _)).mp hsame place (by omega)

private theorem max_le
    (h : Approaches length tree key shared context (.branch owner split left right)) :
    max shared split ≤ 8 * length := by
  have hadmits : (split : Int) < 8 * length := h.descends.admits
  have hshared := h.shared_le
  omega

private theorem belongsOn
    (h : Approaches length tree key shared context (.branch owner split left right)) :
    BelongsOn split (.ofBit (bitAt key split)) (padded length key) := by
  intro _
  have hadmits : (split : Int) < 8 * length := h.descends.admits
  rw [Int.toNat_natCast, bit_padded key (by omega)]

section Passing

variable (h : Approaches length tree key shared context (.branch owner split left right))
  (hagrees : AgreeTo split (padded length key) (bytesOf length tree owner))
include h hagrees

theorem agrees_max {known : NodeId}
    (hknown : known ∈ (Shape.branch owner split left right).members) :
    AgreeTo (max shared split : Nat) (padded length key) (bytesOf length tree known) := by
  rcases Nat.le_total shared split with hle | hle
  · rw [Nat.max_eq_right hle]
    exact h.descends.agrees_below hagrees hknown
  · rw [Nat.max_eq_left hle]
    exact h.agrees known hknown

/-- A key that agrees with the owner up to the split passes its branch. -/
theorem into_left (hside : Side.ofBit (bitAt key split) = .left) :
    Approaches length tree key (max shared split) (⟨owner, split, .left, right⟩ :: context)
      left where
  descends := h.descends.into_left hagrees (hside ▸ h.belongsOn)
  plain := h.plain.cons (Int.natCast_nonneg _)
  shared_le := h.max_le
  agrees _ hknown := h.agrees_max hagrees (List.mem_append_left _ hknown)

theorem into_right (hside : Side.ofBit (bitAt key split) = .right) :
    Approaches length tree key (max shared split) (⟨owner, split, .right, left⟩ :: context)
      right where
  descends := h.descends.into_right hagrees (hside ▸ h.belongsOn)
  plain := h.plain.cons (Int.natCast_nonneg _)
  shared_le := h.max_le
  agrees _ hknown := h.agrees_max hagrees (List.mem_append_right _ hknown)

end Passing

/-- A key whose bits before the split are those of the owner agrees with it there. -/
theorem agrees_owner
    (h : Approaches length tree key shared context (.branch owner split left right))
    (hstored : padded length stored = bytesOf length tree owner)
    (hbits : ∀ i < split, bitAt key i = bitAt stored i) :
    AgreeTo split (padded length key) (bytesOf length tree owner) := by
  have hadmits : (split : Int) < 8 * length := h.descends.admits
  rw [← hstored]
  refine (agreeTo_iff_of_nonneg (Int.natCast_nonneg _)).mpr fun i hi => ?_
  rw [bit_padded key (by omega), bit_padded stored (by omega)]
  exact hbits i (by omega)

end Approaches

/-- At a branch of different keys, the bits up to its split are looked at unless
they are known already. -/
theorem exists_place {shared : Nat} (hknown : ∀ i < shared, bitAt key i = bitAt stored i)
    (split : Nat) :
    ∃ place, (if shared < split then commonBits key stored shared split else shared) = place ∧
      (place < split ∧ PartsAt key stored split place ∨
        place = max shared split ∧ ∀ i < split, bitAt key i = bitAt stored i) := by
  by_cases hlt : shared < split
  · have hparts := partsAt_commonBits hknown split
    have hle := hparts.le
    rw [if_pos hlt]
    refine ⟨_, rfl, ?_⟩
    rcases Nat.lt_or_ge (commonBits key stored shared split) split with hshort | hlong
    · exact .inl ⟨hshort, hparts⟩
    · exact .inr ⟨by omega, fun i hi => hparts.agrees i (by omega)⟩
  · rw [if_neg hlt]
    exact ⟨_, rfl, .inr ⟨by omega, fun i hi => hknown i (by omega)⟩⟩

private theorem landWithin_lands (context : Context) {hole : Shape} {limit shared : Nat}
    (h : Approaches length tree key shared context hole) (hlimit : hole.height ≤ limit) :
    ∃ landing, tree.landWithin key (8 * length) limit shared context.position hole.link =
        .ok landing ∧ Lands length tree (context.plug hole) (padded length key) landing := by
  -- every call is one frame further down, and at least as many bits are known to agree
  induction hole generalizing context limit shared with
  | leaf head behind =>
      obtain ⟨stored, hkey, hstored, hknown⟩ := h.keyOf_eq List.mem_cons_self
      have hleaf := (obeys_plug_iff.mp h.descends.obeys).1
      simp only [Shape.link, landWithin, hkey, bind, Except.bind]
      refine ⟨_, rfl, h.settles List.mem_cons_self hstored (fun known hmem => ?_) (by simp [top?])
        (partsAt_commonBits hknown _)⟩
      exact hleaf.eq_of_leaf _ (List.mem_map_of_mem hmem)
  | branch owner split left right hleft hright =>
      have howner := h.descends.owner_mem
      obtain ⟨stored, hkey, hstored, hknown⟩ := h.keyOf_eq howner
      rw [Shape.height] at hlimit
      obtain ⟨limit, rfl⟩ : ∃ rest, limit = rest + 1 := ⟨limit - 1, by omega⟩
      simp only [Shape.link, landWithin, h.descends.stands.branch_eq, hkey, bind, Except.bind,
        Branch.isGroup, decide_eq_true_eq]
      by_cases hgroup : split < 0
      · rw [if_pos hgroup]
        refine ⟨_, rfl, h.settles howner hstored (fun known hmem => ?_) (fun top htop => ?_)
          (partsAt_commonBits hknown _)⟩
        · exact ((agreeTo_iff_of_neg hgroup).mp (h.descends.agrees_owner hmem)).symm
        · rw [top?, Option.mem_some_iff] at htop
          exact htop ▸ hgroup
      · obtain ⟨split, rfl⟩ := Int.eq_ofNat_of_zero_le (Int.not_lt.mp hgroup)
        obtain ⟨place, hplace, ⟨hlt, hparts⟩ | ⟨rfl, hbits⟩⟩ := exists_place hknown split
        · simp only [if_neg hgroup, Int.toNat_natCast, hplace, if_pos hlt]
          exact ⟨_, rfl, h.settles_before hstored hlt hparts⟩
        · have hagrees := h.agrees_owner hstored hbits
          simp only [if_neg hgroup, Int.toNat_natCast, hplace,
            if_neg (Nat.not_lt.mpr (Nat.le_max_right shared split))]
          cases hside : Side.ofBit (bitAt key split) with
          | left => exact hleft _ (h.into_left hagrees hside) (by omega)
          | right => exact hright _ (h.into_right hagrees hside) (by omega)

theorem land_lands {shape : Shape} (h : tree.Stands (some shape))
    (hobeys : shape.Obeys (discipline length) (bytesOf length tree)) (key : ByteArray) :
    ∃ landing, tree.land key (8 * length) shape.link = .ok landing ∧
      Lands length tree shape (padded length key) landing :=
  landWithin_lands [] (.root h hobeys key) h.height_lt.le

/-! ## Groups -/

/-- The nodes of the key are those in the hole, and if they hang below a branch, it is
one of their group. -/
structure Gathers (length : Nat) (tree : ByteTree K V) (key : List UInt8) (context : Context)
    (hole : Shape) : Prop where
  plain : context.Plain
  group : ∀ top ∈ hole.top?, top < 0
  key_eq : ∀ known ∈ hole.members, bytesOf length tree known = key
  key_ne : ∀ other ∈ context.before ++ context.after, bytesOf length tree other ≠ key

theorem Gathers.mem_iff {bytes : List UInt8} (h : Gathers length tree bytes context hole) :
    id ∈ hole.members ↔ id ∈ (context.plug hole).members ∧ bytesOf length tree id = bytes := by
  refine ⟨fun hid => ⟨mem_members_plug context hid, h.key_eq id hid⟩, fun ⟨hid, hkey⟩ => ?_⟩
  have hapart : id ∉ context.before ++ context.after := fun hbeside => h.key_ne id hbeside hkey
  rw [members_plug, List.mem_append, List.mem_append] at hid
  rw [List.mem_append] at hapart
  tauto

/-- The way down for the key of some node ends above all nodes of the key. -/
theorem land_of_mem (h : tree.Stands (some shape))
    (hobeys : shape.Obeys (discipline length) (bytesOf length tree)) (hid : id ∈ shape.members)
    (hkey : bytesOf length tree id = padded length key) :
    ∃ context hole, shape = context.plug hole ∧
      tree.land key (8 * length) shape.link = .ok (.held context.position hole.link) ∧
        Gathers length tree (padded length key) context hole := by
  obtain ⟨landing, hland, hlands⟩ := land_lands h hobeys key
  cases hlands with
  | held context hole hshape hequal hplain hgroup =>
      subst hshape
      obtain ⟨known, hknown⟩ := List.exists_mem_of_ne_nil _ hole.members_ne_nil
      have hheld : padded length key ∈ hole.keys (bytesOf length tree) :=
        mem_keys_iff.mpr ⟨known, hknown, hequal known hknown⟩
      exact ⟨context, hole, rfl, hland, hplain, hgroup, hequal,
        (obeys_plug_iff.mp hobeys).2.ne_of_plain hplain hheld⟩
  | beside context hole side place hshape known hmem hfollows hplain hparted =>
      subst hshape
      exact absurd hkey
        (ne_of_parted hobeys hplain (List.mem_map_of_mem hmem) hfollows hparted id hid)

end ByteTree

end ElasticTree
