import ElasticTree.ByteTree.Afresh
import ElasticTree.Proofs.ByteTree.History
import ElasticTree.Proofs.ByteTree.Search
import ElasticTree.Proofs.Tree.Unfolding

/-!
# The bits that are known to agree need not be compared

Both ways down, the one that carries a count along and the one that compares
afresh, look for the same thing: the first bit in which the key and the one it is
compared with differ.  There is one such place only, so a comparison that starts
further on finds it as well, provided that the bits before the start do agree.
On the way down they do: what is known of one key in the hole is known of all of
them, and the owner of the next branch is one of those (`Approaches`).

A key that gets as far as the split of an ordinary branch differs from the owner
or passes the branch.  So it is found at a leaf or at a group, and at the topmost
branch of the group, since the way down has come past ordinary branches only.
-/

namespace ElasticTree

open Shape ByteString

namespace ByteString

variable {first second : ByteArray} {known : Nat}

theorem partsAt_afresh (first second : ByteArray) (limit : Nat) :
    PartsAt first second limit (commonBits first second 0 limit) :=
  partsAt_commonBits (by simp) limit

/-- What is known to agree makes no difference to the comparison. -/
theorem commonBits_eq_afresh (hknown : ∀ i < known, bitAt first i = bitAt second i) (limit : Nat) :
    commonBits first second known limit = commonBits first second 0 limit :=
  commonBits_eq hknown (partsAt_afresh first second limit)

/-- Strings that agree up to the limit agree afresh. -/
theorem commonBits_of_agree {limit : Nat} (hbits : ∀ i < limit, bitAt first i = bitAt second i) :
    commonBits first second 0 limit = limit :=
  commonBits_eq (by simp) ⟨Nat.le_refl limit, hbits, fun hlt => absurd hlt (Nat.lt_irrefl limit)⟩

end ByteString

namespace ByteTree

variable {K V : Type} [ByteKey K] {tree : ByteTree K V} {length limit shared : Nat} {id : NodeId}
  {key stored : ByteArray} {shape : Option Shape} {context : Context} {hole : Shape}

/-! ## The way down -/

theorem settle_eq_afresh {place : Nat} (h : PartsAt key stored limit place) (position : Position)
    (link : Link) : settle key stored place limit position link =
      Afresh.settle key stored place limit position link := by
  have hsame : compareBits key stored place limit = compareBits key stored 0 limit := by
    rw [compareBits_eq h.agrees h, compareBits_eq (by simp) h]
  cases hcompare : compareBits key stored 0 limit <;>
    simp only [settle, Afresh.settle, hsame, hcompare]

private theorem landWithin_eq_afresh (h : Approaches length tree key shared context hole) :
    tree.landWithin key (8 * length) limit shared context.position hole.link =
      Afresh.landWithin tree key (8 * length) limit context.position hole.link := by
  induction hole generalizing context limit shared with
  | leaf head behind =>
      obtain ⟨stored, hkey, -, hknown⟩ := h.keyOf_eq List.mem_cons_self
      simp only [Shape.link, landWithin, Afresh.landWithin, hkey, Fault.ok_bind,
        commonBits_eq_afresh hknown, settle_eq_afresh (partsAt_afresh _ _ _)]
  | branch owner split left right hleft hright =>
      obtain ⟨stored, hkey, hstored, hknown⟩ := h.keyOf_eq h.descends.owner_mem
      cases limit with
      | zero => rw [Shape.link, landWithin, Afresh.landWithin]
      | succ limit =>
          rw [Shape.link, landWithin, Afresh.landWithin, h.descends.stands.branch_eq, hkey]
          simp only [Fault.ok_bind, Branch.isGroup, decide_eq_true_eq]
          by_cases hgroup : split < 0
          · rw [if_pos hgroup, if_pos hgroup, commonBits_eq_afresh hknown,
              settle_eq_afresh (partsAt_afresh _ _ _)]
          · obtain ⟨split, rfl⟩ := Int.eq_ofNat_of_zero_le (Int.not_lt.mp hgroup)
            have hadmits : (split : Int) < 8 * length := h.descends.admits
            rw [if_neg hgroup, if_neg hgroup, Int.toNat_natCast]
            -- the key parts from the owner before the split, for both of them, or passes
            obtain ⟨place, hplace, ⟨hlt, hparts⟩ | ⟨rfl, hbits⟩⟩ := exists_place hknown split
            · have hafresh : commonBits key stored 0 split = place := commonBits_eq (by simp) hparts
              have hwhole := hparts.extend hlt (by omega : split ≤ 8 * length)
              rw [hplace, hafresh, if_pos hlt, if_pos hlt, settle_eq_afresh hwhole]
            · have hagrees := h.agrees_owner hstored hbits
              rw [hplace, commonBits_of_agree hbits, if_neg (Nat.lt_irrefl split),
                if_neg (Nat.not_lt.mpr (Nat.le_max_right shared split))]
              cases hside : Side.ofBit (bitAt key split) with
              | left => exact hleft (h.into_left hagrees hside)
              | right => exact hright (h.into_right hagrees hside)

theorem land_eq_afresh {found : Shape} (h : tree.Stands (some found))
    (hobeys : found.Obeys (discipline length) (bytesOf length tree)) (key : ByteArray) :
    tree.land key (8 * length) found.link = Afresh.land tree key (8 * length) found.link :=
  landWithin_eq_afresh (.root h hobeys key)

/-- Insertion over the length of a tree links the node where comparisons that start
from the first bit would have it linked. -/
theorem insert_eq_afresh (hlength : 8 * length < 2 ^ 31) (h : tree.Stands shape)
    (hobeys : ∀ found ∈ shape, found.Obeys (discipline length) (bytesOf length tree))
    (id : NodeId) :
    insert tree id length = Afresh.insert tree id length := by
  rw [insert, Afresh.insert, bitLength_eq hlength, h.root_eq]
  cases tree.expectDetached id with
  | error refusal => rfl
  | ok node =>
      cases shape with
      | none => rfl
      | some found =>
          have hsame := land_eq_afresh h (hobeys found rfl) (ByteKey.bytes node.key)
          cases hland : Afresh.land tree (ByteKey.bytes node.key) (8 * length) found.link with
          | error fault => simp only [Option.map_some, hsame, hland, bind, Except.bind]
          | ok landing => cases landing <;> simp only [Option.map_some, hsame, hland, Fault.ok_bind]

/-! ## Searching -/

private theorem findWithin?_eq_afresh (h : Approaches length tree key shared context hole) :
    tree.findWithin? key (8 * length) limit shared hole.link =
      Afresh.findWithin? tree key (8 * length) limit hole.link := by
  induction hole generalizing context limit shared with
  | leaf head behind => rw [Shape.link, findWithin?, Afresh.findWithin?]
  | branch owner split left right hleft hright =>
      obtain ⟨stored, hkey, hstored, hknown⟩ := h.keyOf_eq h.descends.owner_mem
      cases limit with
      | zero => rw [Shape.link, findWithin?, Afresh.findWithin?]
      | succ limit =>
          simp only [Shape.link, findWithin?, Afresh.findWithin?, hkey,
            h.descends.stands.branch_eq, Fault.ok_bind, Branch.isGroup, decide_eq_true_eq]
          by_cases hgroup : split < 0
          · rw [if_pos hgroup, if_pos hgroup]
          · obtain ⟨split, rfl⟩ := Int.eq_ofNat_of_zero_le (Int.not_lt.mp hgroup)
            rw [if_neg hgroup, if_neg hgroup, Int.toNat_natCast, commonBits_eq_afresh hknown]
            by_cases hlt : commonBits key stored 0 split < split
            · rw [if_pos hlt, if_pos hlt]
            · have hparts := partsAt_afresh key stored split
              have heq : commonBits key stored 0 split = split := by
                have hle := hparts.le
                omega
              have hagrees := h.agrees_owner hstored fun i hi => hparts.agrees i (by omega)
              rw [if_neg hlt, if_neg hlt, heq]
              cases hside : Side.ofBit (bitAt key split) with
              | left => exact hleft ((h.into_left hagrees hside).mono (Nat.le_max_right _ _))
              | right => exact hright ((h.into_right hagrees hside).mono (Nat.le_max_right _ _))

/-- The search over the length of a tree finds what comparisons that start from the
first bit find. -/
theorem find?_eq_afresh (hlength : 8 * length < 2 ^ 31) (h : tree.Stands shape)
    (hobeys : ∀ found ∈ shape, found.Obeys (discipline length) (bytesOf length tree))
    (key : ByteArray) : find? tree key length = Afresh.find? tree key length := by
  rw [find?, Afresh.find?, bitLengthWrapped_eq hlength, h.root_eq]
  cases shape with
  | none => rfl
  | some found => exact findWithin?_eq_afresh (.root h (hobeys found rfl) key)

/-! ## Where a key is found -/

/-- A branch at which a key is found tops the group of the key. -/
theorem topOfGroup_of_held {found : Shape} {position : Position} {owner : NodeId}
    (h : tree.Stands (some found)) (hlands : Lands length tree found (padded length key)
      (.held position (.branch owner))) : TopOfGroup length tree key position owner := by
  generalize hheld : Landing.held position (.branch owner) = landing at hlands
  cases hlands with
  | beside => cases hheld
  | held context hole hshape hequal hplain hgroup =>
      subst hshape
      obtain ⟨hposition, hlink⟩ := Landing.held.inj hheld
      subst hposition
      cases hole with
      | leaf => cases hlink
      | branch top split left right =>
          obtain rfl : owner = top := Link.branch.inj hlink
          refine ⟨⟨_, h.branch_eq, ?_, rfl⟩, fun above side hposition => ?_, _, h.unfolds,
            fun id hid => ?_⟩
          · exact decide_eq_true (hgroup split rfl)
          · cases context with
            | nil => cases hposition
            | cons frame outer =>
                obtain ⟨rfl, -⟩ := Position.under.inj hposition
                obtain ⟨upper, hupper, hsplit⟩ := h.exists_upper
                have hplain := hplain frame List.mem_cons_self
                exact ⟨upper, hupper, decide_eq_false (by omega)⟩
          · obtain ⟨node, -, hnode, hrank⟩ := Tree.exists_node
              (fun key => padded length (ByteKey.bytes key)) (h.live (mem_members_plug context hid))
            exact ⟨node, hnode, hrank.symm.trans (hequal id hid)⟩

theorem skipsSafely (hlength : 8 * length < 2 ^ 31) (h : tree.Stands shape)
    (hobeys : ∀ found ∈ shape, found.Obeys (discipline length) (bytesOf length tree)) :
    SkipsSafely length tree where
  insert_eq := insert_eq_afresh hlength h hobeys
  find_eq key := ⟨_, find?_eq hlength h hobeys key,
    (find?_eq_afresh hlength h hobeys key).symm.trans (find?_eq hlength h hobeys key)⟩
  tops root key hroot := by
    rw [h.root_eq] at hroot
    cases shape with
    | none => cases hroot
    | some found =>
        obtain rfl : found.link = root := Option.some.inj hroot
        obtain ⟨landing, hlanding, hlands⟩ := land_lands h (hobeys found rfl) key
        exact ⟨landing, hlanding, fun position owner hheld => topOfGroup_of_held h (hheld ▸ hlands)⟩

/-! ## Histories -/

/-- A history whose insertions all compare over one length comes out the same if
every comparison starts from the first bit, in its replies, its tree and its
failures.  On every tree that such histories lead to, it makes no difference to
insertion or search either. -/
theorem skipping_agreed_bits_is_safe (hlength : 8 * length < 2 ^ 31) (unique : Bool)
    (requests : List (Request K V Nat))
    (hallowed : ∀ request ∈ requests, request.Allowed (· = length))
    (hfits : (Tree.empty unique).Fits insert requests) :
    (Tree.empty unique).play insert requests = (Tree.empty unique).play Afresh.insert requests ∧
      (requests.countP Request.isInsert < 2 ^ 31 →
        ∃ tree, (Tree.empty unique).run insert requests = .ok tree) ∧
      ∀ tree, (Tree.empty unique).run insert requests = .ok tree → SkipsSafely length tree := by
  have hempty : Tree.Mirrors (discipline length) (fun key => padded length (ByteKey.bytes key)) 0
    (Tree.empty unique : ByteTree K V) (Ledger.empty unique) none := .empty unique
  refine ⟨?_, fun hinserts => ?_, fun tree hrun => ?_⟩
  · refine hempty.play_congr (serves hlength) hallowed hfits fun hstands hobeys id how hhow => ?_
    subst hhow
    exact insert_eq_afresh hlength hstands hobeys id
  · obtain ⟨tree, shape, hplay, -⟩ := play_mirrors hlength hallowed hinserts hfits
    exact ⟨tree, Tree.run_of_play hplay⟩
  · obtain ⟨shape, hmirrors⟩ := hempty.of_run (serves hlength) hallowed hfits hrun
    exact skipsSafely hlength hmirrors.stands hmirrors.obeys

/-- Strings of two groups that meet again behind what has been compared. -/
private def overlapping : List (Request String String Nat) :=
  [.alloc "abc" "first", .alloc "abd" "second", .alloc "ab" "third", .alloc "aa" "fourth",
    .alloc "abx" "fifth", .insert ⟨0, 0⟩ 2, .insert ⟨3, 0⟩ 2, .insert ⟨1, 0⟩ 2, .insert ⟨2, 0⟩ 2,
    .unlink ⟨0, 0⟩]

theorem skipping_agreed_bits_is_safe_overlapping :
    8 * 2 < 2 ^ 31 ∧ (∀ request ∈ overlapping, request.Allowed (· = 2)) ∧
      (Tree.empty false).Fits insert overlapping ∧
      (Tree.empty false).play insert overlapping =
        (Tree.empty false).play Afresh.insert overlapping ∧
      ∃ tree, (Tree.empty false).run insert overlapping = .ok tree ∧ SkipsSafely 2 tree := by
  have hlength : 8 * 2 < 2 ^ 31 := by decide
  have hallowed : ∀ request ∈ overlapping, request.Allowed (· = 2) := by
    simp [overlapping, Request.Allowed]
  have hfits : (Tree.empty false).Fits insert overlapping := by decide +kernel
  obtain ⟨hplay, hruns, hskips⟩ :=
    skipping_agreed_bits_is_safe hlength false overlapping hallowed hfits
  obtain ⟨tree, hrun⟩ := hruns (by decide)
  exact ⟨hlength, hallowed, hfits, hplay, tree, hrun, hskips tree hrun⟩

end ByteTree

end ElasticTree
