import ElasticTree.Proofs.ByteTree.Answering
import ElasticTree.Proofs.ByteTree.Lengths

/-!
# Searching over lengths that are too great

Insertion refuses a length if it has too many bits to be a split.  A search accepts
every length and counts the bits in a word of 64 bits, which drops what does not
fit: from `2 ^ 61` bytes on, the length that it compares over is a smaller one.

In a unique tree there are no groups, whatever lengths the insertions were told.
Then every way down ends at a leaf, whose key is compared in full over the length
that is left.  A search may still miss a key, since the branches come from other
lengths, but what it finds is what was looked for: over all lengths below `2 ^ 61`,
and only over those (`search_honours_length_iff`).
-/

namespace ElasticTree

open Shape ByteString

namespace ByteTree

variable {K V : Type} [ByteKey K] {tree after : ByteTree K V} {shape : Option Shape} {length : Nat}

/-- Every search over `length` bytes has an answer, and what it finds is linked and
looks like the key for `agreed` bytes. -/
def Honours (tree : ByteTree K V) (length agreed : Nat) : Prop :=
  ∀ key, ∃ answer, tree.find? key length = .ok answer ∧ ∀ id ∈ answer, tree.isLinked id = true ∧
    ∃ stored, tree.key? id = some stored ∧ padded agreed (ByteKey.bytes stored) = padded agreed key

/-! ## Trees without groups -/

/-- The tree is unique and stands, and all its splits are positions of bits. -/
structure Ungrouped (tree : ByteTree K V) (shape : Option Shape) : Prop where
  unique : tree.unique = true
  holds : tree.Holds 0 shape

omit [ByteKey K] in
private theorem unique_of_perform {insertion : Tree.Insertion K V Nat} {request : Request K V Nat}
    {reply : Reply K V} (h : tree.Stands shape) (hother : request.isInsert = false)
    (hperform : tree.perform insertion request = .ok (reply, after)) :
    after.unique = tree.unique := by
  cases request with
  | alloc key value =>
      obtain rfl := congrArg Prod.snd (Except.ok.inj hperform)
      rfl
  | insert id how => cases hother
  | unlink id =>
      obtain ⟨answer, after', hunlink, houtcome⟩ := h.unlink_outcome id
      rw [Tree.perform, hunlink] at hperform
      obtain rfl : after' = after := congrArg Prod.snd (Except.ok.inj hperform)
      refine houtcome.keeps (fun after => after.unique = tree.unique) rfl ?_
      rintro node more after ⟨shape', -, hunlinked⟩
      exact hunlinked.keeps.unique_eq
  | free id =>
      obtain ⟨answer, after', hfree, houtcome⟩ := h.free_outcome id
      rw [Tree.perform, hfree] at hperform
      obtain rfl : after' = after := congrArg Prod.snd (Except.ok.inj hperform)
      refine houtcome.keeps (fun after => after.unique = tree.unique) rfl ?_
      rintro node stored after ⟨-, hreleased⟩
      exact hreleased.unique_eq
  | remove id =>
      obtain ⟨answer, after', hremove, houtcome⟩ := h.remove_outcome id
      rw [Tree.perform, hremove] at hperform
      obtain rfl : after' = after := congrArg Prod.snd (Except.ok.inj hperform)
      refine houtcome.keeps (fun after => after.unique = tree.unique) rfl ?_
      rintro node stored after ⟨-, middle, shape', hunlinked, hreleased⟩
      exact hreleased.unique_eq.trans hunlinked.keeps.unique_eq
  | clear =>
      obtain rfl := congrArg Prod.snd (Except.ok.inj hperform)
      rfl
  | setValue id value =>
      obtain rfl := congrArg Prod.snd (Except.ok.inj hperform)
      rfl

namespace Ungrouped

omit [ByteKey K] in
theorem empty : Ungrouped (Tree.empty true : ByteTree K V) none := ⟨rfl, .empty true⟩

/-- No request fails, and none makes a group. -/
theorem perform (h : Ungrouped tree shape) (request : Request K V Nat)
    (hroom : ∀ key value, request = .alloc key value → tree.nodes.HasRoom) :
    ∃ reply after shape', tree.perform insert request = .ok (reply, after) ∧
      Ungrouped after shape' := by
  rcases request.insert_or_allowed with ⟨id, length, rfl⟩ | ⟨hother, -⟩
  · obtain ⟨answer, after, shape', hinsert, hjoined, hafter⟩ :=
      insert_joined_of_unique (Nat.zero_le _) h.unique h.holds id length
    refine ⟨.inserted answer, after, shape', ?_, ?_, hafter⟩
    · rw [Tree.perform, hinsert]
      rfl
    · cases hjoined with
      | refused => exact h.unique
      | held => exact h.unique
      | linked after shape' hadds hstands hkeeps => exact hkeeps.unique_eq.trans h.unique
  · obtain ⟨reply, after, shape', hperform, hafter⟩ :=
      h.holds.perform request (insert_maintains (2 ^ 31) (Nat.le_refl _)) (by simp [hother]) hroom
    have hunique := unique_of_perform h.holds.stands hother hperform
    simp only [hother, Bool.false_eq_true, if_false, Nat.add_zero] at hafter
    exact ⟨reply, after, shape', hperform, hunique.trans h.unique, hafter⟩

/-- No history fails, however many insertions there are, and none makes a group. -/
theorem run (h : Ungrouped tree shape) {requests : List (Request K V Nat)}
    (hfits : tree.Fits insert requests) :
    ∃ after shape', tree.run insert requests = .ok after ∧ Ungrouped after shape' := by
  induction requests generalizing tree shape with
  | nil => exact ⟨tree, shape, rfl, h⟩
  | cons request rest ih =>
      obtain ⟨reply, middle, shape', hperform, hmiddle⟩ := h.perform request hfits.hasRoom
      obtain ⟨after, shape'', hrun, hafter⟩ := ih hmiddle (hfits.rest hperform)
      refine ⟨after, shape'', ?_, hafter⟩
      rw [Tree.run_cons hperform]
      exact hrun

/-- Without groups, the bytes that are left of a length are honoured. -/
theorem honours (h : Ungrouped tree shape) (length : Nat) :
    Honours tree length (length % 2 ^ 61) := by
  intro key
  have hplain : ∀ split ∈ shape.elim [] Shape.splits, 0 ≤ split := fun split hsplit => by
    simpa using (h.holds.bounded split hsplit).1
  obtain ⟨answer, hfind⟩ := find?_ok h.holds.stands key length
  refine ⟨answer, hfind, fun id hid => ?_⟩
  obtain rfl : answer = some id := hid
  obtain ⟨hmem, node, hnode, hkey⟩ := padded_eq_of_find? h.holds.stands hplain hfind
  exact ⟨h.holds.stands.isLinked_iff.mpr hmem, node.key, by rw [Tree.key?, hnode]; rfl, hkey⟩

end Ungrouped

/-! ## Lengths that are cut -/

/-- The first `place` bytes of the string, and another byte in the place of the next. -/
private def altered (string : ByteArray) (place : Nat) : ByteArray :=
  ⟨(padded place string ++ [byteAt string place + 1]).toArray⟩

private theorem byteAt_altered (string : ByteArray) (place index : Nat) :
    byteAt (altered string place) index =
      (padded place string ++ [byteAt string place + 1]).getD index 0 := by
  rw [byteAt, List.getD_eq_getElem?_getD]
  have hget : (altered string place)[index]? =
      (padded place string ++ [byteAt string place + 1])[index]? := by
    simp only [getElem?_def, altered]
    rfl
  rw [hget]
  cases (padded place string ++ [byteAt string place + 1])[index]? <;> rfl

/-- The strings part at that very byte. -/
private theorem padded_altered_eq_iff (string : ByteArray) (place length : Nat) :
    padded length string = padded length (altered string place) ↔ length ≤ place := by
  rw [padded_eq_iff]
  constructor
  · intro h
    by_contra hlt
    have hbyte := h place (by omega)
    rw [byteAt_altered] at hbyte
    simp at hbyte
  · intro hle index hindex
    rw [byteAt_altered, List.getD_eq_getElem?_getD, List.getElem?_append_left (by simp; omega)]
    simp [padded, show index < place by omega]

/-- A lone node is found if the keys look the same over the bytes that are left of the
length. -/
private theorem find?_lone (key : K) (value : V) : ∃ tree : ByteTree K V,
    (Tree.empty true).run insert [.alloc key value, .insert ⟨0, 0⟩ 0] = .ok tree ∧
      tree.key? ⟨0, 0⟩ = some key ∧ ∀ query length,
        padded (length % 2 ^ 61) (ByteKey.bytes key) = padded (length % 2 ^ 61) query →
          tree.find? query length = .ok (some ⟨0, 0⟩) := by
  refine ⟨_, rfl, rfl, fun query length hsame => ?_⟩
  calc find? _ query length
      = .ok (if commonBits query (ByteKey.bytes key) 0 (bitLengthWrapped length) =
          bitLengthWrapped length then some ⟨0, 0⟩ else none) := rfl
    _ = .ok (some ⟨0, 0⟩) := by
        rw [bitLengthWrapped_eq_mod, if_pos (commonBits_eq_length_iff.mpr hsame)]

private theorem fits_lone (key : K) (value : V) :
    (Tree.empty true).Fits insert [.alloc key value, .insert ⟨0, 0⟩ 0] :=
  of_decide_eq_true rfl

/-- After every history of a unique tree, whatever lengths its insertions compare over,
what a search finds is linked and looks like the key for as many bytes as are left of
the length of the search.  These are all of them exactly below `2 ^ 61`. -/
theorem search_honours_length_iff [Inhabited K] [Inhabited V] (length : Nat) :
    (∀ requests : List (Request K V Nat), (Tree.empty true).Fits insert requests →
      ∃ tree, (Tree.empty true).run insert requests = .ok tree ∧
        Honours tree length (length % 2 ^ 61)) ∧
    ((∀ requests : List (Request K V Nat), (Tree.empty true).Fits insert requests →
      ∀ tree, (Tree.empty true).run insert requests = .ok tree → Honours tree length length) ↔
        length < 2 ^ 61) := by
  have hrun : ∀ requests : List (Request K V Nat), (Tree.empty true).Fits insert requests →
      ∃ tree, (Tree.empty true).run insert requests = .ok tree ∧
        Honours tree length (length % 2 ^ 61) := by
    intro requests hfits
    obtain ⟨tree, shape, hrun, hungrouped⟩ := Ungrouped.empty.run hfits
    exact ⟨tree, hrun, hungrouped.honours length⟩
  refine ⟨hrun, fun hhonours => ?_, fun hlength requests hfits tree htree => ?_⟩
  · -- the query parts from the only key right behind the bytes that are left
    obtain ⟨tree, htree, hkey, hfinds⟩ := find?_lone (default : K) (default : V)
    have hcut := hfinds (altered (ByteKey.bytes (default : K)) (length % 2 ^ 61)) length
      ((padded_altered_eq_iff _ _ _).mpr (Nat.le_refl _))
    obtain ⟨answer, hfind, hanswer⟩ := hhonours _ (fits_lone default default) tree htree
      (altered (ByteKey.bytes (default : K)) (length % 2 ^ 61))
    obtain rfl : answer = some ⟨0, 0⟩ := Except.ok.inj (hfind.symm.trans hcut)
    obtain ⟨-, stored, hstored, hsame⟩ := hanswer _ rfl
    obtain rfl : stored = default := Option.some.inj (hstored.symm.trans hkey)
    have hle : length ≤ length % 2 ^ 61 := (padded_altered_eq_iff _ _ _).mp hsame
    exact Nat.lt_of_le_of_lt hle (Nat.mod_lt _ (by decide))
  · obtain ⟨after, hafter, hhonours⟩ := hrun requests hfits
    obtain rfl : after = tree := Except.ok.inj (hafter.symm.trans htree)
    rwa [Nat.mod_eq_of_lt hlength] at hhonours

/-- Four strings in a unique tree that are compared over three lengths.  Over two bytes
the last one is taken for the first, and it is linked over three. -/
private def uneven : List (Request String String Nat) :=
  [.alloc "ab" "first", .alloc "ac" "second", .alloc "b" "third", .alloc "abc" "fourth",
    .insert ⟨0, 0⟩ 2, .insert ⟨1, 0⟩ 2, .insert ⟨2, 0⟩ 1, .insert ⟨3, 0⟩ 2, .insert ⟨3, 0⟩ 3,
    .unlink ⟨0, 0⟩]

theorem search_honours_length_iff_uneven :
    (Tree.empty true).Fits insert uneven ∧
      (∃ tree, (Tree.empty true).run insert uneven = .ok tree ∧ Honours tree 3 3) ∧
      (∃ tree, (Tree.empty true).run insert uneven = .ok tree ∧ Honours tree (2 ^ 61 + 3) 3) ∧
      ¬ ∀ requests : List (Request String String Nat), (Tree.empty true).Fits insert requests →
        ∀ tree, (Tree.empty true).run insert requests = .ok tree →
          Honours tree (2 ^ 61 + 3) (2 ^ 61 + 3) := by
  have hfits : (Tree.empty true).Fits insert uneven := by decide +kernel
  refine ⟨hfits, (search_honours_length_iff 3).1 uneven hfits,
    (search_honours_length_iff (2 ^ 61 + 3)).1 uneven hfits, fun hhonours => ?_⟩
  exact absurd ((search_honours_length_iff (2 ^ 61 + 3)).2.mp hhonours) (by decide)

/-- A search over so many bytes that no bit is left of them finds a node of another key. -/
theorem search_finds_other_key :
    ∃ tree : ByteTree String String, (Tree.empty true).run insert
        [.alloc "a" "value", .insert ⟨0, 0⟩ 1] = .ok tree ∧
      tree.find? "b".toUTF8 (2 ^ 61) = .ok (some ⟨0, 0⟩) ∧ tree.key? ⟨0, 0⟩ = some "a" ∧
        padded (2 ^ 61) "a".toUTF8 ≠ padded (2 ^ 61) "b".toUTF8 ∧
        ¬ Honours tree (2 ^ 61) (2 ^ 61) := by
  have hparts : padded (2 ^ 61) "a".toUTF8 ≠ padded (2 ^ 61) "b".toUTF8 := fun hsame =>
    absurd (padded_eq_iff.mp hsame 0 (by decide)) (by decide +kernel)
  obtain ⟨tree, htree, hfind, hkey⟩ : ∃ tree : ByteTree String String,
      (Tree.empty true).run insert [.alloc "a" "value", .insert ⟨0, 0⟩ 1] = .ok tree ∧
        tree.find? "b".toUTF8 (2 ^ 61) = .ok (some ⟨0, 0⟩) ∧ tree.key? ⟨0, 0⟩ = some "a" :=
    ⟨_, rfl, by decide +kernel, rfl⟩
  refine ⟨tree, htree, hfind, hkey, hparts, fun hhonours => ?_⟩
  obtain ⟨answer, hanswer, hsame⟩ := hhonours "b".toUTF8
  obtain rfl : answer = some ⟨0, 0⟩ := Except.ok.inj (hanswer.symm.trans hfind)
  obtain ⟨-, stored, hstored, hequal⟩ := hsame _ rfl
  obtain rfl : stored = "a" := Option.some.inj (hstored.symm.trans hkey)
  exact hparts hequal

end ByteTree

end ElasticTree
