import ElasticTree.Proofs.Filtering
import ElasticTree.Proofs.Tree.Dealing
import ElasticTree.Proofs.WordTree.History
import ElasticTree.Proofs.WordTree.Search

/-!
# Ranges of words

The entries that a lower bound admits are the last ones of a listing, and those
that an upper bound admits are the first ones.  So the entries within two bounds
are a stretch of neighbours, and if there are any, it begins with the first that
the lower bound admits and ends with the last that the upper bound admits.  If the
former has the larger key of the two, no entry is within both bounds.
-/

namespace ElasticTree

open Shape

namespace WordTree

variable {width : Nat} {V : Type} {tree : WordTree width V} {shape : Option Shape}
  {lower upper : Bound width} {key larger : BitVec width} {entries : List (Entry (BitVec width) V)}

/-! ## Bounds -/

private theorem toNat_one_of_lt (h : 1 < 2 ^ width) : (1 : BitVec width).toNat = 1 :=
  Nat.mod_eq_of_lt h

/-- Above a word that is not the largest comes the word that is larger by one. -/
theorem add_one_le_iff (h : key ≠ .allOnes width) : key + 1 ≤ larger ↔ key < larger := by
  have hne : key.toNat ≠ 2 ^ width - 1 := fun heq => h (BitVec.eq_of_toNat_eq (by simpa using heq))
  have hlt := key.isLt
  rw [BitVec.le_def, BitVec.lt_def, BitVec.toNat_add, toNat_one_of_lt (by omega),
    Nat.mod_eq_of_lt (by omega)]
  omega

/-- Below a word that is not zero comes the word that is smaller by one. -/
theorem le_sub_one_iff (h : larger ≠ 0) : key ≤ larger - 1 ↔ key < larger := by
  have hne : larger.toNat ≠ 0 := fun heq => h (BitVec.eq_of_toNat_eq (by simpa using heq))
  have hlt := larger.isLt
  have hone : (1 : BitVec width).toNat = 1 := toNat_one_of_lt (by omega)
  have hle : 1 ≤ larger := by
    rw [BitVec.le_def]
    omega
  rw [BitVec.le_def, BitVec.lt_def, BitVec.toNat_sub_of_le hle, hone]
  omega

theorem Bound.admitsFrom_mono (hle : key ≤ larger) (h : lower.admitsFrom key = true) :
    lower.admitsFrom larger = true := by
  cases lower <;> simp only [admitsFrom, decide_eq_true_eq, BitVec.le_def, BitVec.lt_def] at * <;>
    omega

theorem Bound.admitsTo_anti (hle : key ≤ larger) (h : upper.admitsTo larger = true) :
    upper.admitsTo key = true := by
  cases upper <;> simp only [admitsTo, decide_eq_true_eq, BitVec.le_def, BitVec.lt_def] at * <;>
    omega

section Ends

variable (h : tree.Stands shape)
  (hobeys : ∀ found ∈ shape, found.Obeys (Word.discipline width) (wordOf tree))
include h hobeys

theorem firstWithin?_eq (lower : Bound width) : tree.firstWithin? lower =
    .ok ((shape.elim [] Shape.members).find? fun id => lower.admitsFrom (wordOf tree id)) := by
  cases lower with
  | included key => exact findGE?_eq h hobeys key
  | excluded key =>
      rw [firstWithin?]
      split_ifs with hlargest
      · rw [List.find?_eq_none.mpr fun id _ => ?_]
        have hlt := (wordOf tree id).isLt
        simp only [Bound.admitsFrom, decide_eq_true_eq, hlargest, BitVec.lt_def,
          BitVec.toNat_allOnes]
        omega
      · rw [findGE?_eq h hobeys]
        simp only [Bound.admitsFrom, add_one_le_iff hlargest]
  | unbounded =>
      have hall : ∀ id ∈ shape.elim [] Shape.members,
          Bound.unbounded.admitsFrom (wordOf tree id) = true := fun _ _ => rfl
      rw [firstWithin?, Tree.first, h.outermost_eq, ← find?_arranged_of_forall hall]
      rfl

theorem lastWithin?_eq (upper : Bound width) : tree.lastWithin? upper =
    .ok ((shape.elim [] Shape.members).reverse.find? fun id =>
      upper.admitsTo (wordOf tree id)) := by
  cases upper with
  | included key => exact findLE?_eq h hobeys key
  | excluded key =>
      rw [lastWithin?]
      split_ifs with hzero
      · rw [List.find?_eq_none.mpr fun id _ => ?_]
        simp [Bound.admitsTo, hzero]
      · rw [findLE?_eq h hobeys]
        simp only [Bound.admitsTo, le_sub_one_iff hzero]
  | unbounded =>
      have hall : ∀ id ∈ shape.elim [] Shape.members,
          Bound.unbounded.admitsTo (wordOf tree id) = true := fun _ _ => rfl
      rw [lastWithin?, Tree.last, h.outermost_eq, ← find?_arranged_of_forall hall]
      rfl

end Ends

/-! ## Ranges -/

/-- What is within two bounds are neighbours. -/
theorem filter_within_isInfix (h : entries.Pairwise fun first second => first.key ≤ second.key)
    (lower upper : Bound width) :
    (entries.filter fun entry => within lower upper entry.key) <:+: entries := by
  have hprefix : (entries.filter fun entry => upper.admitsTo entry.key) <+: entries :=
    filter_isPrefix (h.imp fun hle => Bound.admitsTo_anti hle)
  have hsuffix := filter_isSuffix ((h.sublist hprefix.sublist).imp fun hle =>
    @Bound.admitsFrom_mono _ lower _ _ hle)
  rw [List.filter_filter] at hsuffix
  exact hsuffix.isInfix.trans hprefix.isInfix

section Ordered

variable {first last : Entry (BitVec width) V}
  (hsorted : entries.Pairwise fun first second => first.key ≤ second.key)
  (hfront : (entries.find? fun entry => lower.admitsFrom entry.key) = some first)
  (hback : (entries.reverse.find? fun entry => upper.admitsTo entry.key) = some last)

include hfront in
private theorem admitsFrom_found : lower.admitsFrom first.key = true :=
  List.find?_some (p := fun entry : Entry (BitVec width) V => lower.admitsFrom entry.key) hfront

include hback in
private theorem admitsTo_found : upper.admitsTo last.key = true :=
  List.find?_some (p := fun entry : Entry (BitVec width) V => upper.admitsTo entry.key) hback

include hfront hback in
/-- What is within the bounds begins and ends with what the bounds lead to. -/
theorem ends_within (hle : first.key ≤ last.key) :
    (entries.filter fun entry => within lower upper entry.key).head? = some first ∧
      (entries.filter fun entry => within lower upper entry.key).getLast? = some last := by
  have hfrom := admitsFrom_found hfront
  have hto := admitsTo_found hback
  constructor
  · rw [List.head?_filter]
    refine find?_narrow hfront ?_ fun entry _ hwithin => ?_
    · simp [within, hfrom, Bound.admitsTo_anti hle hto]
    · exact (Bool.and_eq_true _ _ ▸ hwithin).1
  · rw [List.getLast?_eq_head?_reverse, ← List.filter_reverse, List.head?_filter]
    refine find?_narrow hback ?_ fun entry _ hwithin => ?_
    · simp [within, hto, Bound.admitsFrom_mono hle hfrom]
    · exact (Bool.and_eq_true _ _ ▸ hwithin).2

include hsorted hfront hback in
/-- Nothing is within bounds that lead past each other, for it would come between
what they lead to. -/
theorem not_within_of_not_le (hle : ¬ first.key ≤ last.key) {entry : Entry (BitVec width) V}
    (hentry : entry ∈ entries) : within lower upper entry.key = false := by
  refine eq_false_of_ne_true fun hwithin => hle ?_
  rw [within, Bool.and_eq_true] at hwithin
  have hbegins : first.key ≤ entry.key :=
    rel_of_find? hsorted (fun _ => BitVec.le_refl _) hfront hentry hwithin.1
  have hends : entry.key ≤ last.key :=
    rel_of_find? (List.pairwise_reverse.mpr hsorted) (fun _ => BitVec.le_refl _) hback
      (List.mem_reverse.mpr hentry) hwithin.2
  exact BitVec.le_trans hbegins hends

end Ordered

/-- The span that a range is resolved to has what is within the bounds left. -/
theorem range_eq (h : tree.Stands shape)
    (hobeys : ∀ found ∈ shape, found.Obeys (Word.discipline width) (wordOf tree))
    (hlists : tree.Lists entries) (hids : entries.map Entry.id = shape.elim [] Shape.members)
    (lower upper : Bound width) : ∃ span, tree.range lower upper = .ok span ∧
      tree.SpanOver shape span (entries.filter fun entry => within lower upper entry.key) := by
  have hsorted : entries.Pairwise fun first second => first.key ≤ second.key :=
    (hlists.sorted (fun word => word) hids hobeys).imp BitVec.not_lt.mp
  have hfirst : tree.firstWithin? lower =
      .ok ((entries.find? fun entry => lower.admitsFrom entry.key).map Entry.id) := by
    refine (hlists.answers (fun word => word) lower.admitsFrom (fun _ => Iff.rfl) ?_).first
    rw [hids, firstWithin?_eq h hobeys]
  have hlast : tree.lastWithin? upper =
      .ok ((entries.reverse.find? fun entry => upper.admitsTo entry.key).map Entry.id) := by
    refine (hlists.answers (fun word => word) upper.admitsTo (fun _ => List.mem_reverse) ?_).first
    rw [List.map_reverse, hids, lastWithin?_eq h hobeys]
  have hempty : (∀ entry ∈ entries, within lower upper entry.key = false) →
      tree.SpanOver shape .empty (entries.filter fun entry => within lower upper entry.key) := by
    intro hnone
    rw [List.filter_eq_nil_iff.mpr fun entry hentry => by simp [hnone entry hentry]]
    exact .empty
  cases hfront : entries.find? fun entry => lower.admitsFrom entry.key with
  | none =>
      rw [range, hfirst, hlast, hfront]
      refine ⟨.empty, rfl, hempty fun entry hentry => ?_⟩
      have hnot := List.find?_eq_none.mp hfront entry hentry
      simp [within, hnot]
  | some first =>
      cases hback : entries.reverse.find? fun entry => upper.admitsTo entry.key with
      | none =>
          rw [range, hfirst, hlast, hfront, hback]
          refine ⟨.empty, rfl, hempty fun entry hentry => ?_⟩
          have hnot := List.find?_eq_none.mp hback entry (List.mem_reverse.mpr hentry)
          simp [within, hnot]
      | some last =>
          obtain ⟨node, hnode, -, hkey, -⟩ :=
            (hlists.mem_iff first).mp (List.mem_of_find?_eq_some hfront)
          obtain ⟨node', hnode', -, hkey', -⟩ :=
            (hlists.mem_iff last).mp (List.mem_reverse.mp (List.mem_of_find?_eq_some hback))
          rw [range, hfirst, hlast, hfront, hback]
          simp only [Fault.ok_bind, Option.map_some, Tree.node_eq hnode,
            Tree.node_eq hnode', ← hkey, ← hkey']
          split_ifs with hle
          · obtain ⟨hhead, htail⟩ := ends_within hfront hback hle
            have hstretch : tree.Stretch shape
                (entries.filter fun entry => within lower upper entry.key) :=
              ⟨hids ▸ (filter_within_isInfix hsorted lower upper).map Entry.id, fun entry hentry =>
                hlists.entry_eq (List.mem_of_mem_filter hentry)⟩
            refine ⟨_, rfl, hstretch, ?_, ?_⟩
            · rw [List.head?_map, hhead, Option.map_some]
            · rw [List.getLast?_map, htail, Option.map_some]
          · exact ⟨.empty, rfl, hempty fun entry hentry =>
              not_within_of_not_le hsorted hfront hback hle hentry⟩

/-- Every range can be resolved, and its entries can be taken from both ends in any
order. -/
theorem range_ok (h : tree.Stands shape)
    (hobeys : ∀ found ∈ shape, found.Obeys (Word.discipline width) (wordOf tree))
    (lower upper : Bound width) :
    ∃ span, tree.range lower upper = .ok span ∧ ∀ directions, ∃ answers,
      pull (Span.take tree) directions span = .ok answers := by
  obtain ⟨entries, hids, hlists⟩ := h.lists
  obtain ⟨span, hspan, hover⟩ := range_eq h hobeys hlists hids lower upper
  refine ⟨span, hspan, fun directions => ?_⟩
  obtain ⟨answers, -, hpull, -⟩ := hover.deals h directions
  exact ⟨answers, hpull⟩

/-- After any history and for any two bounds, however they lie, a range deals out
the entries within both of them in the order of the tree, from either end as the
caller wants, each of them once and nothing after that. -/
theorem range_deals_within (hwidth : width < 2 ^ 31) (unique : Bool)
    (requests : List (Request (BitVec width) V Unit))
    (hfits : (Tree.empty unique).Fits insertion requests) :
    ∃ tree entries, (Tree.empty unique).run insertion requests = .ok tree ∧ tree.Lists entries ∧
      entries.Pairwise (fun first second => first.key ≤ second.key) ∧
      ∀ lower upper, ∃ span, range tree lower upper = .ok span ∧ ∀ directions, ∃ answers rest,
        pull (Span.take tree) directions span = .ok answers ∧
        Deals (entries.filter fun entry => within lower upper entry.key) directions
          answers rest := by
  obtain ⟨tree, shape, hplay, hmirrors⟩ := play_mirrors hwidth hfits
  obtain ⟨entries, hids, hlists⟩ := hmirrors.stands.lists
  refine ⟨tree, entries, Tree.run_of_play hplay, hlists,
    (hlists.sorted (fun word => word) hids hmirrors.obeys).imp BitVec.not_lt.mp,
    fun lower upper => ?_⟩
  obtain ⟨span, hspan, hover⟩ := range_eq hmirrors.stands hmirrors.obeys hlists hids lower upper
  exact ⟨span, hspan, hover.deals hmirrors.stands⟩

/-- Words with two equal ones among them. -/
private def spread : List (Request (BitVec 8) String Unit) :=
  [.alloc 50 "", .alloc 10 "", .alloc 40 "", .alloc 20 "", .alloc 30 "first", .alloc 30 "second",
    .insert ⟨0, 0⟩ (), .insert ⟨1, 0⟩ (), .insert ⟨2, 0⟩ (), .insert ⟨3, 0⟩ (), .insert ⟨4, 0⟩ (),
    .insert ⟨5, 0⟩ ()]

theorem range_deals_within_spread :
    8 < 2 ^ 31 ∧ (Tree.empty false).Fits insertion spread ∧
      ∃ tree entries, (Tree.empty false).run insertion spread = .ok tree ∧ tree.Lists entries ∧
        entries.Pairwise (fun first second => first.key ≤ second.key) ∧
        ∀ lower upper, ∃ span, range tree lower upper = .ok span ∧ ∀ directions, ∃ answers rest,
          pull (Span.take tree) directions span = .ok answers ∧
          Deals (entries.filter fun entry => within lower upper entry.key) directions
            answers rest := by
  have hwidth : 8 < 2 ^ 31 := by decide
  have hfits : (Tree.empty false).Fits insertion spread := by decide +kernel
  exact ⟨hwidth, hfits, range_deals_within hwidth false spread hfits⟩

/-- Both ends meet between two equal words. -/
example : (do
    let tree ← (Tree.empty false).run insertion spread
    let answers ← pull (Span.take tree) [.right, .left, .right, .left, .right, .left]
      (← range tree (.included 15) (.excluded 45))
    return answers.map (Option.map Entry.id) : Except Fault (List (Option NodeId))) =
      .ok [some ⟨3, 0⟩, some ⟨2, 0⟩, some ⟨4, 0⟩, some ⟨5, 0⟩, none, none] := by
  decide +kernel

end WordTree

end ElasticTree
