import ElasticTree.Proofs.ByteTree.Groups
import ElasticTree.Proofs.Shape.Placement
import Mathlib.Data.Nat.Log

/-!
# The shape of a group that only ever grew

The members of a group are inserted one after the other, each as the last one.  As
long as none of them goes, the group is like a binary counter: on its left is a
perfect subtree of the largest power of two that leaves something for the right, and
on its right is the same for the rest (`Grown`).  The splits count the levels from the
bottom, so the split of a branch tells its height.

A value that is skipped on the right edge is a level at which there is still room on
the right.  At the deepest of them everything below is perfect (`Grown.perfect_of_tight`),
and so the new member makes a perfect subtree out of two, or starts a new one beside
it.
-/

namespace ElasticTree

namespace Shape

/-- All leaves are single nodes and are at the same depth, and the splits count the
levels. -/
inductive Perfect : Nat → Shape → Prop where
  | leaf (head : NodeId) : Perfect 0 (leaf head [])
  | branch {level : Nat} {left right : Shape} (owner : NodeId) (left_perfect : Perfect level left)
      (right_perfect : Perfect level right) :
      Perfect (level + 1) (branch owner (-(level + 1 : Nat)) left right)

/-- What is on the left of the right edge is perfect, and smaller further down. -/
inductive Grown : Nat → Shape → Prop where
  | leaf (head : NodeId) : Grown 0 (leaf head [])
  | branch {level below : Nat} {left right : Shape} (owner : NodeId)
      (left_perfect : Perfect level left)
      (right_grown : Grown below right) (below_le : below ≤ level) :
      Grown (level + 1) (branch owner (-(level + 1 : Nat)) left right)

/-- A node is put into the deepest place on the right edge where a value is skipped,
below a branch with the split `above`, or above everything. -/
inductive Grows (id : NodeId) : (above : Option Int) → Shape → Shape → Prop where
  | lowest {above : Option Int} {head : NodeId} {behind : List NodeId}
      (room : ∀ split ∈ above, split < -1) :
      Grows id above (leaf head behind) (branch id (-1) (leaf head behind) (leaf id []))
  | skipped {above : Option Int} {owner : NodeId} {split : Int} {left right : Shape}
      (room : ∀ upper ∈ above, upper + 1 < split) (tight : right.Tight split) :
      Grows id above (branch owner split left right)
        (branch id (split - 1) (branch owner split left right) (leaf id []))
  | under {above : Option Int} {owner : NodeId} {split : Int} {left right right' : Shape}
      (grows : Grows id (some split) right right') :
      Grows id above (branch owner split left right) (branch owner split left right')

variable {level : Nat} {shape shape' : Shape} {id old new : NodeId}

/-! ## Levels -/

namespace Perfect

theorem length_members (h : Perfect level shape) : shape.members.length = 2 ^ level := by
  induction h with
  | leaf head => rfl
  | branch owner _ _ ihleft ihright =>
      rw [members, List.length_append, ihleft, ihright, Nat.pow_succ, Nat.mul_two]

theorem height_eq (h : Perfect level shape) : shape.height = level := by
  induction h with
  | leaf head => rfl
  | branch owner _ _ ihleft ihright => rw [height, ihleft, ihright, Nat.max_self]

theorem chained_eq (h : Perfect level shape) : shape.chained = [] := by
  induction h with
  | leaf head => rfl
  | branch owner _ _ ihleft ihright => rw [chained, ihleft, ihright, List.append_nil]

theorem reown_iff : Perfect level (shape.reown old new) ↔ Perfect level shape := by
  constructor
  · intro h
    induction shape generalizing level with
    | leaf head behind => exact h
    | branch owner split left right ihleft ihright =>
        cases h with
        | branch _ hleft hright => exact .branch owner (ihleft hleft) (ihright hright)
  · intro h
    induction h with
    | leaf head => exact .leaf head
    | branch owner _ _ ihleft ihright => exact .branch _ ihleft ihright

theorem splits_neg (h : Perfect level shape) : ∀ split ∈ shape.splits, split < 0 := by
  induction h with
  | leaf head => simp [splits]
  | branch owner _ _ ihleft ihright =>
      intro split hsplit
      rw [splits, List.mem_cons, List.mem_append] at hsplit
      rcases hsplit with rfl | hsplit | hsplit
      · omega
      · exact ihleft split hsplit
      · exact ihright split hsplit

end Perfect

namespace Grown

/-- The members fill more than the left half. -/
theorem length_members (h : Grown level shape) :
    shape.members.length ≤ 2 ^ level ∧ (0 < level → 2 ^ (level - 1) < shape.members.length) := by
  induction h with
  | leaf head => simp [members]
  | @branch level below left right owner hleft _ hbelow ih =>
      have hpow : 2 ^ below ≤ 2 ^ level := Nat.pow_le_pow_right (by omega) hbelow
      have hright := List.length_pos_of_ne_nil right.members_ne_nil
      rw [members, List.length_append, hleft.length_members, Nat.pow_succ, Nat.add_sub_cancel]
      omega

/-- The level is how often the members can be halved. -/
theorem level_eq (h : Grown level shape) : level = Nat.clog 2 shape.members.length := by
  obtain ⟨hle, hlt⟩ := h.length_members
  refine Nat.le_antisymm ?_ ((Nat.clog_le_iff_le_pow (by omega)).mpr hle)
  rcases Nat.eq_zero_or_pos level with hzero | hpos
  · omega
  · have := (Nat.lt_clog_iff_pow_lt (by omega)).mpr (hlt hpos)
    omega

theorem height_eq (h : Grown level shape) : shape.height = level := by
  induction h with
  | leaf head => rfl
  | branch owner hleft _ hbelow ih => rw [height, hleft.height_eq, ih, Nat.max_eq_left hbelow]

theorem chained_eq (h : Grown level shape) : shape.chained = [] := by
  induction h with
  | leaf head => rfl
  | branch owner hleft _ _ ih => rw [chained, hleft.chained_eq, ih, List.append_nil]

theorem splits_neg (h : Grown level shape) : ∀ split ∈ shape.splits, split < 0 := by
  induction h with
  | leaf head => simp [splits]
  | branch owner hleft _ _ ih =>
      intro split hsplit
      rw [splits, List.mem_cons, List.mem_append] at hsplit
      rcases hsplit with rfl | hsplit | hsplit
      · omega
      · exact hleft.splits_neg split hsplit
      · exact ih split hsplit

theorem top?_eq (h : Grown level shape) (hlevel : 0 < level) :
    shape.top? = some (-(level : Int)) := by
  cases h with
  | leaf head => omega
  | branch owner => rfl

theorem reown_iff : Grown level (shape.reown old new) ↔ Grown level shape := by
  constructor
  · intro h
    induction shape generalizing level with
    | leaf head behind => exact h
    | branch owner split left right ihleft ihright =>
        cases h with
        | branch _ hleft hright hbelow =>
            exact .branch owner (Perfect.reown_iff.mp hleft) (ihright hright) hbelow
  · intro h
    induction h with
    | leaf head => exact .leaf head
    | branch owner hleft _ hbelow ih => exact .branch _ (Perfect.reown_iff.mpr hleft) ih hbelow

/-! ## Growing -/

/-- Where no value is skipped any more, all is filled. -/
theorem perfect_of_tight {below : Nat} (h : Grown below shape) (hlevel : below ≤ level)
    (htight : shape.Tight (-((level + 1 : Nat) : Int))) : Perfect level shape := by
  induction h generalizing level with
  | leaf head =>
      obtain rfl : level = 0 := by
        rw [Tight] at htight
        omega
      exact .leaf head
  | @branch lower below left right owner hleft _ hbelow ih =>
      obtain ⟨hskip, htight⟩ := htight
      obtain rfl : level = lower + 1 := by omega
      exact .branch owner hleft (ih hbelow htight)

/-- A new member keeps the shape a group has, and the level stays below that of the
branch above. -/
theorem grows (h : Grown level shape) {above : Option Int} (hgrows : Grows id above shape shape') :
    ∃ level', Grown level' shape' ∧
      ∀ upper : Nat, above = some (-((upper + 1 : Nat) : Int)) → level ≤ upper →
        level' ≤ upper := by
  induction hgrows generalizing level with
  | @lowest above head behind room =>
      cases h
      refine ⟨1, .branch id (.leaf head) (.leaf id) (Nat.le_refl 0), fun upper habove _ => ?_⟩
      have := room _ habove
      omega
  | @skipped above owner split left right room tight =>
      -- all that is below the place is perfect, and becomes the left side
      cases h with
      | @branch level below _ _ _ hleft hright hbelow =>
          have hperfect := hright.perfect_of_tight hbelow tight
          refine ⟨level + 2, ?_, fun upper habove _ => ?_⟩
          · have hsplit : -((level + 1 : Nat) : Int) - 1 =
                -((level + 1 + 1 : Nat) : Int) := by omega
            rw [hsplit]
            exact .branch id (.branch owner hleft hperfect) (.leaf id) (Nat.zero_le _)
          · have := room _ habove
            omega
  | @under above owner split left right right' hgrows ih =>
      cases h with
      | @branch level below _ _ _ hleft hright hbelow =>
          obtain ⟨below', hgrown, hle⟩ := ih hright
          exact ⟨level + 1, .branch owner hleft hgrown (hle level rfl hbelow),
            fun _ _ hlevel => hlevel⟩

end Grown

/-- The new member comes last. -/
theorem Grows.members_eq {above : Option Int} (h : Grows id above shape shape') :
    shape'.members = shape.members ++ [id] := by
  induction h with
  | lowest room => rfl
  | skipped room tight => rfl
  | under _ ih => rw [members, members, ih, List.append_assoc]

/-- A gap on the right edge of a group is where the group grows. -/
theorem Grows.of_gap {edge : Context} {hole : Shape} {place : Int} (hgap : Gap edge hole place)
    (hright : ∀ frame ∈ edge, frame.side = .right) :
    Grows id none (edge.plug hole) (edge.plug (branch id place hole (leaf id []))) := by
  -- what hangs in a frame grows below its branch, and this goes up to the root
  have hplug : ∀ {edge : Context} {shape shape' : Shape}, (∀ frame ∈ edge, frame.side = .right) →
      Grows id (edge.head?.map Frame.split) shape shape' →
        Grows id none (edge.plug shape) (edge.plug shape') := by
    intro edge
    induction edge with
    | nil => exact fun _ hgrows => hgrows
    | cons frame outer ih =>
        intro shape shape' hright hgrows
        obtain ⟨hside, houter⟩ := List.forall_mem_cons.mp hright
        refine ih houter ?_
        obtain ⟨owner, split, side, sibling⟩ := frame
        obtain rfl : side = .right := hside
        exact .under hgrows
  refine hplug hright ?_
  cases hgap with
  | lowest room => exact .lowest (by simpa using room)
  | skipped room tight => exact .skipped (by simpa using room) tight

end Shape

end ElasticTree
