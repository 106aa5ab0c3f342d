import ElasticTree.Proofs.ByteTree.History
import ElasticTree.Proofs.ByteTree.Inspection
import ElasticTree.Proofs.ByteTree.Lengths
import ElasticTree.Proofs.Tree.Outline
import ElasticTree.Proofs.WordTree.History
import ElasticTree.Proofs.WordTree.Inspection

/-!
# Trees are sound after every step

Whatever a caller asks of a tree, its structure passes inspection after every
step, and what the inspection finds is there: the links unfold to a binary tree,
in which every role that a node records is played once.  This holds for trees of
byte strings even if the caller compares over another length each time.

If the keys are words, or byte strings that are always compared over the same
length, the keys pass inspection as well.
-/

namespace ElasticTree

open Shape

namespace Tree

variable {K V C : Type} {tree : Tree K V} {shape : Option Shape}

/-- The structure of the tree passes inspection, and the tree is the binary tree
that the inspection takes it for. -/
structure SoundAs (tree : Tree K V) (shape : Option Shape) : Prop where
  inspected : tree.inspectStructure.run = .ok (.ok ())
  forms : tree.FormsWith shape
  members_nodup : ∀ found ∈ shape, found.members.Nodup
  /-- Among the stored nodes one leaf position more is in use than branches. -/
  leaves_eq : (tree.nodes.entries.countP fun entry => entry.2.placement.position?.isSome) =
    (tree.nodes.entries.countP fun entry => entry.2.branch.isSome) + tree.root.isSome.toNat

/-- The tree is a binary tree with its keys where the discipline wants them, and
stepping back from any node retraces the step forward to it. -/
structure OrderedAs [LT C] [Inhabited C] (discipline : Discipline C) (view : K → C)
    (tree : Tree K V) (shape : Option Shape) : Prop where
  forms : tree.FormsWith shape
  obeys : ∀ found ∈ shape, found.Obeys discipline (tree.rank view)
  next_eq : ∀ front id back, shape.elim [] Shape.members = front ++ id :: back →
    tree.stepNext id = .ok back.head?
  prev_eq : ∀ front id back, shape.elim [] Shape.members = front ++ id :: back →
    tree.stepPrev id = .ok front.getLast?

theorem Stands.soundAs (h : tree.Stands shape) : tree.SoundAs shape where
  inspected := by
    rw [h.inspectStructure_eq]
    rfl
  forms := h.formsWith
  members_nodup _ hfound := (Option.mem_def.mp hfound ▸ h).draws.members_nodup
  leaves_eq := h.countP_placed

theorem Mirrors.orderedAs [LT C] [Inhabited C] {discipline : Discipline C}
    {view : K → C} {floor : Nat} {ledger : Ledger K V C}
    (h : Mirrors discipline view floor tree ledger shape) :
    OrderedAs discipline view tree shape where
  forms := h.stands.formsWith
  obeys := h.obeys
  next_eq _ _ _ hmembers := h.stands.stepNext_eq hmembers
  prev_eq _ _ _ hmembers := h.stands.stepPrev_eq hmembers

end Tree

/-! ## Structure -/

/-- After every step of every history the structure of the tree is sound, in a
tree of words of any width as in a tree of byte strings that are compared over
any lengths. -/
theorem structure_sound {K V : Type} [ByteKey K] (unique : Bool) :
    (∀ (width : Nat) (requests : List (Request (BitVec width) V Unit)), width < 2 ^ 31 →
      (Tree.empty unique).Fits WordTree.insertion requests → ∀ steps, steps <+: requests →
        ∃ tree shape, (Tree.empty unique).run WordTree.insertion steps = .ok tree ∧
          tree.SoundAs shape) ∧
    ∀ requests : List (Request K V Nat), requests.countP Request.isInsert < 2 ^ 31 →
      (Tree.empty unique).Fits ByteTree.insert requests → ∀ steps, steps <+: requests →
        ∃ tree shape, (Tree.empty unique).run ByteTree.insert steps = .ok tree ∧
          tree.SoundAs shape := by
  refine ⟨fun width requests hwidth hfits steps hsteps => ?_,
    fun requests hinserts hfits steps hsteps => ?_⟩
  · obtain ⟨tree, shape, hplay, hmirrors⟩ := WordTree.play_mirrors hwidth (hfits.of_prefix hsteps)
    refine ⟨tree, shape, ?_, hmirrors.stands.soundAs⟩
    rw [Tree.run_eq_play, hplay]
    rfl
  · -- nothing is known of the keys here, so the tree does not mirror a ledger
    have hcount : steps.countP Request.isInsert ≤ requests.countP Request.isInsert :=
      hsteps.sublist.countP_le
    obtain ⟨tree, shape, hrun, hholds⟩ := (Tree.Holds.empty unique).run
      (ByteTree.insert_maintains (2 ^ 31) (Nat.le_refl _)) (by omega) (hfits.of_prefix hsteps)
    exact ⟨tree, shape, hrun, hholds.stands.soundAs⟩

/-- Three nodes of the word five and one of the word three, of which the first goes
and leaves its leaf and its branch to others. -/
private def words : List (Request (BitVec 8) String Unit) :=
  [.alloc 5 "first", .alloc 3 "second", .alloc 5 "third", .alloc 5 "fourth", .insert ⟨1, 0⟩ (),
    .insert ⟨0, 0⟩ (), .insert ⟨2, 0⟩ (), .insert ⟨3, 0⟩ (), .setValue ⟨2, 0⟩ "heir",
    .unlink ⟨0, 0⟩, .free ⟨0, 0⟩]

/-- Three strings, of which the last is taken for equal to both of the others and
joins an ordinary branch as if it were that of a group. -/
private def strings : List (Request String String Nat) :=
  [.alloc "ab" "first", .alloc "ac" "second", .alloc "b" "third", .insert ⟨0, 0⟩ 2,
    .insert ⟨1, 0⟩ 2, .insert ⟨2, 0⟩ 0, .unlink ⟨1, 0⟩, .insert ⟨1, 0⟩ 1, .insert ⟨1, 0⟩ (2 ^ 40),
    .remove ⟨0, 0⟩]

theorem structure_sound_mixed_lengths :
    8 < 2 ^ 31 ∧ (Tree.empty false).Fits WordTree.insertion words ∧
      strings.countP Request.isInsert < 2 ^ 31 ∧ (Tree.empty false).Fits ByteTree.insert strings ∧
      (∀ steps, steps <+: words →
        ∃ tree shape, (Tree.empty false).run WordTree.insertion steps = .ok tree ∧
          tree.SoundAs shape) ∧
      ∀ steps, steps <+: strings →
        ∃ tree shape, (Tree.empty false).run ByteTree.insert steps = .ok tree ∧
          tree.SoundAs shape := by
  have hwidth : 8 < 2 ^ 31 := by decide
  have hwords : (Tree.empty false).Fits WordTree.insertion words := by decide +kernel
  have hinserts : strings.countP Request.isInsert < 2 ^ 31 := by decide
  have hstrings : (Tree.empty false).Fits ByteTree.insert strings := by decide +kernel
  exact ⟨hwidth, hwords, hinserts, hstrings,
    (structure_sound (K := String) (V := String) false).1 8 words hwidth hwords,
    (structure_sound (K := String) (V := String) false).2 strings hinserts hstrings⟩

/-! ## Keys -/

/-- After every step of every history the keys of the tree pass inspection, in a
tree of words of any width as in a tree of byte strings that are always compared
over the same length.  With fewer insertions than there are splits for a group no
step fails. -/
theorem keys_sound {K V : Type} [ByteKey K] (unique : Bool) :
    (∀ (width : Nat) (requests : List (Request (BitVec width) V Unit)), width < 2 ^ 31 →
      (Tree.empty unique).Fits WordTree.insertion requests → ∀ steps, steps <+: requests →
        ∃ tree shape, (Tree.empty unique).run WordTree.insertion steps = .ok tree ∧
          (WordTree.inspect tree).run = .ok (.ok ()) ∧
          tree.OrderedAs (Word.discipline width) (fun word => word) shape) ∧
    ∀ (length : Nat) (requests : List (Request K V Nat)), 8 * length < 2 ^ 31 →
      (∀ request ∈ requests, request.Allowed (· = length)) →
      (Tree.empty unique).Fits ByteTree.insert requests → ∀ steps, steps <+: requests →
        (steps.countP Request.isInsert < 2 ^ 31 →
          ∃ tree, (Tree.empty unique).run ByteTree.insert steps = .ok tree) ∧
        ∀ tree, (Tree.empty unique).run ByteTree.insert steps = .ok tree →
          (ByteTree.inspect tree length).run = .ok (.ok ()) ∧
          ∃ shape, tree.OrderedAs (ByteString.discipline length)
            (fun key => ByteString.padded length (ByteKey.bytes key)) shape := by
  refine ⟨fun width requests hwidth hfits steps hsteps => ?_,
    fun length requests hlength hallowed hfits steps hsteps =>
      ⟨fun hinserts => ?_, fun tree hrun => ?_⟩⟩
  · obtain ⟨tree, shape, hplay, hmirrors⟩ := WordTree.play_mirrors hwidth (hfits.of_prefix hsteps)
    refine ⟨tree, shape, ?_, ?_, hmirrors.orderedAs⟩
    · rw [Tree.run_eq_play, hplay]
      rfl
    · rw [WordTree.inspect_eq hmirrors.stands hmirrors.obeys]
      rfl
  · obtain ⟨tree, shape, hplay, -⟩ := ByteTree.play_mirrors hlength
      (fun request hrequest => hallowed request (hsteps.subset hrequest)) hinserts
      (hfits.of_prefix hsteps)
    refine ⟨tree, ?_⟩
    rw [Tree.run_eq_play, hplay]
    rfl
  · obtain ⟨shape, hmirrors⟩ := (Tree.Mirrors.empty unique).of_run (ByteTree.serves hlength)
      (fun request hrequest => hallowed request (hsteps.subset hrequest))
      (hfits.of_prefix hsteps) hrun
    refine ⟨?_, shape, hmirrors.orderedAs⟩
    rw [ByteTree.inspect_eq hlength hmirrors.stands hmirrors.obeys]
    rfl

/-- Four strings that are the same over one byte and one that is not, of which the
second goes and leaves a split of the group free for the last. -/
private def group : List (Request String String Nat) :=
  [.alloc "a" "first", .alloc "ab" "second", .alloc "ac" "third", .alloc "b" "fourth",
    .alloc "ad" "fifth", .insert ⟨0, 0⟩ 1, .insert ⟨1, 0⟩ 1, .insert ⟨2, 0⟩ 1, .insert ⟨3, 0⟩ 1,
    .remove ⟨1, 0⟩, .insert ⟨4, 0⟩ 1]

theorem keys_sound_grouped :
    8 < 2 ^ 31 ∧ (Tree.empty false).Fits WordTree.insertion words ∧ 8 * 1 < 2 ^ 31 ∧
      (∀ request ∈ group, request.Allowed (· = 1)) ∧ (Tree.empty false).Fits ByteTree.insert group ∧
      (∀ steps, steps <+: words →
        ∃ tree shape, (Tree.empty false).run WordTree.insertion steps = .ok tree ∧
          (WordTree.inspect tree).run = .ok (.ok ()) ∧
          tree.OrderedAs (Word.discipline 8) (fun word => word) shape) ∧
      ∃ tree, (Tree.empty false).run ByteTree.insert group = .ok tree ∧
        (ByteTree.inspect tree 1).run = .ok (.ok ()) ∧
        ∃ shape, tree.OrderedAs (ByteString.discipline 1)
          (fun key => ByteString.padded 1 (ByteKey.bytes key)) shape := by
  have hwidth : 8 < 2 ^ 31 := by decide
  have hwords : (Tree.empty false).Fits WordTree.insertion words := by decide +kernel
  have hlength : 8 * 1 < 2 ^ 31 := by decide
  have hallowed : ∀ request ∈ group, request.Allowed (· = 1) := by
    simp [group, Request.Allowed]
  have hgroup : (Tree.empty false).Fits ByteTree.insert group := by decide +kernel
  have hkeys := keys_sound (K := String) (V := String) false
  obtain ⟨hruns, hinspects⟩ :=
    hkeys.2 1 group hlength hallowed hgroup group (List.prefix_refl group)
  obtain ⟨tree, hrun⟩ := hruns (by decide)
  exact ⟨hwidth, hwords, hlength, hallowed, hgroup, hkeys.1 8 words hwidth hwords, tree, hrun,
    hinspects tree hrun⟩

end ElasticTree
