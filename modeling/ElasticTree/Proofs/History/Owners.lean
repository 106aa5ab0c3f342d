import ElasticTree.Proofs.Bits.Splitting
import ElasticTree.Proofs.History.Joining
import ElasticTree.Proofs.WordTree.Search

/-!
# Owners speak for what is below

A tree of words compares with the owner of a branch only, and the owner may change
whenever a node is unlinked.  Since the keys below a branch agree from its split up,
this makes no difference: a word that goes another way does so for all of them, at
one split and to one side.
-/

namespace ElasticTree

open Shape

namespace WordTree

variable {width : Nat} {V : Type} {tree : WordTree width V} {owner : NodeId}

/-- What is found out about the key of the owner, `stored`, holds of the key `known`
as well: whether a key goes another way than the branch, and if it does, on which
side of the branch it lies and what comes of linking it there. -/
structure SpeaksFor (tree : WordTree width V) (owner : NodeId) (split : Int)
    (stored known : BitVec width) : Prop where
  diverge_eq : ∀ key, ∃ parted, Word.diverge key stored split = .ok parted ∧
    Word.diverge key known split = .ok parted
  lies_eq : ∀ direction key, Word.diverge key stored split = .ok true →
    liesAbove direction stored key split = .ok (lies direction known key)
  linkAbove_eq : ∀ id key position, Word.diverge key stored split = .ok true →
    tree.linkAbove id key position (.branch owner) =
      tree.insertAbove id position (.branch owner) (if known < key then .right else .left)
        (Word.splitOf key known)

/-- The owners of all branches speak for all nodes below. -/
def OwnersSpeak (tree : WordTree width V) : Prop :=
  ∀ owner node branch, tree.nodes.get? owner = some node → node.branch = some branch →
    ∃ below, tree.Unfolds branch.position (.branch owner) below ∧ ∀ id ∈ below.members,
      ∃ other, tree.nodes.get? id = some other ∧
        tree.SpeaksFor owner branch.split node.key other.key

theorem speaksFor_of_agreeFrom {node : Node (BitVec width) V} {split : Int} {known : BitVec width}
    (hnode : tree.node owner = .ok node) (hsplit : 0 ≤ split)
    (hagree : Word.AgreeFrom split node.key known) : tree.SpeaksFor owner split node.key known where
  diverge_eq key := by
    have hsame : Word.AgreeFrom split key node.key ↔ Word.AgreeFrom split key known := by
      refine not_iff_not.mp ⟨Word.not_agreeFrom_of_agreeFrom hagree, ?_⟩
      exact Word.not_agreeFrom_of_agreeFrom fun i hi => (hagree i hi).symm
    refine ⟨_, Word.diverge_eq hsplit, ?_⟩
    rw [Word.diverge_eq hsplit, Except.ok.injEq, decide_eq_decide, ← not_le, ← not_le,
      ← Word.agreeFrom_iff hsplit, ← Word.agreeFrom_iff hsplit, hsame]
  lies_eq direction key hdiverge :=
    liesAbove_eq hsplit hagree
      (Word.not_agreeFrom_of_agreeFrom hagree ((Word.diverge_eq_true_iff hsplit).mp hdiverge))
  linkAbove_eq id key position hdiverge := by
    have hnot := (Word.diverge_eq_true_iff hsplit).mp hdiverge
    have hsplits := Word.splitOf_eq_of_agreeFrom hagree hnot
    have hsides := (Word.lt_iff_of_agreeFrom hagree hnot hsplit).2
    rw [linkAbove, Link.node, hnode, Fault.ok_bind]
    simp only [hsplits, hsides]

/-- In a tree with all words where they belong, the owners speak for all below. -/
theorem ownersSpeak {shape : Option Shape} (h : tree.Stands shape)
    (hobeys : ∀ found ∈ shape, found.Obeys (Word.discipline width) (wordOf tree)) :
    tree.OwnersSpeak := by
  intro owner node branch hnode hbranch
  -- what the owner records of its branch is what stands in the shape
  obtain ⟨context, split, left, right, rfl, rfl⟩ := h.exists_plug_of_branch hnode hbranch
  have hbelow := (obeys_plug_iff.mp (hobeys _ rfl)).1
  have hadmits : 1 ≤ split ∧ split ≤ width := hbelow.1.admits
  have hsplit : 0 ≤ split := by omega
  refine ⟨_, h.unfolds, fun id hid => ?_⟩
  obtain ⟨other, hother⟩ := Option.isSome_iff_exists.mp (h.live (mem_members_plug context hid))
  have hagree : Word.AgreeFrom split (wordOf tree owner) (wordOf tree id) :=
    hbelow.agrees_owner h.covered hid
  have hstored : wordOf tree owner = node.key := Tree.rank_of_get? (fun word => word) hnode
  have hknown : wordOf tree id = other.key := Tree.rank_of_get? (fun word => word) hother
  rw [hstored, hknown] at hagree
  exact ⟨other, hother, speaksFor_of_agreeFrom (Tree.node_eq hnode) hsplit hagree⟩

/-- Words part at the place of the highest bit in which they differ.  This is a bit of
theirs, the one below it tells which of them is larger, and the same is left of both if
and only if no less than it is shifted out, however much that is.

Where two words agree from some bit up and a third does not agree with them, the third
parts from both at the same split, which is higher, and compares with both alike.  So
after any history the owner of a branch is as good as any node below it, whether a key
is to be told apart, to be placed on a side or to be linked. -/
theorem splitting_exact (unique : Bool) (width : Nat) :
    (∀ first second : BitVec width, first ≠ second →
      Word.splitOf first second = Word.highestBit (first ^^^ second) ∧
        1 ≤ Word.splitOf first second ∧ Word.splitOf first second ≤ width ∧
        (∀ count : Nat,
          (∃ high high', Word.bitsFrom first count = .ok high ∧
            Word.bitsFrom second count = .ok high' ∧
            (high = high' ↔ Word.splitOf first second ≤ count)) ∧
          Word.diverge first second count = .ok (decide (count < Word.splitOf first second))) ∧
        ∃ side : Side, Word.sideOf first (Word.splitOf first second) = .ok side ∧
          Word.sideOf second (Word.splitOf first second) = .ok side.opposite ∧
            (second < first ↔ side = .right)) ∧
    (∀ (first second third : BitVec width) (split : Nat),
      Word.AgreeFrom split second third → ¬ Word.AgreeFrom split first second →
        Word.splitOf first second = Word.splitOf first third ∧
          split < Word.splitOf first second ∧
          (first < second ↔ first < third) ∧ (second < first ↔ third < first)) ∧
    ∀ requests : List (Request (BitVec width) V Unit), width < 2 ^ 31 →
      (Tree.empty unique).Fits insertion requests →
        ∃ tree, (Tree.empty unique).run insertion requests = .ok tree ∧ OwnersSpeak tree := by
  refine ⟨fun first second hne => ?_, fun first second third split hagree hnot => ?_,
    fun requests hwidth hfits => ?_⟩
  · obtain ⟨hpos, hle⟩ := Word.admits_splitOf hne
    obtain ⟨hfirst, hsecond⟩ := Word.sideOf_splitOf hne
    refine ⟨congrArg Int.ofNat (Word.topBit_eq_highestBit _), hpos, hle, fun count => ?_,
      _, hfirst, hsecond, by simp⟩
    have hcount : (0 : Int) ≤ count := Int.natCast_nonneg count
    exact ⟨Word.exists_bitsFrom first second count, Word.diverge_eq hcount⟩
  · exact ⟨Word.splitOf_eq_of_agreeFrom hagree hnot, Word.lt_splitOf hnot,
      Word.lt_iff_of_agreeFrom hagree hnot (Int.natCast_nonneg split)⟩
  · obtain ⟨tree, shape, hrun, hstands, hobeys⟩ := run_inOrder hwidth hfits
    exact ⟨tree, hrun, ownersSpeak hstands hobeys⟩

/-- The word 95 lends its branch to the tree and goes, and the word 94 takes the branch
over, with the word 80 on the other side. -/
private def relocated : List (Request (BitVec 8) String Unit) :=
  [.alloc 80 "first", .alloc 95 "second", .alloc 94 "third", .insert ⟨0, 0⟩ (),
    .insert ⟨1, 0⟩ (), .insert ⟨2, 0⟩ (), .unlink ⟨1, 0⟩]

/-- The top bit of the widest words. -/
private def topmost : BitVec 128 := BitVec.twoPow 128 127

theorem splitting_exact_relocated :
    topmost ≠ 1 ∧ Word.splitOf topmost 1 = 128 ∧
      (∃ high, Word.bitsFrom topmost 128 = .ok high ∧
        Word.bitsFrom (1 : BitVec 128) 128 = .ok high) ∧
      (∃ side, Word.sideOf topmost 128 = .ok side ∧
        Word.sideOf (1 : BitVec 128) 128 = .ok side.opposite) ∧
      Word.AgreeFrom 4 (94 : BitVec 8) 80 ∧ ¬ Word.AgreeFrom 4 (16 : BitVec 8) 94 ∧
      Word.splitOf (16 : BitVec 8) 94 = Word.splitOf (16 : BitVec 8) 80 ∧
        4 < Word.splitOf (16 : BitVec 8) 94 ∧
      8 < 2 ^ 31 ∧ (Tree.empty false).Fits insertion relocated ∧
      ∃ tree, (Tree.empty false).run insertion relocated = .ok tree ∧
        ∃ below, tree.Unfolds .root (.branch ⟨2, 0⟩) below ∧ ∀ id ∈ below.members,
          ∃ other, tree.nodes.get? id = some other ∧ SpeaksFor tree ⟨2, 0⟩ 4 94 other.key := by
  have hne : topmost ≠ 1 := by decide +kernel
  have hwide : Word.splitOf topmost 1 = 128 := by decide +kernel
  have hagree : Word.AgreeFrom 4 (94 : BitVec 8) 80 :=
    (Word.diverge_eq_false_iff (by decide)).mp (by decide +kernel)
  have hnot : ¬ Word.AgreeFrom 4 (16 : BitVec 8) 94 :=
    (Word.diverge_eq_true_iff (by decide)).mp (by decide +kernel)
  have hwidth : 8 < 2 ^ 31 := by decide
  have hfits : (Tree.empty false).Fits insertion relocated := by decide +kernel
  have hrecord : ((Tree.empty false).run insertion relocated).map (fun tree =>
      (tree.nodes.get? ⟨2, 0⟩).map fun node => (node.key, node.branch)) =
        .ok (some (94, some ⟨.root, .leaf ⟨0, 0⟩, .leaf ⟨2, 0⟩, 4⟩)) := by decide +kernel
  obtain ⟨-, -, -, hcounts, side, hfirst, hsecond, -⟩ :=
    (splitting_exact (V := String) false 128).1 topmost 1 hne
  obtain ⟨-, hthree, hruns⟩ := splitting_exact (V := String) false 8
  obtain ⟨⟨high, high', hhigh, hhigh', hsame⟩, -⟩ := hcounts 128
  obtain ⟨hsplit, hlt, -⟩ := hthree 16 94 80 4 hagree hnot
  obtain ⟨tree, hrun, hspeak⟩ := hruns relocated hwidth hfits
  rw [hwide] at hsame hfirst hsecond
  obtain rfl := hsame.mpr (by decide)
  rw [hrun, Except.map, Except.ok.injEq, Option.map_eq_some_iff] at hrecord
  obtain ⟨node, hnode, hpair⟩ := hrecord
  obtain ⟨hkey, hbranch⟩ := Prod.mk.inj hpair
  have hbelow := hspeak ⟨2, 0⟩ node _ hnode hbranch
  rw [hkey] at hbelow
  exact ⟨hne, hwide, ⟨high, hhigh, hhigh'⟩, ⟨side, hfirst, hsecond⟩, hagree, hnot, hsplit, hlt,
    hwidth, hfits, tree, hrun, hbelow⟩

end WordTree

end ElasticTree
