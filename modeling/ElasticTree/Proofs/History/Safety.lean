import ElasticTree.Proofs.Bits.Scanning
import ElasticTree.Proofs.ByteTree.Answering
import ElasticTree.Proofs.ByteTree.Lengths
import ElasticTree.Proofs.WordTree.History
import ElasticTree.Proofs.WordTree.Inspection
import ElasticTree.Proofs.WordTree.Range

/-!
# No history leads to a fault

After every history every operation comes to an end and none of them shows a
fault, whatever it is told.  This holds of trees of byte strings even when each
call compares over a length of its own, so that the keys are in no order at all.

Most of this follows from the tree standing, which says that all links lead to
what they should.  Two things have to be counted as well.  A member of a group
lowers a split by one, so the splits stay in the range of a branch only if there
are not too many insertions; and searching words tests bits at the splits, so these
have to be positions of a word.  Words are shifted by the splits as well, whether one
is looked for, inserted or inspected, and by all of their width where they part at the
top bit.  That no shift is a fault there is due to `Word.bitsFrom`.

Three kinds of numbers are bounded apart from that.  The counts of nodes and their
heights fit into a word of 64 bits, because there are no more nodes than names.
The lengths of byte strings that anything is compared over are numbers of whole
bytes in 64 bits or splits, and over these the scan for a difference keeps its
position in range.
-/

namespace ElasticTree

open Shape

/-! ## What it takes to be safe -/

/-- Whatever is asked of the tree, there is an answer, and the numbers involved are
in range: those of nodes, of heights and of splits. -/
structure Tree.Safe {K V L Q : Type} (insertion : Tree.Insertion K V L)
    (search : Tree K V → Q → Except Fault (Option NodeId)) (tree : Tree K V) : Prop where
  performs : ∀ request : Request K V L,
    ∃ reply after, tree.perform insertion request = .ok (reply, after)
  asks : ∀ query : Query Q, ∃ answer, tree.ask (search tree) query = .ok answer
  pulls : ∀ directions, ∃ entries, tree.pullAll directions = .ok entries
  inspects : tree.inspectStructure.Completes
  measures : ∃ statistics, tree.statistics = .ok statistics ∧ statistics.heightSum < 2 ^ 64
  counts : tree.nodes.Sound ∧ tree.linked ≤ tree.nodes.size ∧ tree.nodes.size ≤ 2 ^ 32
  splits : ∀ id branch, tree.branch id = .ok branch → -2 ^ 31 ≤ branch.split ∧ branch.split < 2 ^ 31

/-- A tree of words also answers what is only asked of words, and all its splits are
bit positions of them. -/
structure WordTree.Safe {width : Nat} {V : Type} (tree : WordTree width V) : Prop
    extends Tree.Safe WordTree.insertion WordTree.find? tree where
  nears : ∀ key, (∃ answer, tree.findGE? key = .ok answer) ∧ ∃ answer, tree.findLE? key = .ok answer
  ranges : ∀ lower upper, ∃ span, tree.range lower upper = .ok span ∧ ∀ directions, ∃ entries,
    pull (Span.take tree) directions span = .ok entries
  inspectsKeys : (WordTree.inspect tree).Completes
  positions : ∀ id branch, tree.branch id = .ok branch → 1 ≤ branch.split ∧ branch.split ≤ width

namespace ByteTree

variable {K V : Type} [ByteKey K]

/-- The numbers of bits over which a tree compares keys: the length that an
insertion accepts, the length that a search or an inspection is told, and the
split of a branch that is not in a group. -/
inductive Limit (tree : ByteTree K V) : Nat → Prop where
  | accepted {length bits : Nat} (bitLength_eq : bitLength length = .ok bits) : Limit tree bits
  | told (length : Nat) : Limit tree (bitLengthWrapped length)
  | split {id : NodeId} {branch : Branch} (branch_eq : tree.branch id = .ok branch)
      (plain : branch.isGroup = false) : Limit tree branch.split.toNat

/-- A tree of byte strings also answers what is only asked of them, and all scans
stay in range. -/
structure Safe (tree : ByteTree K V) : Prop
    extends Tree.Safe ByteTree.insert
      (fun tree (key, length) => ByteTree.find? tree key length) tree where
  inspectsKeys : ∀ length, (ByteTree.inspect tree length).Completes
  scans : ∀ first second known limit, Limit tree limit →
    ByteString.scan first second known limit = some (ByteString.commonBits first second known limit)

end ByteTree

/-! ## Why it is so -/

namespace Tree

variable {K V L Q : Type} {insertion : Insertion K V L} {tree : Tree K V} {shape : Option Shape}

/-- A standing tree is safe if its splits are in range and no request and no search
fails. -/
theorem Stands.safe {search : Tree K V → Q → Except Fault (Option NodeId)} (h : tree.Stands shape)
    (hsplits : ∀ split ∈ shape.elim [] Shape.splits, -2 ^ 31 ≤ split ∧ split < 2 ^ 31)
    (hperforms : ∀ request, ∃ reply after, tree.perform insertion request = .ok (reply, after))
    (hsearch : ∀ key, ∃ answer, search tree key = .ok answer) : tree.Safe insertion search where
  performs := hperforms
  asks := h.ask_ok hsearch
  pulls := h.pullAll_ok
  inspects := by
    rw [h.inspectStructure_eq]
    exact Inspection.pure_completes ()
  measures := ⟨_, h.statistics_eq, h.heightSum_lt⟩
  counts := by
    refine ⟨h.sound, ?_, (Arena.size_le_slotCount h.sound).trans h.sound.slotCount_le⟩
    rw [h.linked_eq]
    exact Arena.length_le_size h.sound h.draws.members_nodup fun id hid => h.live hid
  splits _ _ hbranch := hsplits _ (h.split_mem hbranch)

end Tree

/-- Every length that byte strings are compared over leaves room for one more
byte. -/
theorem ByteTree.Limit.add_le {K V : Type} [ByteKey K] {tree : ByteTree K V} {limit : Nat}
    (h : Limit tree limit)
    (hsplits : ∀ id branch, tree.branch id = .ok branch → branch.split < 2 ^ 31) :
    limit + 8 ≤ UInt64.size := by
  cases h with
  | @accepted length _ heq =>
      rw [bitLength] at heq
      split at heq
      · obtain rfl := Except.ok.inj heq
        calc 8 * length + 8
            ≤ 2 ^ 32 := by omega
          _ ≤ UInt64.size := by decide
      · cases heq
  | told length =>
      -- both the length and the size of the word are numbers of whole bytes
      have hlt : 8 * length % UInt64.size < UInt64.size := Nat.mod_lt _ (by decide)
      rw [bitLengthWrapped]
      rw [UInt64.size] at hlt ⊢
      omega
  | @split id branch hbranch =>
      have hsplit := hsplits id branch hbranch
      calc branch.split.toNat + 8
          ≤ 2 ^ 32 := by omega
        _ ≤ UInt64.size := by decide

/-- A tree that mirrors a ledger of words is safe. -/
theorem WordTree.safe_of_mirrors {width : Nat} {V : Type} {tree : WordTree width V}
    {shape : Option Shape} {floor : Nat} {ledger : Ledger (BitVec width) V (BitVec width)}
    (hwidth : width < 2 ^ 31)
    (h : Tree.Mirrors (Word.discipline width) (fun word => word) floor tree ledger shape) :
    WordTree.Safe tree := by
  have hadmits : ∀ split ∈ shape.elim [] Shape.splits, 1 ≤ split ∧ split ≤ width := by
    intro split hsplit
    cases shape with
    | none => simp at hsplit
    | some found => exact (h.obeys found rfl).admits split hsplit
  refine ⟨h.stands.safe (fun split hsplit => ?_) (fun request => ?_) fun key => ?_,
    fun key => ⟨?_, ?_⟩, range_ok h.stands h.obeys, ?_, fun id branch hbranch => ?_⟩
  · have := hadmits split hsplit
    omega
  · exact h.performs (serves hwidth) (by cases request <;> trivial) (lasts _)
  · exact ⟨_, find?_eq h.stands h.obeys key⟩
  · exact ⟨_, findGE?_eq h.stands h.obeys key⟩
  · exact ⟨_, findLE?_eq h.stands h.obeys key⟩
  · rw [inspect_eq h.stands h.obeys]
    exact Inspection.pure_completes ()
  · exact hadmits _ (h.stands.split_mem hbranch)

/-- A tree of byte strings that stands is safe as long as its splits have not fallen
as low as they can. -/
theorem ByteTree.safe_of_holds {K V : Type} [ByteKey K] {tree : ByteTree K V}
    {shape : Option Shape} {floor : Nat} (hfloor : floor < 2 ^ 31) (h : tree.Holds floor shape) :
    ByteTree.Safe tree := by
  have hsafe : Tree.Safe insert (fun tree (key, length) => find? tree key length) tree := by
    refine h.stands.safe (fun split hsplit => ?_) (fun request => ?_) fun (key, length) => ?_
    · have := h.bounded split hsplit
      omega
    · exact h.performs (insert_maintains _ (Nat.le_refl _)) hfloor request
    · exact find?_ok h.stands key length
  refine ⟨hsafe, inspect_completes h.stands, fun first second known limit hlimit => ?_⟩
  exact ByteString.scan_eq first second known
    (hlimit.add_le fun id branch hbranch => (hsafe.splits id branch hbranch).2)

/-! ## Histories -/

/-- No history fails, and what it leads to is safe: a tree of words, and a tree of
byte strings that are compared over any lengths. -/
theorem operations_safe {K V : Type} [ByteKey K] (unique : Bool) :
    (∀ (width : Nat) (requests : List (Request (BitVec width) V Unit)), width < 2 ^ 31 →
      (Tree.empty unique).Fits WordTree.insertion requests →
        ∃ tree, (Tree.empty unique).run WordTree.insertion requests = .ok tree ∧
          WordTree.Safe tree) ∧
    ∀ requests : List (Request K V Nat), requests.countP Request.isInsert < 2 ^ 31 →
      (Tree.empty unique).Fits ByteTree.insert requests →
        ∃ tree, (Tree.empty unique).run ByteTree.insert requests = .ok tree ∧
          ByteTree.Safe tree := by
  refine ⟨fun width requests hwidth hfits => ?_, fun requests hinserts hfits => ?_⟩
  · obtain ⟨tree, shape, hplay, hmirrors⟩ := WordTree.play_mirrors hwidth hfits
    refine ⟨tree, ?_, WordTree.safe_of_mirrors hwidth hmirrors⟩
    rw [Tree.run_eq_play, hplay]
    rfl
  · -- nothing is known of the keys here, so only the splits are kept in range
    obtain ⟨tree, shape, hrun, hholds⟩ := (Tree.Holds.empty unique).run
      (ByteTree.insert_maintains (2 ^ 31) (Nat.le_refl _)) (by omega) hfits
    exact ⟨tree, hrun, ByteTree.safe_of_holds (by omega) hholds⟩

/-- Two nodes of the word five and one of the word 128, from which they part at the top
bit.  The head of the ring goes and leaves its leaf and its branch to the other. -/
private def promoting : List (Request (BitVec 8) String Unit) :=
  [.alloc 128 "first", .alloc 5 "second", .alloc 5 "third", .insert ⟨0, 0⟩ (), .insert ⟨1, 0⟩ (),
    .insert ⟨2, 0⟩ (), .remove ⟨1, 0⟩, .unlink ⟨1, 0⟩]

/-- Three strings that are compared over three lengths, the last of which is too
long, and a name that was never issued. -/
private def muddling : List (Request String String Nat) :=
  [.alloc "ab" "first", .alloc "ac" "second", .alloc "b" "third", .insert ⟨0, 0⟩ 2,
    .insert ⟨1, 0⟩ 2, .insert ⟨2, 0⟩ 0, .unlink ⟨1, 0⟩, .insert ⟨1, 0⟩ (2 ^ 61), .insert ⟨7, 7⟩ 1,
    .insert ⟨1, 0⟩ 1]

theorem operations_safe_muddling :
    8 < 2 ^ 31 ∧ (Tree.empty false).Fits WordTree.insertion promoting ∧
      muddling.countP Request.isInsert < 2 ^ 31 ∧ (Tree.empty false).Fits ByteTree.insert muddling ∧
      (∃ tree, (Tree.empty false).run WordTree.insertion promoting = .ok tree ∧
        WordTree.Safe tree) ∧
      ∃ tree, (Tree.empty false).run ByteTree.insert muddling = .ok tree ∧ ByteTree.Safe tree := by
  have hwidth : 8 < 2 ^ 31 := by decide
  have hpromoting : (Tree.empty false).Fits WordTree.insertion promoting := by decide +kernel
  have hinserts : muddling.countP Request.isInsert < 2 ^ 31 := by decide
  have hmuddling : (Tree.empty false).Fits ByteTree.insert muddling := by decide +kernel
  exact ⟨hwidth, hpromoting, hinserts, hmuddling,
    (operations_safe (K := String) (V := String) false).1 8 promoting hwidth hpromoting,
    (operations_safe (K := String) (V := String) false).2 muddling hinserts hmuddling⟩

end ElasticTree
