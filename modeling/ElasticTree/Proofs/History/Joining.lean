import ElasticTree.Proofs.ByteTree.Lengths
import ElasticTree.Proofs.WordTree.History

/-!
# Joining a tree, whatever the keys are

What becomes of the links when a node is linked does not depend on why it goes
where it goes.  Here insertions are seen from that side only: on a tree that a
history has led to, an insertion refuses the node, or finds another one in its
place, or lets it join, unless there are no splits left for it (`Insertion.Joins`).

What has to hold of a tree for this differs with the keys.  Words find their way
down by the words that are there already, so these have to be where they belong.
Byte strings find some way down in any case, and only the splits are counted.
-/

namespace ElasticTree

open Shape

namespace Tree

variable {K V L : Type}

/-- On the trees that `holds` is said of, the insertion answers, and it lets a node
join that is detached, if it accepts what it is told.  It may only fail if the splits
do not last for one more of it. -/
structure Insertion.Joins (insertion : Insertion K V L) (accepts : L → Prop) (lasts : Nat → Prop)
    (holds : Nat → Tree K V → Option Shape → Prop) : Prop where
  stands : ∀ {floor tree shape}, holds floor tree shape → tree.Stands shape
  clear : ∀ {floor tree shape}, holds floor tree shape → holds 0 tree.clear none
  inserts : ∀ {floor tree shape}, holds floor tree shape → ∀ id how,
    (∃ answer after shape', insertion tree id how = .ok (answer, after) ∧
      tree.Joined (accepts how) shape id answer after shape' ∧ holds (floor + 1) after shape') ∨
    insertion tree id how = .error .splitOverflow ∧ ¬ lasts (floor + 1)

/-- An insertion that answers has refused the node, or found another in its place, or
let it join. -/
theorem Insertion.Joins.of_ok {insertion : Insertion K V L} {accepts : L → Prop}
    {lasts : Nat → Prop} {holds : Nat → Tree K V → Option Shape → Prop} {floor : Nat}
    {tree after : Tree K V}
    {shape : Option Shape} {id : NodeId} {how : L} {answer : Except Refusal NodeId}
    (hjoins : insertion.Joins accepts lasts holds) (h : holds floor tree shape)
    (hinsert : insertion tree id how = .ok (answer, after)) :
    ∃ shape', tree.Joined (accepts how) shape id answer after shape' := by
  rcases hjoins.inserts h id how with ⟨answer', after', shape', hinsert', hjoined, -⟩ | ⟨hover, -⟩
  · rw [hinsert', Except.ok.injEq, Prod.mk.injEq] at hinsert
    obtain ⟨rfl, rfl⟩ := hinsert
    exact ⟨shape', hjoined⟩
  · rw [hover] at hinsert
    cases hinsert

end Tree

namespace WordTree

variable {width : Nat} {V : Type}

/-- The tree stands with all words where they belong.  Splits do not run out in trees
of words, so they are not counted. -/
def InOrder (_ : Nat) (tree : WordTree width V) (shape : Option Shape) : Prop :=
  tree.Stands shape ∧ ∀ found ∈ shape, found.Obeys (Word.discipline width) (wordOf tree)

theorem joins (hwidth : width < 2 ^ 31) :
    (insertion : Tree.Insertion (BitVec width) V Unit).Joins (fun _ => True) (fun _ => True)
      InOrder where
  stands h := h.1
  clear h := ⟨h.1.clear, by simp⟩
  inserts {floor tree shape} h id how := by
    obtain ⟨hstands, hobeys⟩ := h
    left
    cases hnode : tree.nodes.get? id with
    | none =>
        refine ⟨.error (.unknownNode id), tree, shape, ?_, .refused _ (.inl ?_), hstands, hobeys⟩
        · rw [insertion, WordTree.insert, Tree.expectDetached_of_none hnode]
        · simp [Arena.Live, hnode]
    | some node =>
        by_cases hid : id ∈ shape.elim [] Shape.members
        · refine ⟨.error (.alreadyLinked id), tree, shape, ?_,
            .refused _ (.inr (.inl hid)), hstands, hobeys⟩
          rw [insertion, WordTree.insert, hstands.expectDetached_of_mem hnode hid]
        · have hinserts := insert_insertsInto hwidth hstands hobeys hnode hid
          rw [insertion]
          generalize WordTree.insert tree id = result at hinserts
          cases hinserts with
          | held holder front back hunique hmembers =>
              exact ⟨_, tree, shape, rfl, .held holder hunique (by simp [hmembers]) hid,
                hstands, hobeys⟩
          | linked after found hafter hkeeps hfound _ _ _ hadds =>
              refine ⟨_, after, some found, rfl, .linked after found hadds hafter hkeeps,
                hafter, ?_⟩
              rw [wordOf, hkeeps.rank_eq]
              simpa using hfound
          | overflowed hmem =>
              -- all splits are positive
              cases shape with
              | none => simp at hmem
              | some found =>
                  have hadmits : (1 : Int) ≤ -2 ^ 31 := ((hobeys found rfl).admits _ hmem).1
                  omega

/-- A history leads to a tree with all words where they belong. -/
theorem run_inOrder (hwidth : width < 2 ^ 31) {unique : Bool}
    {requests : List (Request (BitVec width) V Unit)}
    (hfits : (Tree.empty unique).Fits insertion requests) :
    ∃ tree shape, (Tree.empty unique).run insertion requests = .ok tree ∧ InOrder 0 tree shape := by
  obtain ⟨tree, shape, hplay, hmirrors⟩ := play_mirrors hwidth hfits
  exact ⟨tree, shape, Tree.run_of_play hplay, hmirrors.stands, hmirrors.obeys⟩

end WordTree

namespace ByteTree

variable {K V : Type} [ByteKey K]

/-- The tree stands, and its splits are no lower than insertions can have made them.
They are lowered by one at a time, and not below what a branch can hold. -/
def InRange (floor : Nat) (tree : ByteTree K V) (shape : Option Shape) : Prop :=
  tree.Holds (min floor (2 ^ 31)) shape

theorem joins : Tree.Insertion.Joins (insert : Tree.Insertion K V Nat) (8 * · < 2 ^ 31) (· ≤ 2 ^ 31)
    InRange where
  stands h := Tree.Holds.stands h
  clear h := ⟨(Tree.Holds.stands h).clear, by simp⟩
  inserts {floor tree shape} h id length := by
    rcases insert_joined (Nat.min_le_right floor _) h id length with
      ⟨answer, after, shape', hinsert, hjoined, hafter⟩ | ⟨hover, heq⟩
    · exact .inl ⟨answer, after, shape', hinsert, hjoined, hafter.raise (by omega)⟩
    · exact .inr ⟨hover, by omega⟩

/-- What a history leads to has its splits in range, and they have been lowered no
more often than nodes were inserted. -/
theorem inRange_of_run {unique : Bool} {requests : List (Request K V Nat)} {tree : ByteTree K V}
    (hfits : (Tree.empty unique).Fits insert requests)
    (hrun : (Tree.empty unique).run insert requests = .ok tree) :
    ∃ shape, InRange (requests.countP Request.isInsert) tree shape := by
  by_cases hinserts : requests.countP Request.isInsert < 2 ^ 31
  · obtain ⟨after, shape, hafter, hholds⟩ := (Tree.Holds.empty unique).run
      (insert_maintains (2 ^ 31) (Nat.le_refl _)) (by omega) hfits
    rw [hrun] at hafter
    obtain rfl : tree = after := Except.ok.inj hafter
    exact ⟨shape, hholds.raise (by omega)⟩
  · obtain ⟨shape, hholds⟩ := ((Tree.Holds.empty unique).raise (Nat.zero_le _)).of_run
      insert_survives hfits hrun
    exact ⟨shape, hholds.raise (by omega)⟩

/-- As long as there are not too many insertions, no history fails. -/
theorem run_ok {unique : Bool} {requests : List (Request K V Nat)}
    (hinserts : requests.countP Request.isInsert < 2 ^ 31)
    (hfits : (Tree.empty unique).Fits insert requests) :
    ∃ tree, (Tree.empty unique).run insert requests = .ok tree := by
  obtain ⟨tree, shape, hrun, -⟩ := (Tree.Holds.empty unique).run
    (insert_maintains (2 ^ 31) (Nat.le_refl _)) (by omega) hfits
  exact ⟨tree, hrun⟩

end ByteTree

end ElasticTree
