import ElasticTree.Proofs.History.Mirror

/-!
# Histories whatever the keys are

A tree stands after every history, even if its keys are not where they belong.
This matters for trees of byte strings: nothing prevents a caller from comparing
over another length each time, and then the keys are in no order at all.

All that insertion has to know is that the splits are not at the limits of what a
branch can hold.  `Holds` keeps count of how far down they may be; how far up
they may be is given by the longest key that is accepted.
-/

namespace ElasticTree

open Shape

namespace Tree

variable {K V L : Type} {insertion : Insertion K V L} {tree after : Tree K V}
  {shape shape' : Option Shape} {floor next bound : Nat} {id : NodeId}

/-- The tree stands, and its splits are within bounds. -/
structure Holds (floor : Nat) (tree : Tree K V) (shape : Option Shape) : Prop where
  stands : tree.Stands shape
  bounded : ∀ split ∈ shape.elim [] Shape.splits, -(floor : Int) ≤ split ∧ split ≤ 2 ^ 31 - 8

/-- An insertion keeps a tree standing, as long as the splits have not fallen as
low as `bound`. -/
def Insertion.Maintains (insertion : Insertion K V L) (bound : Nat) : Prop :=
  ∀ {tree : Tree K V} {shape : Option Shape} {floor : Nat}, floor < bound → Holds floor tree shape →
    ∀ id how, ∃ answer after shape', insertion tree id how = .ok (answer, after) ∧
      Holds (floor + 1) after shape'

/-- Whatever it is told, an insertion keeps a tree standing and lowers the splits by
one at most, and if they are as low as can be, there may be none left for it. -/
def Insertion.Survives (insertion : Insertion K V L) : Prop :=
  ∀ {tree : Tree K V} {shape : Option Shape} {floor : Nat}, floor ≤ 2 ^ 31 →
    Holds floor tree shape →
    ∀ id how, (∃ answer after shape', insertion tree id how = .ok (answer, after) ∧
        Holds (min (floor + 1) (2 ^ 31)) after shape') ∨
      insertion tree id how = .error .splitOverflow ∧ floor = 2 ^ 31

theorem Insertion.Survives.maintains (h : insertion.Survives) (hbound : bound ≤ 2 ^ 31) :
    insertion.Maintains bound := by
  intro tree shape floor hfloor hholds id how
  rcases h (by omega) hholds id how with ⟨answer, after, shape', hinsert, hafter⟩ | ⟨-, heq⟩
  · rw [Nat.min_eq_left (by omega)] at hafter
    exact ⟨answer, after, shape', hinsert, hafter⟩
  · omega

namespace Holds

theorem empty (unique : Bool) : Holds 0 (Tree.empty unique : Tree K V) none where
  stands := .empty unique
  bounded := by simp

theorem raise (h : Holds floor tree shape) (hnext : floor ≤ next) : Holds next tree shape where
  stands := h.stands
  bounded split hsplit := by
    have := h.bounded split hsplit
    omega

/-! ## Linking -/

theorem linkFirst (h : Holds floor tree none) (hid : tree.nodes.Live id) :
    ∃ after, tree.linkFirst id = .ok after ∧ Keeps tree after ∧
      Holds next after (some (.leaf id [])) := by
  obtain ⟨after, hafter, hstands, hkeeps⟩ := h.stands.linkFirst hid
  exact ⟨after, hafter, hkeeps, hstands, by simp [Shape.splits]⟩

theorem insertAbove {context : Context} {hole : Shape} {split : Int}
    (h : Holds floor tree (some (context.plug hole))) (hnext : floor ≤ next ∧ next ≤ 2 ^ 31)
    (hid : tree.nodes.Live id) (hdetached : tree.layout.placement id = .detached) (side : Side)
    (hsplit : -(next : Int) ≤ split ∧ split ≤ 2 ^ 31 - 8) :
    ∃ after, tree.insertAbove id context.position hole.link side split = .ok after ∧
      Keeps tree after ∧ Holds next after
        (some (context.plug (Frame.close ⟨id, split, side.opposite, .leaf id []⟩ hole))) := by
  obtain ⟨after, hafter, hstands, hkeeps⟩ := h.stands.insertAbove hid hdetached side
    (by omega : -2 ^ 31 ≤ split ∧ split < 2 ^ 31)
  refine ⟨after, hafter, hkeeps, hstands, fun lower hlower => ?_⟩
  rcases mem_splits_splice.mp hlower with rfl | hlower
  · omega
  · have := h.bounded lower hlower
    omega

/-! ## Requests -/

private theorem unlinked (h : Holds floor tree shape)
    (hunlinked : tree.Unlinked shape id after shape') : Holds floor after shape' where
  stands := hunlinked.stands
  bounded split hsplit := h.bounded split (hunlinked.splits_subset split hsplit)

private theorem unlink (h : Holds floor tree shape) (id : NodeId) :
    ∃ answer after shape', tree.unlink id = .ok (answer, after) ∧ Holds floor after shape' := by
  obtain ⟨answer, after, hunlink, houtcome⟩ := h.stands.unlink_outcome id
  obtain ⟨shape', hafter⟩ := houtcome.keeps (fun after => ∃ shape', Holds floor after shape')
    ⟨shape, h⟩ (by
      rintro node more after ⟨shape', -, hunlinked⟩
      exact ⟨shape', h.unlinked hunlinked⟩)
  exact ⟨answer, after, shape', hunlink, hafter⟩

private theorem free (h : Holds floor tree shape) (id : NodeId) :
    ∃ answer after, tree.free id = (answer, after) ∧ Holds floor after shape := by
  obtain ⟨answer, after, hfree, houtcome⟩ := h.stands.free_outcome id
  refine ⟨answer, after, hfree, houtcome.keeps (Holds floor · shape) h ?_⟩
  rintro node stored after ⟨-, hreleased⟩
  exact ⟨hreleased.stands, h.bounded⟩

private theorem remove (h : Holds floor tree shape) (id : NodeId) :
    ∃ answer after shape', tree.remove id = .ok (answer, after) ∧ Holds floor after shape' := by
  obtain ⟨answer, after, hremove, houtcome⟩ := h.stands.remove_outcome id
  obtain ⟨shape', hafter⟩ := houtcome.keeps (fun after => ∃ shape', Holds floor after shape')
    ⟨shape, h⟩ (by
      rintro node stored after ⟨-, middle, shape', hunlinked, hreleased⟩
      exact ⟨shape', hreleased.stands, (h.unlinked hunlinked).bounded⟩)
  exact ⟨answer, after, shape', hremove, hafter⟩

/-- No request fails, and the tree stands afterwards. -/
theorem perform (h : Holds floor tree shape) (request : Request K V L)
    (hmaintains : insertion.Maintains bound)
    (hbound : floor + (if request.isInsert then 1 else 0) ≤ bound)
    (hroom : ∀ key value, request = .alloc key value → tree.nodes.HasRoom) :
    ∃ reply after shape', tree.perform insertion request = .ok (reply, after) ∧
      Holds (floor + if request.isInsert then 1 else 0) after shape' := by
  cases request with
  | alloc key value =>
      exact ⟨_, _, shape, rfl, h.stands.alloc (hroom key value rfl) key value, h.bounded⟩
  | insert id how =>
      obtain ⟨answer, after, shape', hinsert, hafter⟩ := hmaintains hbound h id how
      refine ⟨.inserted answer, after, shape', ?_, hafter⟩
      rw [Tree.perform, hinsert]
      rfl
  | unlink id =>
      obtain ⟨answer, after, shape', hunlink, hafter⟩ := h.unlink id
      refine ⟨.unlinked answer, after, shape', ?_, hafter⟩
      rw [Tree.perform, hunlink]
      rfl
  | free id =>
      obtain ⟨answer, after, hfree, hafter⟩ := h.free id
      refine ⟨.released answer, after, shape, ?_, hafter⟩
      rw [Tree.perform, hfree]
  | remove id =>
      obtain ⟨answer, after, shape', hremove, hafter⟩ := h.remove id
      refine ⟨.released answer, after, shape', ?_, hafter⟩
      rw [Tree.perform, hremove]
      rfl
  | clear => exact ⟨_, _, none, rfl, h.stands.clear, by simp⟩
  | setValue id value => exact ⟨_, _, shape, rfl, h.stands.setValue id value, h.bounded⟩

/-- No request fails, and a new record is made even if it can no longer be named. -/
theorem performs (h : Holds floor tree shape) (hmaintains : insertion.Maintains bound)
    (hbound : floor < bound) (request : Request K V L) :
    ∃ reply after, tree.perform insertion request = .ok (reply, after) := by
  by_cases halloc : ∃ key value, request = .alloc key value
  · obtain ⟨key, value, rfl⟩ := halloc
    exact ⟨_, _, rfl⟩
  · obtain ⟨reply, after, shape', hperform, -⟩ := h.perform request hmaintains
      (by split <;> omega) fun key value heq => absurd ⟨key, value, heq⟩ halloc
    exact ⟨reply, after, hperform⟩

/-- No history fails, and the tree stands afterwards. -/
theorem run (h : Holds floor tree shape) {requests : List (Request K V L)}
    (hmaintains : insertion.Maintains bound)
    (hbound : floor + requests.countP Request.isInsert ≤ bound)
    (hfits : tree.Fits insertion requests) :
    ∃ after shape', tree.run insertion requests = .ok after ∧
      Holds (floor + requests.countP Request.isInsert) after shape' := by
  -- the floor falls by one with every insertion, and there are fewer of them left
  induction requests generalizing tree shape floor with
  | nil => exact ⟨tree, shape, rfl, h⟩
  | cons request rest ih =>
      rw [List.countP_cons] at hbound
      obtain ⟨reply, middle, shape', hperform, hmiddle⟩ :=
        h.perform request hmaintains (by omega) hfits.hasRoom
      obtain ⟨after, shape'', hrun, hafter⟩ := ih hmiddle (by omega) (hfits.rest hperform)
      refine ⟨after, shape'', ?_, ?_⟩
      · rw [run_cons hperform]
        exact hrun
      · rw [List.countP_cons, Nat.add_comm (List.countP _ _), ← Nat.add_assoc]
        exact hafter

/-- What a request leads to stands, even if the splits are as low as can be. -/
theorem of_perform (h : Holds (2 ^ 31) tree shape) {request : Request K V L} {reply : Reply K V}
    (hsurvives : insertion.Survives)
    (hroom : ∀ key value, request = .alloc key value → tree.nodes.HasRoom)
    (hperform : tree.perform insertion request = .ok (reply, after)) :
    ∃ shape', Holds (2 ^ 31) after shape' := by
  rcases request.insert_or_allowed with ⟨id, how, rfl⟩ | ⟨hother, -⟩
  · rw [Tree.perform] at hperform
    rcases hsurvives (Nat.le_refl _) h id how with
      ⟨answer, after', shape', hinsert, hafter⟩ | ⟨hinsert, -⟩
    · rw [hinsert] at hperform
      obtain rfl : after' = after := congrArg Prod.snd (Except.ok.inj hperform)
      exact ⟨shape', hafter⟩
    · rw [hinsert] at hperform
      cases hperform
  · obtain ⟨reply', after', shape', hperform', hafter⟩ :=
      h.perform request (hsurvives.maintains (Nat.le_refl _)) (by simp [hother]) hroom
    rw [hperform'] at hperform
    obtain rfl : after' = after := congrArg Prod.snd (Except.ok.inj hperform)
    simp only [hother, Bool.false_eq_true, if_false, Nat.add_zero] at hafter
    exact ⟨shape', hafter⟩

/-- However many insertions there are, what a history leads to stands. -/
theorem of_run (h : Holds (2 ^ 31) tree shape) {requests : List (Request K V L)}
    (hsurvives : insertion.Survives) (hfits : tree.Fits insertion requests)
    (hrun : tree.run insertion requests = .ok after) : ∃ shape', Holds (2 ^ 31) after shape' := by
  induction requests generalizing tree shape with
  | nil =>
      obtain rfl : tree = after := Except.ok.inj hrun
      exact ⟨shape, h⟩
  | cons request rest ih =>
      obtain ⟨reply, middle, hperform, hrun⟩ := exists_of_run_cons hrun
      obtain ⟨shape', hmiddle⟩ := h.of_perform hsurvives hfits.hasRoom hperform
      exact ih hmiddle (hfits.rest hperform) hrun

end Holds

end Tree

end ElasticTree
