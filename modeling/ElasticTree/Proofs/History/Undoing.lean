import ElasticTree.Proofs.History.Joining
import ElasticTree.Proofs.Tree.Determined

/-!
# Going back

Linking a node and unlinking it again leaves the tree as it was, whatever way the
node was linked in.  Unlinking all nodes leaves what clearing leaves, in whatever
order they go.  Both are said of the whole tree, every field of every record
included.

Unlinking does not know how a node was linked, and it need not.  Nothing has to be
seen of it but the shape that it leads to: a node that came goes from the very place
it came to, and when all have gone, there is no shape left.  The shape and the
contents determine the tree.
-/

namespace ElasticTree

open Shape

/-! ## What is meant -/

namespace Tree

variable {K V L : Type}

/-- Unlinking undoes the insertion of any node: it gives back the tree as it was, and
tells whether any nodes were linked in it. -/
def Undoes (insertion : Insertion K V L) (tree : Tree K V) : Prop :=
  ∀ id how after, insertion tree id how = .ok (.ok id, after) →
    after.unlink id = .ok (.ok !tree.isEmpty, tree)

/-- Unlinking all nodes one by one comes to the same as clearing the tree, and
afterwards all nodes can be linked again. -/
structure Drains (insertion : Insertion K V L) (accepts : L → Prop) (lasts : Nat → Prop)
    (tree : Tree K V) : Prop where
  exists_order : ∃ order : List NodeId, order.Nodup ∧ ∀ id, id ∈ order ↔ tree.isLinked id = true
  /-- In any order, only the last one to go leaves no others behind. -/
  drains : ∀ order : List NodeId, order.Nodup → (∀ id, id ∈ order ↔ tree.isLinked id = true) →
    tree.play insertion (order.map .unlink) =
      .ok (order.mapIdx fun place _ => .unlinked (.ok (decide (place + 1 < order.length))),
        tree.clear)
  key?_clear : ∀ id, tree.clear.key? id = tree.key? id
  value?_clear : ∀ id, tree.clear.value? id = tree.value? id
  /-- Any one of the nodes can be linked. -/
  relinks : ∀ id how, (tree.key? id).isSome → accepts how →
    ∃ after, insertion tree.clear id how = .ok (.ok id, after)
  /-- Any of them can be linked one after the other. -/
  refills : ∀ requests : List (NodeId × L), (requests.map Prod.fst).Nodup →
    (∀ request ∈ requests, (tree.key? request.1).isSome ∧ accepts request.2) →
    lasts requests.length →
      ∃ replies after, tree.clear.play insertion
            (requests.map fun request => .insert request.1 request.2) =
          .ok (replies, after) ∧
        (∀ reply ∈ replies, ∃ holder, reply = .inserted (.ok holder)) ∧
        (tree.unique = false → replies = requests.map fun request => .inserted (.ok request.1))

/-! ## Why it is so -/

variable {insertion : Insertion K V L} {tree after : Tree K V} {shape : Option Shape} {id : NodeId}

theorem isSome_key? : (tree.key? id).isSome ↔ tree.nodes.Live id := by
  rw [key?, Option.isSome_map, Arena.Live]

namespace Stands

theorem isEmpty_eq (h : tree.Stands shape) : tree.isEmpty = !shape.isSome := by
  rw [isEmpty, h.root_eq]
  cases shape <;> rfl

/-- A node that came to a tree goes from where it came to. -/
theorem unlink_of_adds {found : Shape} (h : tree.Stands shape) (hafter : after.Stands (some found))
    (hadds : Adds id shape found) (hkeeps : Keeps tree after) :
    after.unlink id = .ok (.ok !tree.isEmpty, tree) := by
  obtain ⟨final, hunlink, hstands, hback⟩ := hafter.unlink_of_removes hadds.removes
  obtain rfl : final = tree := h.tree_eq hstands (hkeeps.trans hback)
  rw [hunlink, h.isEmpty_eq, Bool.not_not]

/-- Nothing is left to clear in a tree that stands as no shape. -/
private theorem clear_eq (h : tree.Stands none) : tree.clear = tree :=
  h.tree_eq h.clear (keeps_clear tree)

/-- A tree can be cleared after any changes of its links as well as before. -/
private theorem clear_eq_of_keeps {shape' : Option Shape} (h : tree.Stands shape)
    (hafter : after.Stands shape') (hkeeps : Keeps tree after) : after.clear = tree.clear :=
  h.clear.tree_eq hafter.clear
    ((keeps_clear tree).symm.trans (hkeeps.trans (keeps_clear after)))

/-- The members of a tree may be unlinked in any order. -/
theorem play_unlink (insertion : Insertion K V L) (h : tree.Stands shape) {order : List NodeId}
    (horder : order.Perm (shape.elim [] Shape.members)) :
    tree.play insertion (order.map .unlink) =
      .ok (order.mapIdx fun place _ => .unlinked (.ok (decide (place + 1 < order.length))),
        tree.clear) := by
  -- every node that goes leaves a tree that stands, and the rest of the order lists its members
  induction order generalizing tree shape with
  | nil =>
      cases shape with
      | none =>
          rw [h.clear_eq]
          rfl
      | some found => exact absurd horder.nil_eq.symm found.members_ne_nil
  | cons id rest ih =>
      obtain ⟨after, shape', hunlink, hunlinked⟩ :=
        h.unlink_of_mem (horder.mem_iff.mp List.mem_cons_self)
      obtain ⟨front, back, hbefore, hafter⟩ := hunlinked.members
      have hrest : rest.Perm (shape'.elim [] Shape.members) := by
        rw [hafter]
        rw [hbefore] at horder
        exact (horder.trans List.perm_middle).cons_inv
      have hmore : shape'.isSome = decide (0 < rest.length) := by
        cases shape' with
        | none => simp [hrest.length_eq]
        | some left =>
            have hne := List.length_pos_of_ne_nil left.members_ne_nil
            simpa [hrest.length_eq] using hne
      have hperform : tree.perform insertion (.unlink id) =
          .ok (.unlinked (.ok shape'.isSome), after) := by
        rw [perform, hunlink]
        rfl
      rw [List.map_cons, play_cons hperform (ih hunlinked.stands hrest),
        h.clear_eq_of_keeps hunlinked.stands hunlinked.keeps, List.mapIdx_cons, hmore]
      simp

end Stands

namespace Insertion.Joins

variable {accepts : L → Prop} {lasts : Nat → Prop} {holds : Nat → Tree K V → Option Shape → Prop}
  {floor : Nat}

theorem undoes (hjoins : insertion.Joins accepts lasts holds) (h : holds floor tree shape) :
    tree.Undoes insertion := by
  intro id how after hinsert
  obtain ⟨shape', hjoined⟩ := hjoins.of_ok h hinsert
  obtain ⟨found, rfl, hadds, hstands, hkeeps⟩ := hjoined.adds
  exact (hjoins.stands h).unlink_of_adds hstands hadds hkeeps

/-- Nodes that are not linked can be linked one after the other. -/
private theorem play_insert (hjoins : insertion.Joins accepts lasts holds)
    (hmono : ∀ few many, few ≤ many → lasts many → lasts few) (h : holds floor tree shape)
    {requests : List (NodeId × L)} (hnodup : (requests.map Prod.fst).Nodup)
    (hready : ∀ request ∈ requests, tree.nodes.Live request.1 ∧
      request.1 ∉ shape.elim [] Shape.members ∧ accepts request.2)
    (hlasts : lasts (floor + requests.length)) :
    ∃ replies after, tree.play insertion (requests.map fun request => .insert request.1 request.2) =
        .ok (replies, after) ∧
      (∀ reply ∈ replies, ∃ holder, reply = .inserted (.ok holder)) ∧
      (tree.unique = false → replies = requests.map fun request => .inserted (.ok request.1)) := by
  induction requests generalizing tree shape floor with
  | nil => exact ⟨[], tree, rfl, by simp, fun _ => rfl⟩
  | cons request rest ih =>
      obtain ⟨id, how⟩ := request
      rw [List.map_cons, List.nodup_cons] at hnodup
      rw [List.length_cons] at hlasts
      obtain ⟨⟨hlive, hid, haccepts⟩, hrest⟩ := List.forall_mem_cons.mp hready
      rcases hjoins.inserts h id how with
        ⟨answer, after, shape', hinsert, hjoined, hafter⟩ | ⟨-, hover⟩
      · -- the others stay live and unlinked, whether the node was linked or not
        have hstep : ∃ holder, answer = .ok holder ∧ (tree.unique = false → holder = id) ∧
            after.unique = tree.unique ∧ ∀ request ∈ rest, after.nodes.Live request.1 ∧
              request.1 ∉ shape'.elim [] Shape.members ∧ accepts request.2 := by
          cases hjoined with
          | refused refusal hreason => exact absurd hreason (by tauto)
          | held holder hunique => exact ⟨holder, rfl, by simp [hunique], rfl, hrest⟩
          | linked _ found hadds hstands hkeeps =>
              refine ⟨id, rfl, fun _ => rfl, hkeeps.unique_eq, fun request hrequest => ?_⟩
              obtain ⟨hother, hnot, haccepts'⟩ := hrest request hrequest
              have hne : request.1 ≠ id := fun heq =>
                hnodup.1 (List.mem_map.mpr ⟨request, hrequest, heq⟩)
              obtain ⟨front, back, hbefore, hmembers⟩ := hadds.members
              refine ⟨hkeeps.live_iff.mpr hother, ?_, haccepts'⟩
              rw [hbefore] at hnot
              simpa [hmembers, hne] using hnot
        obtain ⟨holder, rfl, hholder, hunique, hready'⟩ := hstep
        obtain ⟨replies, final, hplay, hreplies, hids⟩ := ih hafter hnodup.2 hready'
          (by rwa [Nat.add_assoc, Nat.add_comm 1])
        refine ⟨.inserted (.ok holder) :: replies, final, ?_, ?_, fun hmany => ?_⟩
        · refine play_cons ?_ hplay
          rw [perform, hinsert]
          rfl
        · exact List.forall_mem_cons.mpr ⟨⟨holder, rfl⟩, hreplies⟩
        · rw [hholder hmany, hids (hunique.trans hmany), List.map_cons]
      · exact absurd (hmono _ _ (by omega) hlasts) hover

theorem drains (hjoins : insertion.Joins accepts lasts holds) (h : holds floor tree shape)
    (hmono : ∀ few many, few ≤ many → lasts many → lasts few) (hone : lasts 1) :
    tree.Drains insertion accepts lasts where
  exists_order := ⟨shape.elim [] Shape.members, (hjoins.stands h).draws.members_nodup,
    fun id => (hjoins.stands h).isLinked_iff.symm⟩
  drains order hnodup hmem := by
    have hstands := hjoins.stands h
    refine hstands.play_unlink insertion ?_
    refine (List.perm_ext_iff_of_nodup hnodup hstands.draws.members_nodup).mpr fun id => ?_
    rw [hmem, hstands.isLinked_iff]
  key?_clear := (keeps_clear tree).key?_eq
  value?_clear := (keeps_clear tree).value?_eq
  relinks id how hlive haccepts := by
    rw [isSome_key?, ← (keeps_clear tree).live_iff] at hlive
    rcases hjoins.inserts (hjoins.clear h) id how with
      ⟨answer, after, shape', hinsert, hjoined, -⟩ | ⟨-, hover⟩
    · cases hjoined with
      | refused refusal hreason => exact absurd hreason (by simp [hlive, haccepts])
      | held holder _ hmem => simp at hmem
      | linked _ found => exact ⟨after, hinsert⟩
    · exact absurd hone hover
  refills requests hnodup hready hlasts := by
    refine hjoins.play_insert hmono (hjoins.clear h) hnodup (fun request hrequest => ?_)
      (by rwa [Nat.zero_add])
    obtain ⟨hlive, haccepts⟩ := hready request hrequest
    rw [isSome_key?, ← (keeps_clear tree).live_iff] at hlive
    exact ⟨hlive, by simp, haccepts⟩

end Insertion.Joins

end Tree

/-! ## Histories -/

/-- After any history, unlinking a node that was just inserted restores the tree as it
was, in every field of every record: in a tree of words of any width, and in a tree of
byte strings that are compared over any lengths. -/
theorem unlink_undoes_insert {K V : Type} [ByteKey K] (unique : Bool) :
    (∀ (width : Nat) (requests : List (Request (BitVec width) V Unit)), width < 2 ^ 31 →
      (Tree.empty unique).Fits WordTree.insertion requests →
        ∃ tree, (Tree.empty unique).run WordTree.insertion requests = .ok tree ∧
          tree.Undoes WordTree.insertion) ∧
    ∀ requests : List (Request K V Nat), (Tree.empty unique).Fits ByteTree.insert requests →
      (requests.countP Request.isInsert < 2 ^ 31 →
        ∃ tree, (Tree.empty unique).run ByteTree.insert requests = .ok tree) ∧
      ∀ tree, (Tree.empty unique).run ByteTree.insert requests = .ok tree →
        tree.Undoes ByteTree.insert := by
  refine ⟨fun width requests hwidth hfits => ?_,
    fun requests hfits => ⟨fun hinserts => ByteTree.run_ok hinserts hfits, fun tree hrun => ?_⟩⟩
  · obtain ⟨tree, shape, hrun, horder⟩ := WordTree.run_inOrder hwidth hfits
    exact ⟨tree, hrun, (WordTree.joins hwidth).undoes horder⟩
  · obtain ⟨shape, hrange⟩ := ByteTree.inRange_of_run hfits hrun
    exact ByteTree.joins.undoes hrange

/-- What is inserted after a history, in a tree that the history is known to lead to. -/
private theorem exists_inserted {K V L : Type} {insertion : Tree.Insertion K V L}
    {start tree : Tree K V} {requests : List (Request K V L)} (id : NodeId) (how : L)
    (answer : Except Refusal NodeId)
    (h : (start.run insertion requests >>= fun tree => Prod.fst <$> insertion tree id how) =
      .ok answer)
    (hrun : start.run insertion requests = .ok tree) :
    ∃ after, insertion tree id how = .ok (answer, after) := by
  rw [hrun, Fault.ok_bind] at h
  cases hinsert : insertion tree id how with
  | error fault =>
      rw [hinsert] at h
      cases h
  | ok result =>
      rw [hinsert] at h
      exact ⟨result.2, by rw [← Except.ok.inj h]⟩

/-- Two nodes of the word five and one of the word three, and a third node of the word
five that is still detached. -/
private def joinable : List (Request (BitVec 8) String Unit) :=
  [.alloc 5 "first", .alloc 5 "second", .alloc 3 "third", .alloc 5 "fourth", .insert ⟨0, 0⟩ (),
    .insert ⟨1, 0⟩ (), .insert ⟨2, 0⟩ ()]

/-- Three strings that are the same over one byte and one that is not, and a fourth one
that is still detached. -/
private def growable : List (Request String String Nat) :=
  [.alloc "a" "first", .alloc "ab" "second", .alloc "ac" "third", .alloc "b" "fourth",
    .alloc "ad" "fifth", .insert ⟨0, 0⟩ 1, .insert ⟨1, 0⟩ 1, .insert ⟨2, 0⟩ 1, .insert ⟨3, 0⟩ 1]

theorem unlink_undoes_insert_grown :
    8 < 2 ^ 31 ∧ (Tree.empty false).Fits WordTree.insertion joinable ∧
      (Tree.empty false).Fits ByteTree.insert growable ∧
      (∃ tree after, (Tree.empty false).run WordTree.insertion joinable = .ok tree ∧
        WordTree.insertion tree ⟨3, 0⟩ () = .ok (.ok ⟨3, 0⟩, after) ∧
        after.unlink ⟨3, 0⟩ = .ok (.ok !tree.isEmpty, tree)) ∧
      ∃ tree after, (Tree.empty false).run ByteTree.insert growable = .ok tree ∧
        ByteTree.insert tree ⟨4, 0⟩ 1 = .ok (.ok ⟨4, 0⟩, after) ∧
        after.unlink ⟨4, 0⟩ = .ok (.ok !tree.isEmpty, tree) := by
  have hwidth : 8 < 2 ^ 31 := by decide
  have hjoinable : (Tree.empty false).Fits WordTree.insertion joinable := by decide +kernel
  have hgrowable : (Tree.empty false).Fits ByteTree.insert growable := by decide +kernel
  have hundoing := unlink_undoes_insert (K := String) (V := String) false
  obtain ⟨words, hwords, hundoes⟩ := hundoing.1 8 joinable hwidth hjoinable
  obtain ⟨hruns, hundoes'⟩ := hundoing.2 growable hgrowable
  obtain ⟨bytes, hbytes⟩ := hruns (by decide)
  obtain ⟨after, hinsert⟩ := exists_inserted ⟨3, 0⟩ () (.ok ⟨3, 0⟩)
    (by decide +kernel) hwords
  obtain ⟨after', hinsert'⟩ := exists_inserted ⟨4, 0⟩ 1 (.ok ⟨4, 0⟩)
    (by decide +kernel) hbytes
  exact ⟨hwidth, hjoinable, hgrowable,
    ⟨words, after, hwords, hinsert, hundoes _ _ _ hinsert⟩,
    bytes, after', hbytes, hinsert', hundoes' bytes hbytes _ _ _ hinsert'⟩

/-- After any history, unlinking all linked nodes in any order comes to the same as
clearing the tree, in every field of every record, and all nodes can be linked again:
in a tree of words of any width, and in a tree of byte strings that are compared over
any lengths. -/
theorem draining_equals_clear {K V : Type} [ByteKey K] (unique : Bool) :
    (∀ (width : Nat) (requests : List (Request (BitVec width) V Unit)), width < 2 ^ 31 →
      (Tree.empty unique).Fits WordTree.insertion requests →
        ∃ tree, (Tree.empty unique).run WordTree.insertion requests = .ok tree ∧
          tree.Drains WordTree.insertion (fun _ => True) (fun _ => True)) ∧
    ∀ requests : List (Request K V Nat), (Tree.empty unique).Fits ByteTree.insert requests →
      (requests.countP Request.isInsert < 2 ^ 31 →
        ∃ tree, (Tree.empty unique).run ByteTree.insert requests = .ok tree) ∧
      ∀ tree, (Tree.empty unique).run ByteTree.insert requests = .ok tree →
        tree.Drains ByteTree.insert (8 * · < 2 ^ 31) (· ≤ 2 ^ 31) := by
  refine ⟨fun width requests hwidth hfits => ?_,
    fun requests hfits => ⟨fun hinserts => ByteTree.run_ok hinserts hfits, fun tree hrun => ?_⟩⟩
  · obtain ⟨tree, shape, hrun, horder⟩ := WordTree.run_inOrder hwidth hfits
    exact ⟨tree, hrun, (WordTree.joins hwidth).drains horder (fun _ _ _ _ => trivial) trivial⟩
  · obtain ⟨shape, hrange⟩ := ByteTree.inRange_of_run hfits hrun
    exact ByteTree.joins.drains hrange (fun _ _ => Nat.le_trans) (by decide)

theorem draining_equals_clear_grown :
    8 < 2 ^ 31 ∧ (Tree.empty false).Fits WordTree.insertion joinable ∧
      (Tree.empty false).Fits ByteTree.insert growable ∧
      (∃ tree, (Tree.empty false).run WordTree.insertion joinable = .ok tree ∧
        tree.Drains WordTree.insertion (fun _ => True) (fun _ => True)) ∧
      ∃ tree, (Tree.empty false).run ByteTree.insert growable = .ok tree ∧
        tree.Drains ByteTree.insert (8 * · < 2 ^ 31) (· ≤ 2 ^ 31) := by
  have hwidth : 8 < 2 ^ 31 := by decide
  have hjoinable : (Tree.empty false).Fits WordTree.insertion joinable := by decide +kernel
  have hgrowable : (Tree.empty false).Fits ByteTree.insert growable := by decide +kernel
  have hdraining := draining_equals_clear (K := String) (V := String) false
  obtain ⟨hruns, hdrains⟩ := hdraining.2 growable hgrowable
  obtain ⟨tree, hrun⟩ := hruns (by decide)
  exact ⟨hwidth, hjoinable, hgrowable, hdraining.1 8 joinable hwidth hjoinable, tree, hrun,
    hdrains tree hrun⟩

end ElasticTree
