import ElasticTree.Proofs.Tree.Insertion
import ElasticTree.Proofs.Tree.Unfolding
import ElasticTree.Tree.Listing
import Mathlib.Data.List.Find

/-!
# Going through a standing tree

A cursor that has passed some of the nodes of a standing tree has those behind
them left, in the order of the shape, and it counts them.  So it comes to its
end exactly when all nodes have been taken, from whichever end it is advanced.
-/

namespace ElasticTree

open Shape

namespace Tree

variable {K V : Type} {tree : Tree K V} {shape : Option Shape} {id : NodeId} {node : Node K V}

theorem entry_eq_ok_iff {entry : Entry K V} : tree.entry id = .ok entry ↔
    ∃ node, tree.nodes.get? id = some node ∧ entry = ⟨id, node.key, node.value⟩ := by
  unfold Tree.entry Tree.node Arena.fetch
  cases tree.nodes.get? id with
  | none => exact ⟨fun h => (nomatch h), fun ⟨_, h, _⟩ => (nomatch h)⟩
  | some node =>
      constructor
      · intro h
        exact ⟨node, rfl, (Except.ok.inj h).symm⟩
      · rintro ⟨found, ⟨⟩, rfl⟩
        rfl

theorem cursor_next {following last : Option NodeId} {entry : Entry K V} {remaining : Nat}
    (hstep : tree.stepNext id = .ok following) (hentry : tree.entry id = .ok entry) :
    Cursor.next tree ⟨some id, last, remaining + 1⟩ =
      .ok (some entry, ⟨following, last, remaining⟩) := by
  show (tree.stepNext id >>= _) = _
  rw [hstep, Fault.ok_bind, hentry]
  rfl

theorem cursor_nextBack {first preceding : Option NodeId} {entry : Entry K V} {remaining : Nat}
    (hstep : tree.stepPrev id = .ok preceding) (hentry : tree.entry id = .ok entry) :
    Cursor.nextBack tree ⟨first, some id, remaining + 1⟩ =
      .ok (some entry, ⟨first, preceding, remaining⟩) := by
  show (tree.stepPrev id >>= _) = _
  rw [hstep, Fault.ok_bind, hentry]
  rfl

namespace Stands

/-- What the nodes show, in order. -/
theorem exists_entries (h : tree.Stands shape) : ∃ entries : List (Entry K V),
    entries.map Entry.id = shape.elim [] Shape.members ∧
      ∀ entry ∈ entries, tree.entry entry.id = .ok entry := by
  have hlive : ∀ id ∈ shape.elim [] Shape.members, ∃ entry, tree.entry id = .ok entry := by
    intro id hid
    obtain ⟨node, hnode⟩ := Option.isSome_iff_exists.mp (h.live hid)
    exact ⟨_, entry_eq_ok_iff.mpr ⟨node, hnode, rfl⟩⟩
  revert hlive
  generalize shape.elim [] Shape.members = ids
  intro hlive
  induction ids with
  | nil => exact ⟨[], rfl, by simp⟩
  | cons id ids ih =>
      obtain ⟨entries, hids, hentries⟩ :=
        ih fun other hother => hlive other (List.mem_cons_of_mem _ hother)
      obtain ⟨entry, hentry⟩ := hlive id List.mem_cons_self
      obtain ⟨node, -, rfl⟩ := entry_eq_ok_iff.mp hentry
      exact ⟨⟨id, node.key, node.value⟩ :: entries, by rw [List.map_cons, hids],
        List.forall_mem_cons.mpr ⟨hentry, hentries⟩⟩

private theorem collect_next {entries : List (Entry K V)} (front : List NodeId)
    {last : Option NodeId} (limit : Nat) (h : tree.Stands shape)
    (hmembers : shape.elim [] Shape.members = front ++ entries.map Entry.id)
    (hentries : ∀ entry ∈ entries, tree.entry entry.id = .ok entry)
    (hlimit : entries.length ≤ limit) :
    collect (Cursor.next tree) limit ⟨(entries.map Entry.id).head?, last, entries.length⟩ =
      .ok entries := by
  -- `front` has been passed
  induction entries generalizing front limit with
  | nil => cases limit <;> rfl
  | cons entry entries ih =>
      obtain ⟨limit, rfl⟩ : ∃ fewer, limit = fewer + 1 := ⟨limit - 1, by simp at hlimit; omega⟩
      have hrest := ih (front ++ [entry.id]) limit (by simp [hmembers])
        (fun other hother => hentries other (List.mem_cons_of_mem _ hother)) (by simpa using hlimit)
      rw [List.map_cons] at hmembers ⊢
      rw [List.head?_cons, List.length_cons, collect,
        cursor_next (h.stepNext_eq hmembers) (hentries entry List.mem_cons_self)]
      simp only [Fault.ok_bind, hrest]
      rfl

private theorem collect_nextBack {entries : List (Entry K V)} (back : List NodeId)
    {first : Option NodeId} (limit : Nat) (h : tree.Stands shape)
    (hmembers : shape.elim [] Shape.members = entries.map Entry.id ++ back)
    (hentries : ∀ entry ∈ entries, tree.entry entry.id = .ok entry)
    (hlimit : entries.length ≤ limit) :
    collect (Cursor.nextBack tree) limit ⟨first, (entries.map Entry.id).getLast?, entries.length⟩ =
      .ok entries.reverse := by
  induction entries using List.reverseRecOn generalizing back limit with
  | nil => cases limit <;> rfl
  | append_singleton entries entry ih =>
      obtain ⟨limit, rfl⟩ : ∃ fewer, limit = fewer + 1 := ⟨limit - 1, by simp at hlimit; omega⟩
      have hrest := ih (entry.id :: back) limit (by simp [hmembers])
        (fun other hother => hentries other (List.mem_append_left _ hother)) (by simpa using hlimit)
      have hstep : shape.elim [] Shape.members = entries.map Entry.id ++ entry.id :: back := by
        simp [hmembers]
      rw [List.map_append, List.map_cons, List.map_nil, List.getLast?_concat, List.length_append,
        List.length_singleton, collect,
        cursor_nextBack (h.stepPrev_eq hstep) (hentries entry (by simp))]
      simp only [Fault.ok_bind, hrest, List.reverse_append]
      rfl

/-- A cursor starts out with all nodes left. -/
theorem cursor_start (h : tree.Stands shape) {entries : List (Entry K V)}
    (hids : entries.map Entry.id = shape.elim [] Shape.members) : Cursor.start tree =
      .ok ⟨(entries.map Entry.id).head?, (entries.map Entry.id).getLast?, entries.length⟩ := by
  have hlength : tree.linked = entries.length := by
    rw [h.linked_eq, ← hids, List.length_map]
  simp only [Cursor.start, Tree.first, Tree.last, h.outermost_eq, metFirst, Fault.ok_bind, ← hids,
    hlength]
  rfl

/-- Going through a standing tree gives its nodes in the order of the shape. -/
theorem lists (h : tree.Stands shape) :
    ∃ entries, entries.map Entry.id = shape.elim [] Shape.members ∧ tree.Lists entries := by
  obtain ⟨entries, hids, hentries⟩ := h.exists_entries
  have hlength : tree.linked = entries.length := by
    rw [h.linked_eq, ← hids, List.length_map]
  have hstart := h.cursor_start hids
  refine ⟨entries, hids, ⟨?_, ?_, ?_, fun entry => ?_⟩⟩
  · rw [toList, hstart, Fault.ok_bind, hlength]
    exact collect_next [] _ h hids.symm hentries (Nat.le_refl _)
  · rw [toListReverse, hstart, Fault.ok_bind, hlength]
    exact collect_nextBack [] _ h (by simp [hids]) hentries (Nat.le_refl _)
  · rw [hids]
    exact h.draws.members_nodup
  · constructor
    · intro hentry
      obtain ⟨node, hnode, heq⟩ := entry_eq_ok_iff.mp (hentries entry hentry)
      refine ⟨node, hnode, ?_, by rw [heq], by rw [heq]⟩
      rw [← placement_layout hnode, ne_eq, h.placement_eq_detached_iff, not_not, ← hids]
      exact List.mem_map_of_mem hentry
    · rintro ⟨node, hnode, hlinked, hkey, hvalue⟩
      rw [← placement_layout hnode, ne_eq, h.placement_eq_detached_iff, not_not, ← hids] at hlinked
      obtain ⟨other, hother, hid⟩ := List.mem_map.mp hlinked
      obtain ⟨found, hfound, heq⟩ := entry_eq_ok_iff.mp (hentries other hother)
      rw [hid, hnode, Option.some.injEq] at hfound
      subst hfound
      have hsame : entry = other := by
        obtain ⟨id, key, value⟩ := entry
        obtain rfl : other.id = id := hid
        obtain rfl : key = node.key := hkey
        obtain rfl : value = node.value := hvalue
        exact heq.symm
      exact hsame ▸ hother

end Stands

/-! ## Answers -/

/-- An entry is what its node shows. -/
theorem Lists.entry_eq {entries : List (Entry K V)} (h : tree.Lists entries) {entry : Entry K V}
    (hentry : entry ∈ entries) : tree.entry entry.id = .ok entry := by
  obtain ⟨node, hnode, -, hkey, hvalue⟩ := (h.mem_iff entry).mp hentry
  exact entry_eq_ok_iff.mpr ⟨node, hnode, by rw [← hkey, ← hvalue]⟩

section Answers

variable {C : Type} [Inhabited C] (view : K → C) {entries : List (Entry K V)}

/-- An entry has the key of its node. -/
theorem Lists.rank_eq (h : tree.Lists entries) {entry : Entry K V} (hentry : entry ∈ entries) :
    tree.rank view entry.id = view entry.key := by
  obtain ⟨node, hnode, -, hkey, -⟩ := (h.mem_iff entry).mp hentry
  rw [rank_of_get? view hnode, hkey]

/-- A search among the nodes of a listing, from its front or from its back, is one
among its entries. -/
theorem Lists.answers (h : tree.Lists entries) (test : C → Bool) {order : List (Entry K V)}
    (horder : ∀ entry, entry ∈ order ↔ entry ∈ entries) {answer : Except Fault (Option NodeId)}
    (hanswer : answer = .ok ((order.map Entry.id).find? fun id => test (tree.rank view id))) :
    tree.Answers order (fun key => test (view key)) answer := by
  have hfirst : answer = .ok ((order.find? fun entry => test (view entry.key)).map Entry.id) := by
    rw [hanswer, List.find?_map, List.find?_congr fun entry hentry => ?_]
    rw [Function.comp_apply, h.rank_eq view ((horder entry).mp hentry)]
  refine ⟨hfirst, ?_⟩
  rw [hfirst, Except.ok.injEq, Option.map_eq_none_iff, List.find?_eq_none]
  constructor
  · intro hnone id node hnode hlinked
    have hentry : (⟨id, node.key, node.value⟩ : Entry K V) ∈ entries :=
      (h.mem_iff _).mpr ⟨node, hnode, hlinked, rfl, rfl⟩
    exact eq_false_of_ne_true (hnone _ ((horder _).mpr hentry))
  · intro hall entry hentry
    obtain ⟨node, hnode, hlinked, hkey, -⟩ := (h.mem_iff entry).mp ((horder entry).mp hentry)
    rw [hkey, hall entry.id node hnode hlinked]
    exact Bool.false_ne_true

/-- What holds of the keys of the nodes in order holds of the entries. -/
theorem Lists.pairwise (h : tree.Lists entries) {R : C → C → Prop}
    (hids : (entries.map Entry.id).Pairwise fun first second =>
      R (tree.rank view first) (tree.rank view second)) :
    entries.Pairwise fun first second => R (view first.key) (view second.key) := by
  refine (List.pairwise_map.mp hids).imp_of_mem fun hfirst hsecond hrel => ?_
  rwa [h.rank_eq view hfirst, h.rank_eq view hsecond] at hrel

/-- The entries of a tree in order are sorted. -/
theorem Lists.sorted [LT C] {discipline : Discipline C} {shape : Option Shape}
    (h : tree.Lists entries) (hids : entries.map Entry.id = shape.elim [] Shape.members)
    (hobeys : ∀ found ∈ shape, found.Obeys discipline (tree.rank view)) :
    entries.Pairwise fun first second => ¬ view second.key < view first.key := by
  refine h.pairwise view (R := fun first second => ¬ second < first) ?_
  rw [hids]
  cases shape with
  | none => exact List.Pairwise.nil
  | some found => exact List.pairwise_map.mp (hobeys found rfl).sorted

end Answers

end Tree

end ElasticTree
