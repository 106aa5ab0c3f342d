import ElasticTree.Ring.Cycle
import Mathlib.Logic.Function.Basic

/-!
# Circles in a table of ring links

The assignments made on rings only read and write ring links, so they are
studied on a `Table`, which gives every name its two links, before they are
found again in an arena.

A `Circle` lists the members of a ring from the one it is entered through.
Appending adds a member at the end of the list (`Circle.append`), and removing
takes one out of it, be it the first (`Circle.remove_head`) or a later one
(`Circle.remove_member`).  Names outside the circle keep their links, so other
circles are not disturbed (`Circle.congr`).

Going back along a ring is unambiguous.  A chain of neighbours that returns to
its head is therefore a circle (`Circle.of_faces`), and two circles with a later
member in common have the same head (`Circle.head_eq`).
-/

namespace ElasticTree

namespace Ring

/-- The ring links of every name. -/
abbrev Table := NodeId → RingLinks

/-- The names point at each other as neighbours do. -/
def Faces (table : Table) (first second : NodeId) : Prop :=
  (table first).next = second ∧ (table second).prev = first

/-- The ring entered through `head` has `rest` behind it. -/
structure Circle (table : Table) (head : NodeId) (rest : List NodeId) : Prop where
  nodup : (head :: rest).Nodup
  faces : (head :: (rest ++ [head])).IsChain (Faces table)

instance (table : Table) : DecidableRel (Faces table) :=
  fun first second => inferInstanceAs (Decidable (_ = second ∧ _ = first))

instance (table : Table) (head : NodeId) (rest : List NodeId) :
    Decidable (Circle table head rest) :=
  decidable_of_iff ((head :: rest).Nodup ∧ (head :: (rest ++ [head])).IsChain (Faces table))
    ⟨fun h => ⟨h.1, h.2⟩, fun h => ⟨h.nodup, h.faces⟩⟩

namespace Table

/-- The assignments by which `id` joins the ring of `head` at its tail. -/
def append (table : Table) (head id : NodeId) : Table :=
  let tail := (table head).prev
  let table := Function.update table id ⟨head, tail⟩
  let table := Function.update table tail { table tail with next := id }
  Function.update table head { table head with prev := id }

/-- The assignments by which `id` leaves its ring. -/
def remove (table : Table) (id : NodeId) : Table :=
  let old := table id
  let table := Function.update table old.prev { table old.prev with next := old.next }
  let table := Function.update table old.next { table old.next with prev := old.prev }
  Function.update table id (.alone id)

variable {table : Table} {head id other : NodeId}

/-- The ends of a ring may coincide; the links come out the same. -/
theorem next_append : (table.append head id other).next =
    if other = (table head).prev then id else if other = id then head
      else (table other).next := by
  simp only [append, Function.update_apply]
  grind

theorem prev_append : (table.append head id other).prev =
    if other = head then id else if other = id then (table head).prev
      else (table other).prev := by
  simp only [append, Function.update_apply]
  grind

theorem next_remove : (table.remove id other).next =
    if other = id then id else if other = (table id).prev then (table id).next
      else (table other).next := by
  simp only [remove, Function.update_apply, RingLinks.alone]
  split_ifs <;> simp_all

theorem prev_remove : (table.remove id other).prev =
    if other = id then id else if other = (table id).next then (table id).prev
      else (table other).prev := by
  simp only [remove, Function.update_apply, RingLinks.alone]
  split_ifs <;> simp_all

theorem remove_self : table.remove id id = .alone id := by
  simp [remove]

theorem append_of_ne (hhead : other ≠ head) (htail : other ≠ (table head).prev)
    (hid : other ≠ id) : table.append head id other = table other := by
  simp [append, hhead, htail, hid]

theorem remove_of_ne (hid : other ≠ id) (hprev : other ≠ (table id).prev)
    (hnext : other ≠ (table id).next) : table.remove id other = table other := by
  simp [remove, hid, hprev, hnext]

end Table

namespace Circle

variable {table table' : Table} {head id : NodeId} {rest before after : List NodeId}

/-- In a chain every step leads from a member other than the last to one other
than the first. -/
private theorem isChain_imp {R S : NodeId → NodeId → Prop} {list : List NodeId}
    (h : ∀ first ∈ list.dropLast, ∀ second ∈ list.tail, R first second → S first second)
    (hchain : list.IsChain R) : list.IsChain S := by
  rw [List.isChain_iff_forall_rel_of_append_cons_cons] at hchain ⊢
  intro first second front back hlist
  refine h first ?_ second ?_ (hchain hlist)
  · subst hlist
    rw [List.dropLast_append_of_ne_nil (by simp)]
    simp
  · subst hlist
    cases front <;> simp

/-- A circle lies in the links of its members. -/
theorem congr (h : Circle table head rest)
    (hsame : ∀ member ∈ head :: rest, table' member = table member) :
    Circle table' head rest := by
  refine ⟨h.nodup, h.faces.imp_of_mem_imp fun first second hfirst hsecond => ?_⟩
  have hmem : ∀ member ∈ head :: (rest ++ [head]), table' member = table member := by
    intro member hmember
    apply hsame
    simp only [List.mem_cons, List.mem_append, List.not_mem_nil, or_false] at hmember ⊢
    tauto
  unfold Faces
  rw [hmem first hfirst, hmem second hsecond]
  exact fun hfaces => hfaces

theorem nil_iff : Circle table head [] ↔ table head = .alone head := by
  constructor
  · rintro ⟨-, hfaces⟩
    rw [List.nil_append, List.isChain_pair] at hfaces
    cases hlinks : table head
    rw [Faces, hlinks] at hfaces
    simp only at hfaces
    rw [hfaces.1, hfaces.2, RingLinks.alone]
  · intro h
    refine ⟨by simp, ?_⟩
    rw [List.nil_append, List.isChain_pair]
    exact ⟨by rw [h]; rfl, by rw [h]; rfl⟩

/-- The last member is the predecessor of the first. -/
theorem exists_tail (h : Circle table head rest) :
    ∃ init, head :: rest = init ++ [(table head).prev] := by
  obtain ⟨init, tail, hlist⟩ := List.eq_nil_or_concat (head :: rest) |>.resolve_left (by simp)
  rw [List.concat_eq_append] at hlist
  have hchain := h.faces
  rw [← List.cons_append, hlist, List.append_assoc, List.singleton_append,
    List.isChain_append_cons_cons] at hchain
  exact ⟨init, by rw [hlist, hchain.2.1.2]⟩

theorem prev_head_mem (h : Circle table head rest) : (table head).prev ∈ head :: rest := by
  obtain ⟨init, hlist⟩ := h.exists_tail
  rw [hlist]
  simp

/-- The successor of the first member. -/
theorem next_head (h : Circle table head rest) : (table head).next = rest.headD head := by
  have hchain := h.faces
  cases rest with
  | nil => exact (List.isChain_cons_cons.mp hchain).1.1
  | cons first rest => exact (List.isChain_cons_cons.mp hchain).1.1

theorem next_head_eq_iff (h : Circle table head rest) : (table head).next = head ↔ rest = [] := by
  rw [h.next_head]
  cases rest with
  | nil => simp
  | cons first rest =>
      have := h.nodup
      simp only [List.headD_cons, reduceCtorEq, iff_false]
      rintro rfl
      simp at this

theorem prev_head (h : Circle table head rest) : (table head).prev = rest.getLastD head := by
  obtain ⟨init, hlist⟩ := h.exists_tail
  have hlast := congrArg List.getLast? hlist
  rw [List.getLast?_append, List.getLast?_cons] at hlast
  simpa [List.getLastD_eq_getLast?] using hlast.symm

/-- A later member has the one before it for a predecessor and the one after it,
or the first of all, for a successor. -/
theorem links_member (h : Circle table head (before ++ id :: after)) :
    (table id).prev = before.getLastD head ∧ (table id).next = after.headD head := by
  have hchain := h.faces
  rw [List.append_assoc, List.cons_append] at hchain
  constructor
  · cases hbefore : before.eq_nil_or_concat with
    | inl hnil =>
        subst hnil
        exact (List.isChain_cons_cons.mp hchain).1.2
    | inr hconcat =>
        obtain ⟨init, last, hlast⟩ := hconcat
        rw [List.concat_eq_append] at hlast
        subst hlast
        rw [List.append_assoc, List.singleton_append, List.isChain_cons_append_cons_cons] at hchain
        simpa using hchain.2.1.2
  · rw [List.isChain_cons_split] at hchain
    cases after with
    | nil => exact (List.isChain_cons_cons.mp hchain.2).1.1
    | cons first after => exact (List.isChain_cons_cons.mp hchain.2).1.1

/-- Links do not lead out of a circle. -/
theorem links_mem (h : Circle table head rest) (hid : id ∈ head :: rest) :
    (table id).prev ∈ head :: rest ∧ (table id).next ∈ head :: rest := by
  rcases List.mem_cons.mp hid with rfl | hid
  · refine ⟨h.prev_head_mem, ?_⟩
    rw [h.next_head]
    cases rest <;> simp
  · obtain ⟨before, after, rfl⟩ := List.append_of_mem hid
    rw [h.links_member.1, h.links_member.2]
    constructor
    · rw [← List.cons_append, List.mem_append]
      exact .inl List.getLastD_mem_cons
    · cases after <;> simp

/-! ## Recognising circles -/

/-- Going back from one member to the one before it, no name is met twice before
the first one is. -/
private theorem nodup_of_chain {first : NodeId} {list : List NodeId}
    (hchain : (first :: list).IsChain (Faces table)) (hfirst : first ∉ list) :
    (first :: list).Nodup := by
  induction list generalizing first with
  | nil => simp
  | cons second list ih =>
      have hsecond : second ∉ list := by
        intro hmem
        obtain ⟨front, back, rfl⟩ := List.append_of_mem hmem
        -- what comes before the second occurrence is the predecessor of both
        obtain ⟨⟨-, hprev⟩, hrest⟩ := List.isChain_cons_cons.mp hchain
        obtain ⟨init, last, hlast⟩ : ∃ init last, second :: front = init ++ [last] := by
          obtain ⟨init, last, hlist⟩ :=
            List.eq_nil_or_concat (second :: front) |>.resolve_left (by simp)
          exact ⟨init, last, by rw [hlist, List.concat_eq_append]⟩
        rw [← List.cons_append, hlast, List.append_assoc, List.singleton_append,
          List.isChain_append_cons_cons] at hrest
        have hsame : first = last := hprev.symm.trans hrest.2.1.2
        apply hfirst
        rw [← List.cons_append, hlast, hsame]
        simp
      exact List.nodup_cons.mpr ⟨hfirst, ih (List.isChain_cons_cons.mp hchain).2 hsecond⟩

/-- A chain that leads back to where it began is a circle, if it has not been
there in between. -/
theorem of_faces (hfaces : (head :: (rest ++ [head])).IsChain (Faces table)) (hhead : head ∉ rest) :
    Circle table head rest := by
  refine ⟨?_, hfaces⟩
  rw [← List.cons_append] at hfaces
  exact nodup_of_chain hfaces.left_of_append hhead

/-- Two circles that share a later member have the same head, since the way back
from that member is the same. -/
theorem head_eq {second : NodeId} {others : List NodeId} (h : Circle table head rest)
    (hother : Circle table second others) (hhead : head ∉ others) (hsecond : second ∉ rest)
    (hid : id ∈ rest) (hid' : id ∈ others) : head = second := by
  obtain ⟨before, after, rfl⟩ := List.append_of_mem hid
  clear hid
  induction before using List.reverseRecOn generalizing id after with
  | nil =>
      obtain ⟨before', after', rfl⟩ := List.append_of_mem hid'
      have hprev := h.links_member.1.symm.trans hother.links_member.1
      rcases List.eq_nil_or_concat before' with rfl | ⟨init, last, rfl⟩
      · exact hprev
      · refine absurd ?_ hhead
        rw [List.getLastD_nil] at hprev
        rw [hprev]
        simp
  | append_singleton before last ih =>
      obtain ⟨before', after', rfl⟩ := List.append_of_mem hid'
      have hprev := h.links_member.1.symm.trans hother.links_member.1
      rw [List.getLastD_concat] at hprev
      rcases List.eq_nil_or_concat before' with rfl | ⟨init, last', rfl⟩
      · refine absurd ?_ hsecond
        rw [List.getLastD_nil] at hprev
        rw [← hprev]
        simp
      · rw [List.concat_eq_append, List.getLastD_concat] at hprev
        have hround : (before ++ [last]) ++ id :: after = before ++ last :: id :: after := by simp
        rw [hround] at h hsecond
        exact ih (by simp [hprev]) _ h hsecond

/-! ## Circles and links determine each other -/

/-- Two tables with the same circle agree on the links of its members. -/
theorem links_eq (h : Circle table head rest) (h' : Circle table' head rest)
    (hid : id ∈ head :: rest) : table id = table' id := by
  have hsame : (table id).next = (table' id).next ∧ (table id).prev = (table' id).prev := by
    rcases List.mem_cons.mp hid with rfl | hid
    · exact ⟨h.next_head.trans h'.next_head.symm, h.prev_head.trans h'.prev_head.symm⟩
    · obtain ⟨before, after, rfl⟩ := List.append_of_mem hid
      exact ⟨h.links_member.2.trans h'.links_member.2.symm,
        h.links_member.1.trans h'.links_member.1.symm⟩
  cases hlinks : table id
  cases hlinks' : table' id
  simp_all

/-- Going forward from a member, a chain that ends at the head is unambiguous. -/
private theorem list_eq_of_chain {first : NodeId} {list list' : List NodeId}
    (h : (first :: (list ++ [head])).IsChain (Faces table)) (hhead : head ∉ list)
    (h' : (first :: (list' ++ [head])).IsChain (Faces table)) (hhead' : head ∉ list') :
    list = list' := by
  induction list generalizing first list' with
  | nil =>
      cases list' with
      | nil => rfl
      | cons second list' =>
          have hnext := (List.isChain_cons_cons.mp h).1.1
          have hnext' := (List.isChain_cons_cons.mp h').1.1
          refine absurd (List.mem_cons.mpr (.inl ?_)) hhead'
          exact hnext.symm.trans hnext'
  | cons second list ih =>
      obtain ⟨⟨hnext, -⟩, hrest⟩ := List.isChain_cons_cons.mp h
      cases list' with
      | nil =>
          have hnext' := (List.isChain_cons_cons.mp h').1.1
          refine absurd (List.mem_cons.mpr (.inl ?_)) hhead
          exact hnext'.symm.trans hnext
      | cons second' list' =>
          obtain ⟨⟨hnext', -⟩, hrest'⟩ := List.isChain_cons_cons.mp h'
          obtain rfl : second = second' := hnext.symm.trans hnext'
          rw [ih hrest (fun hmem => hhead (List.mem_cons_of_mem _ hmem)) hrest'
            fun hmem => hhead' (List.mem_cons_of_mem _ hmem)]

/-- The ring behind a head is what the links say it is. -/
theorem rest_eq {rest' : List NodeId} (h : Circle table head rest) (h' : Circle table head rest') :
    rest = rest' :=
  list_eq_of_chain h.faces (List.nodup_cons.mp h.nodup).1 h'.faces (List.nodup_cons.mp h'.nodup).1

/-! ## Joining and leaving -/

theorem append (h : Circle table head rest) (hid : id ∉ head :: rest) :
    Circle (table.append head id) head (rest ++ [id]) := by
  obtain ⟨init, hlist⟩ := h.exists_tail
  have hnodup := h.nodup
  have hchain := h.faces
  set tail := (table head).prev with htail
  have hne : id ≠ head := fun heq => hid (by simp [heq])
  refine ⟨?_, ?_⟩
  · rw [← List.cons_append]
    exact List.nodup_append.mpr ⟨h.nodup, by simp, by grind⟩
  · -- the step from the tail back to the head becomes two, and all others stay
    rw [← List.cons_append, hlist, List.append_assoc, List.singleton_append,
      List.isChain_append_cons_cons] at hchain
    rw [List.append_assoc, ← List.cons_append, hlist, List.append_assoc, List.singleton_append,
      List.singleton_append, List.isChain_append_cons_cons]
    refine ⟨isChain_imp (fun first hfirst second hsecond hfaces => ?_) hchain.1, ?_, ?_⟩
    · rw [List.dropLast_concat] at hfirst
      have hsecond' : second ∈ rest := by rwa [← hlist, List.tail_cons] at hsecond
      rw [hlist] at hnodup hid
      have hfirst_tail : first ≠ tail := by
        rintro rfl
        exact (List.nodup_append.mp hnodup).2.2 _ hfirst _ (by simp) rfl
      have hfirst_id : first ≠ id := by
        rintro rfl
        exact hid (List.mem_append_left _ hfirst)
      have hsecond_head : second ≠ head := by
        rintro rfl
        exact (List.nodup_cons.mp h.nodup).1 hsecond'
      have hsecond_id : second ≠ id := by
        rintro rfl
        exact hid (hlist ▸ List.mem_cons_of_mem _ hsecond')
      refine ⟨?_, ?_⟩
      · rw [Table.next_append, if_neg hfirst_tail, if_neg hfirst_id]
        exact hfaces.1
      · rw [Table.prev_append, if_neg hsecond_head, if_neg hsecond_id]
        exact hfaces.2
    · refine ⟨?_, ?_⟩
      · rw [Table.next_append, if_pos htail]
      · rw [Table.prev_append, if_neg hne, if_pos rfl]
    · rw [List.isChain_pair]
      have hid_tail : id ≠ tail := by
        rintro rfl
        exact hid (hlist ▸ by simp)
      refine ⟨?_, ?_⟩
      · rw [Table.next_append, if_neg hid_tail, if_pos rfl]
      · rw [Table.prev_append, if_pos rfl]

/-- Taking `id` out from between two neighbours, where no other step of the chain
leads from the first or to the second of them. -/
private theorem isChain_unlink {front back : List NodeId} {last first : NodeId}
    (hchain : (front ++ last :: id :: first :: back).IsChain (Faces table))
    (hfront : ∀ a ∈ front, a ≠ last ∧ a ≠ id)
    (hfront' : ∀ b ∈ (front ++ [last]).tail, b ≠ first ∧ b ≠ id)
    (hback : ∀ a ∈ (first :: back).dropLast, a ≠ last ∧ a ≠ id)
    (hback' : ∀ b ∈ back, b ≠ first ∧ b ≠ id) (hends : last ≠ id ∧ first ≠ id) :
    (front ++ last :: first :: back).IsChain (Faces (table.remove id)) := by
  rw [List.isChain_append_cons_cons, List.isChain_cons_cons] at hchain
  obtain ⟨hleft, hlast, hfirst, hright⟩ := hchain
  have hprev : (table id).prev = last := hlast.2
  have hnext : (table id).next = first := hfirst.1
  have hkeep : ∀ a b, a ≠ last ∧ a ≠ id → b ≠ first ∧ b ≠ id → Faces table a b →
      Faces (table.remove id) a b := by
    intro a b ha hb hfaces
    refine ⟨?_, ?_⟩
    · rw [Table.next_remove, if_neg ha.2, if_neg (hprev ▸ ha.1)]
      exact hfaces.1
    · rw [Table.prev_remove, if_neg hb.2, if_neg (hnext ▸ hb.1)]
      exact hfaces.2
  rw [List.isChain_append_cons_cons]
  refine ⟨isChain_imp (fun a ha b hb => hkeep a b ?_ (hfront' b hb)) hleft, ⟨?_, ?_⟩,
    isChain_imp (fun a ha b hb => hkeep a b (hback a ha) (hback' b hb)) hright⟩
  · rw [List.dropLast_concat] at ha
    exact hfront a ha
  · rw [Table.next_remove, if_neg hends.1, if_pos hprev.symm, hnext]
  · rw [Table.prev_remove, if_neg hends.2, if_pos hnext.symm, hprev]

/-- The members before `id`, with the head, and those behind it, up to the head
again, have nothing in common but the head, and `id` is not among them. -/
private theorem apart (h : Circle table head (before ++ id :: after)) :
    (∀ a ∈ head :: before, a ≠ id) ∧ (∀ b ∈ after ++ [head], b ≠ id) ∧
      (∀ b ∈ before, ∀ c ∈ after ++ [head], b ≠ c) ∧ (∀ a ∈ after, ∀ c ∈ head :: before, a ≠ c) ∧
        (head :: before).Nodup ∧ (after ++ [head]).Nodup := by
  have hnodup : ((head :: before) ++ id :: after).Nodup := h.nodup
  obtain ⟨hbefore, hafter, hcross⟩ := List.nodup_append.mp hnodup
  refine ⟨fun a ha => hcross a ha id List.mem_cons_self, fun b hb => ?_, fun b hb c hc => ?_,
    fun a ha c hc => (hcross c hc a (List.mem_cons_of_mem _ ha)).symm, hbefore, ?_⟩
  · rcases List.mem_append.mp hb with hb | hb
    · rintro rfl
      exact (List.nodup_cons.mp hafter).1 hb
    · rw [List.mem_singleton.mp hb]
      exact hcross head List.mem_cons_self id List.mem_cons_self
  · rcases List.mem_append.mp hc with hc | hc
    · exact hcross b (List.mem_cons_of_mem _ hb) c (List.mem_cons_of_mem _ hc)
    · rintro rfl
      rw [List.mem_singleton.mp hc] at hb
      exact (List.nodup_cons.mp hbefore).1 hb
  · refine List.nodup_append.mpr ⟨(List.nodup_cons.mp hafter).2, by simp, fun a ha b hb => ?_⟩
    rw [List.mem_singleton.mp hb]
    exact (hcross head List.mem_cons_self a (List.mem_cons_of_mem _ ha)).symm

theorem remove_member (h : Circle table head (before ++ id :: after)) :
    Circle (table.remove id) head (before ++ after) := by
  obtain ⟨hid, hid', hapart, hapart', hbefore, hround⟩ := h.apart
  -- the chain around the circle is taken apart at the neighbours of `id`
  obtain ⟨init, last, hinit⟩ : ∃ init last, head :: before = init ++ [last] := by
    obtain ⟨init, last, hlist⟩ :=
      List.eq_nil_or_concat (head :: before) |>.resolve_left (by simp)
    exact ⟨init, last, by rw [hlist, List.concat_eq_append]⟩
  obtain ⟨first, others, hothers⟩ : ∃ first others, after ++ [head] = first :: others :=
    List.exists_cons_of_ne_nil (by simp)
  have hsublist : List.Sublist (before ++ after) (before ++ id :: after) :=
    List.Sublist.append_left (List.sublist_cons_self _ _) _
  refine ⟨h.nodup.sublist (hsublist.cons_cons head), ?_⟩
  have hall : head :: (before ++ id :: after ++ [head]) =
      init ++ last :: id :: first :: others := by
    calc head :: (before ++ id :: after ++ [head])
        = (head :: before) ++ id :: (after ++ [head]) := by simp
      _ = init ++ last :: id :: first :: others := by rw [hinit, hothers]; simp
  have hrest : head :: (before ++ after ++ [head]) = init ++ last :: first :: others := by
    calc head :: (before ++ after ++ [head])
        = (head :: before) ++ (after ++ [head]) := by simp
      _ = init ++ last :: first :: others := by rw [hinit, hothers]; simp
  have hchain := h.faces
  rw [hall] at hchain
  have hlast_mem : last ∈ head :: before := hinit ▸ by simp
  have hfirst_mem : first ∈ after ++ [head] := hothers ▸ by simp
  rw [hrest]
  refine isChain_unlink hchain ?_ ?_ ?_ ?_ ⟨hid last hlast_mem, hid' first hfirst_mem⟩
  · intro a ha
    have hmem : a ∈ head :: before := hinit ▸ List.mem_append_left _ ha
    rw [hinit] at hbefore
    exact ⟨(List.nodup_append.mp hbefore).2.2 a ha last (by simp), hid a hmem⟩
  · intro b hb
    rw [← hinit, List.tail_cons] at hb
    exact ⟨hapart b hb first hfirst_mem, hid b (List.mem_cons_of_mem _ hb)⟩
  · intro a ha
    rw [← hothers, List.dropLast_concat] at ha
    exact ⟨hapart' a ha last hlast_mem, hid' a (List.mem_append_left _ ha)⟩
  · intro b hb
    have hmem : b ∈ after ++ [head] := hothers ▸ List.mem_cons_of_mem _ hb
    rw [hothers] at hround
    refine ⟨?_, hid' b hmem⟩
    rintro rfl
    exact (List.nodup_cons.mp hround).1 hb

/-- A ring may be entered through its second member as well. -/
theorem rotate {heir : NodeId} (h : Circle table head (heir :: rest)) :
    Circle table heir (rest ++ [head]) := by
  have hchain := h.faces
  rw [List.cons_append, List.isChain_cons_cons] at hchain
  refine ⟨?_, ?_⟩
  · exact (List.perm_append_singleton head (heir :: rest)).nodup_iff.mpr h.nodup
  · rw [List.append_assoc, List.singleton_append, List.isChain_cons_append_cons_cons]
    exact ⟨hchain.2, hchain.1, List.isChain_singleton _⟩

theorem remove_head {heir : NodeId} (h : Circle table head (heir :: rest)) :
    Circle (table.remove head) heir rest := by
  have := h.rotate.remove_member
  rwa [List.append_nil] at this

end Circle

end Ring

end ElasticTree
