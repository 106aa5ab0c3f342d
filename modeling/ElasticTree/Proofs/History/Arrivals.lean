import ElasticTree.History.Arrivals
import ElasticTree.Proofs.Filtering
import ElasticTree.Proofs.History.Mirror
import Mathlib.Data.List.Find
import Mathlib.Data.List.TakeWhile

/-!
# The order of arrival within a key

A ledger puts an entry behind all those of smaller or equal key, so nodes of
equal key stand in it as they came (`filter_insert`).  What a caller has noted of
a history is the ledger without its order of keys: within one key both say the
same (`play_notes`).

The first node that a search can find is the first of its key, since a search
looks at keys only.  So it is the one of its key that came first
(`Mirrors.leads`), and from the other end the one that came last.
-/

namespace ElasticTree

namespace Multimap

variable {C : Type} [LT C] [DecidableLT C] {map : Multimap C} {key : C} {id : NodeId}

section Order

variable (htrans : ∀ {first second third : C}, ¬ second < first → ¬ third < second →
  ¬ third < first)
include htrans

/-- What comes behind the first larger key is larger. -/
private theorem lt_of_mem_dropWhile (h : map.Sorted) (key : C) :
    ∀ entry ∈ map.dropWhile (fun entry => ¬ key < entry.1), key < entry.1 := by
  have hsuffix : (map.dropWhile fun entry => ¬ key < entry.1).Pairwise
      fun first second => ¬ second.1 < first.1 := h.sublist (List.dropWhile_sublist _)
  have hhead := List.head?_dropWhile_not (fun entry : C × NodeId => decide (¬ key < entry.1)) map
  revert hsuffix hhead
  generalize map.dropWhile (fun entry => ¬ key < entry.1) = larger
  intro hsuffix hhead
  cases larger with
  | nil => simp
  | cons first larger =>
      have hfirst : key < first.1 := by simpa using hhead
      intro entry hentry
      rcases List.mem_cons.mp hentry with rfl | hentry
      · exact hfirst
      · by_contra hnot
        exact htrans ((List.pairwise_cons.mp hsuffix).1 entry hentry) hnot hfirst

theorem Sorted.insert (hasymm : ∀ {first second : C}, first < second → ¬ second < first)
    (h : map.Sorted) (key : C) (id : NodeId) : (map.insert key id).Sorted := by
  have hlarger := lt_of_mem_dropWhile htrans h key
  have hsmaller : ∀ entry ∈ map.takeWhile (fun entry => ¬ key < entry.1), ¬ key < entry.1 :=
    fun entry hentry => by simpa using List.mem_takeWhile_imp hentry
  rw [Sorted, ← List.takeWhile_append_dropWhile (p := fun entry => decide (¬ key < entry.1))
    (l := map), List.pairwise_append] at h
  refine List.pairwise_append.mpr ⟨h.1, List.pairwise_cons.mpr ⟨?_, h.2.1⟩, ?_⟩
  · exact fun entry hentry => hasymm (hlarger entry hentry)
  · intro first hfirst second hsecond
    rcases List.mem_cons.mp hsecond with rfl | hsecond
    · exact hsmaller first hfirst
    · exact h.2.2 first hfirst second hsecond

/-- Within its key the new entry is the last one, and within other keys nothing
changes. -/
theorem filter_insert [DecidableEq C] (hirrefl : ∀ key : C, ¬ key < key) (h : map.Sorted)
    (key : C) (id : NodeId) (other : C) :
    (map.insert key id).filter (fun entry => entry.1 = other) =
      map.filter (fun entry => entry.1 = other) ++ [(key, id)].filter fun entry =>
        entry.1 = other := by
  have hlarger := lt_of_mem_dropWhile htrans h key
  conv_rhs =>
    rw [← List.takeWhile_append_dropWhile (p := fun entry => decide (¬ key < entry.1)) (l := map)]
  rw [Multimap.insert, List.filter_append, List.filter_append, ← List.singleton_append,
    List.filter_append, List.append_assoc]
  by_cases heq : key = other
  · have hnone : (map.dropWhile fun entry => ¬ key < entry.1).filter
        (fun entry => entry.1 = other) = [] := by
      refine List.filter_eq_nil_iff.mpr fun entry hentry hsame => ?_
      have hsame : entry.1 = other := of_decide_eq_true hsame
      exact hirrefl key (by simpa [hsame, heq] using hlarger entry hentry)
    rw [hnone, List.append_nil, List.nil_append]
  · have hother : [(key, id)].filter (fun entry => entry.1 = other) = [] := by simp [heq]
    rw [hother, List.append_nil, List.nil_append]

end Order

end Multimap

/-! ## Ledgers and notes -/

namespace Ledger

variable {K V L C : Type} [DecidableEq C] {noted : List NodeId} {linked : Multimap C} {id : NodeId}

/-- The nodes noted are those linked, and within every key they stand in the same
order. -/
def Notes (noted : List NodeId) (linked : Multimap C) : Prop :=
  ∃ order : Multimap C, order.map Prod.snd = noted ∧ ∀ key,
    linked.filter (fun entry => entry.1 = key) = order.filter fun entry => entry.1 = key

private theorem Notes.erase (h : Notes noted linked) (id : NodeId) :
    Notes (noted.filter (· ≠ id)) (linked.erase id) := by
  obtain ⟨order, rfl, hfilter⟩ := h
  refine ⟨order.erase id, ?_, fun key => ?_⟩
  · rw [Multimap.erase, List.filter_map]
    rfl
  · rw [Multimap.erase, Multimap.erase, List.filter_comm, hfilter key, List.filter_comm]

private theorem mem_ids_of_find? {key : C} (h : linked.find? key = some id) :
    id ∈ linked.map Prod.snd := by
  obtain ⟨entry, hentry, rfl⟩ := Option.map_eq_some_iff.mp h
  exact List.mem_map_of_mem (List.mem_of_find?_eq_some hentry)

section Order

variable [LT C] [DecidableLT C] {view : K → C} {ledger : Ledger K V C}
  (hasymm : ∀ {first second : C}, first < second → ¬ second < first)
  (htrans : ∀ {first second third : C}, ¬ second < first → ¬ third < second → ¬ third < first)
include hasymm htrans

private theorem Notes.insert (h : Notes noted linked) (hsorted : linked.Sorted) (key : C)
    (id : NodeId) : Notes (noted ++ [id]) (linked.insert key id) := by
  obtain ⟨order, rfl, hfilter⟩ := h
  refine ⟨order ++ [(key, id)], by simp, fun other => ?_⟩
  rw [Multimap.filter_insert htrans (fun key hlt => hasymm hlt hlt) hsorted, hfilter,
    List.filter_append]

/-- A request keeps a ledger sorted, and what is noted of it keeps up with the
ledger. -/
private theorem perform_notes (hsorted : ledger.linked.Sorted) (hnotes : Notes noted ledger.linked)
    (request : Request K V L) : (ledger.perform view request).2.linked.Sorted ∧
      Notes (request.note noted (ledger.perform view request).1)
        (ledger.perform view request).2.linked := by
  have herased : ∀ id, (ledger.linked.erase id).Sorted :=
    fun id => hsorted.sublist List.filter_sublist
  cases request with
  | alloc key value => exact ⟨hsorted, hnotes⟩
  | setValue id value => exact ⟨hsorted, hnotes⟩
  | clear => exact ⟨List.Pairwise.nil, [], rfl, fun _ => rfl⟩
  | free id =>
      rw [perform]
      repeat' split
      all_goals exact ⟨hsorted, hnotes⟩
  | unlink id =>
      rw [perform]
      split
      · exact ⟨hsorted, hnotes⟩
      · split
        · exact ⟨herased id, hnotes.erase id⟩
        · exact ⟨hsorted, hnotes⟩
  | remove id =>
      rw [perform]
      split
      · exact ⟨hsorted, hnotes⟩
      · split
        · exact ⟨herased id, hnotes.erase id⟩
        · exact ⟨hsorted, hnotes⟩
  | insert id how =>
      rw [perform]
      split
      · exact ⟨hsorted, hnotes⟩
      · rename_i key value _
        split
        · exact ⟨hsorted, hnotes⟩
        · rename_i hid
          -- if the key has a holder already, it is linked, and the new node is not
          cases hholder : if ledger.unique then ledger.linked.find? (view key) else none with
          | some holder =>
              have hne : holder ≠ id := by
                rintro rfl
                split at hholder
                · exact hid (mem_ids_of_find? hholder)
                · cases hholder
              simp only [Ledger.insert, hholder, Request.note, if_neg hne]
              exact ⟨hsorted, hnotes⟩
          | none =>
              simp only [Ledger.insert, hholder, Request.note, if_pos]
              exact ⟨hsorted.insert htrans hasymm _ _, hnotes.insert hasymm htrans hsorted _ _⟩

private theorem play_notesFrom (requests : List (Request K V L)) (hsorted : ledger.linked.Sorted)
    (hnotes : Notes noted ledger.linked) :
    Notes (arrivalsFrom noted requests (ledger.play view requests).1)
      (ledger.play view requests).2.linked := by
  induction requests generalizing ledger noted with
  | nil => exact hnotes
  | cons request rest ih =>
      obtain ⟨hsorted, hnotes⟩ := perform_notes hasymm htrans hsorted hnotes request
      exact ih hsorted hnotes

/-- What is noted of a history says in which order the ledger has the nodes of a
key. -/
theorem play_notes (unique : Bool) (requests : List (Request K V L)) :
    Notes (arrivals requests ((Ledger.empty unique).play view requests).1)
      ((Ledger.empty unique).play view requests).2.linked :=
  play_notesFrom hasymm htrans requests List.Pairwise.nil ⟨[], rfl, fun _ => rfl⟩

end Order

end Ledger

/-! ## Searches -/

namespace Tree.Mirrors

variable {K V C : Type} [LT C] [Inhabited C] [DecidableEq C] {discipline : Discipline C}
  {view : K → C} {floor : Nat} {tree : Tree K V} {ledger : Ledger K V C} {shape : Option Shape}
  {noted : List NodeId} {answer : Except Fault (Option NodeId)}

/-- The nodes noted of a tree are its nodes, in the same order within a key. -/
private theorem filter_noted (h : Mirrors discipline view floor tree ledger shape)
    (hnotes : Ledger.Notes noted ledger.linked) (key : C) :
    noted.filter (fun id => tree.rank view id = key) =
      (shape.elim [] Shape.members).filter fun id => tree.rank view id = key := by
  obtain ⟨order, rfl, hfilter⟩ := hnotes
  have hrank : ∀ entry ∈ order, tree.rank view entry.2 = entry.1 := by
    intro entry hentry
    have hmem : entry ∈ ledger.linked.filter fun other => other.1 = entry.1 := by
      rw [hfilter]
      exact List.mem_filter.mpr ⟨hentry, decide_eq_true rfl⟩
    rw [h.linked_eq] at hmem
    obtain ⟨id, -, rfl⟩ := List.mem_map.mp (List.mem_filter.mp hmem).1
    rfl
  have hkeys := congrArg (List.map Prod.snd) (hfilter key)
  rw [h.linked_eq, Multimap.entriesBy, List.filter_map, List.map_map] at hkeys
  rw [List.filter_map]
  calc (order.filter ((fun id => decide (tree.rank view id = key)) ∘ Prod.snd)).map Prod.snd
      = (order.filter fun entry => entry.1 = key).map Prod.snd := by
        rw [List.filter_congr fun entry hentry => ?_]
        rw [Function.comp_apply, hrank entry hentry]
    _ = (shape.elim [] Shape.members).filter fun id => tree.rank view id = key := by
        rw [← hkeys]
        exact List.map_id' _

omit [LT C] in
/-- What comes first among the nodes with the key of an answer comes first in any
list that has the nodes of this key in the same order. -/
private theorem leads_of_filter {order ids : List NodeId} (test : C → Bool)
    (hlive : ∀ id ∈ order, tree.nodes.Live id) (hids : ∀ id ∈ ids, tree.nodes.Live id)
    (hfilter : ∀ key, order.filter (fun id => tree.rank view id = key) =
      ids.filter fun id => tree.rank view id = key)
    (hanswer : answer = .ok (ids.find? fun id => test (tree.rank view id))) :
    tree.Leads view order answer := by
  have hkey : ∀ id, tree.nodes.Live id → (tree.key? id).map view = some (tree.rank view id) := by
    intro id hid
    obtain ⟨node, hnode⟩ := Option.isSome_iff_exists.mp hid
    rw [key?, hnode, rank_of_get? view hnode]
    rfl
  rintro id rfl
  have hfound : ids.find? (fun id => test (tree.rank view id)) = some id :=
    (Except.ok.inj hanswer).symm
  have hid := List.mem_of_find?_eq_some hfound
  have hnarrow : ids.find? (fun other => tree.rank view other = tree.rank view id) = some id := by
    refine find?_narrow hfound (decide_eq_true rfl) fun other _ hsame => ?_
    rw [of_decide_eq_true hsame]
    exact List.find?_some (p := fun id => test (tree.rank view id)) hfound
  rw [List.find?_congr fun other hother => by rw [hkey other (hlive other hother),
    hkey id (hids id hid)]]
  simp only [Option.some.injEq]
  rw [← List.head?_filter, hfilter, List.head?_filter, hnarrow]

variable (h : Mirrors discipline view floor tree ledger shape)
  (hnotes : Ledger.Notes noted ledger.linked) (test : C → Bool)
include h hnotes

private theorem live_of_noted : ∀ id ∈ noted, tree.nodes.Live id := by
  intro id hid
  have hmem : id ∈ noted.filter fun other => tree.rank view other = tree.rank view id :=
    List.mem_filter.mpr ⟨hid, decide_eq_true rfl⟩
  rw [h.filter_noted hnotes] at hmem
  exact h.stands.live (List.mem_filter.mp hmem).1

/-- The first node that a search can find was the first of its key to come. -/
theorem leads (hanswer : answer =
    .ok ((shape.elim [] Shape.members).find? fun id => test (tree.rank view id))) :
    tree.Leads view noted answer :=
  leads_of_filter test (h.live_of_noted hnotes) (fun _ hid => h.stands.live hid)
    (h.filter_noted hnotes) hanswer

/-- The last node that a search can find was the last of its key to come. -/
theorem leads_reverse (hanswer : answer =
    .ok ((shape.elim [] Shape.members).reverse.find? fun id => test (tree.rank view id))) :
    tree.Leads view noted.reverse answer := by
  refine leads_of_filter test (fun id hid => h.live_of_noted hnotes id (List.mem_reverse.mp hid))
    (fun id hid => h.stands.live (List.mem_reverse.mp hid)) (fun key => ?_) hanswer
  rw [List.filter_reverse, List.filter_reverse, h.filter_noted hnotes]

end Tree.Mirrors

end ElasticTree
