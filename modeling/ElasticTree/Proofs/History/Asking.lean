import ElasticTree.History.Query
import ElasticTree.Proofs.Arena.Projection
import ElasticTree.Proofs.History.Showing
import ElasticTree.Proofs.Tree.KeySteps
import ElasticTree.Proofs.Tree.Outline

/-!
# Questions to a tree that mirrors a ledger

Every question that a tree is asked has the answer of the ledger that it mirrors
(`Mirrors.ask_eq`).  What the walks find is said of the nodes in order, and the
ledger is that order with the keys.
-/

namespace ElasticTree

open Shape

/-! ## The ledger of a list of nodes -/

namespace Multimap

variable {K : Type} {rank : NodeId → K} {ids : List NodeId} {id : NodeId}

/-- A search by key among the entries is one among the nodes. -/
theorem map_find?_entriesBy (test : K → Bool) :
    (List.find? (fun entry => test entry.1) (entriesBy rank ids)).map Prod.snd =
      ids.find? fun id => test (rank id) := by
  rw [entriesBy, List.find?_map, Option.map_map]
  exact Option.map_id'

theorem reverse_entriesBy : (entriesBy rank ids).reverse = entriesBy rank ids.reverse :=
  List.map_reverse.symm

theorem keyOf?_entriesBy (hid : id ∈ ids) : (entriesBy rank ids).keyOf? id = some (rank id) := by
  obtain ⟨found, hfound⟩ : ∃ found, ids.find? (fun other => other = id) = some found :=
    Option.isSome_iff_exists.mp (List.find?_isSome.mpr ⟨id, hid, decide_eq_true rfl⟩)
  have heq : found = id :=
    of_decide_eq_true (List.find?_some (p := fun other => decide (other = id)) hfound)
  rw [keyOf?, entriesBy, List.find?_map, Option.map_map]
  show (ids.find? fun other => other = id).map _ = _
  rw [hfound, heq]
  rfl

theorem heads_entriesBy [DecidableEq K] :
    (entriesBy rank ids).heads = entriesBy rank (firsts rank ids) := by
  rw [heads, entriesBy, List.filter_map, firsts]
  congr 1
  apply List.filter_congr
  intro id _
  rw [Function.comp_apply, find?, ← entriesBy]
  rw [map_find?_entriesBy fun key => decide (key = rank id)]

end Multimap

namespace Tree

namespace Mirrors

variable {K V C Q : Type} [LT C] [Inhabited C] {discipline : Discipline C} {view : K → C}
  {floor : Nat} {tree : Tree K V} {ledger : Ledger K V C} {shape : Option Shape} {id : NodeId}
  (h : Mirrors discipline view floor tree ledger shape)
include h

/-! ## Entries -/

/-- What a tree shows of a node is what the ledger has stored. -/
private theorem entryOf?_eq {entry : Entry K V} (hentry : tree.entry id = .ok entry) :
    ledger.entryOf? id = some entry := by
  obtain ⟨node, hnode, rfl⟩ := entry_eq_ok_iff.mp hentry
  rw [Ledger.entryOf?, h.contents_get?, hnode]
  rfl

private theorem filterMap_entryOf? {entries : List (Entry K V)}
    (hentries : ∀ entry ∈ entries, tree.entry entry.id = .ok entry) :
    (entries.map Entry.id).filterMap ledger.entryOf? = entries := by
  calc (entries.map Entry.id).filterMap ledger.entryOf?
      = entries.filterMap (ledger.entryOf? ∘ Entry.id) := List.filterMap_map
    _ = entries.filterMap some :=
        List.filterMap_congr fun entry hentry => h.entryOf?_eq (hentries entry hentry)
    _ = entries := List.filterMap_some

private theorem toList_eq : tree.toList = .ok (ledger.ids.filterMap ledger.entryOf?) ∧
    tree.toListReverse = .ok (ledger.ids.reverse.filterMap ledger.entryOf?) := by
  obtain ⟨entries, hids, hlists⟩ := h.stands.lists
  rw [h.ids_eq, ← hids, ← List.map_reverse, h.filterMap_entryOf? fun _ => hlists.entry_eq,
    h.filterMap_entryOf? fun _ hentry => hlists.entry_eq (List.mem_reverse.mp hentry)]
  exact ⟨hlists.forward, hlists.backward⟩

private theorem groupHeads_eq [DecidableEq C] [DecidableLT C] (hsettles : discipline.Settles) :
    tree.groupHeads = .ok ((ledger.linked.heads.map Prod.snd).filterMap ledger.entryOf?) := by
  obtain ⟨entries, hids, hlists⟩ := h.stands.lists
  obtain ⟨heads, hheads, hsublist, hhead_ids⟩ := h.stands.groupHeads_eq hsettles h.obeys hlists hids
  rw [h.linked_eq, Multimap.heads_entriesBy, Multimap.map_snd_entriesBy, ← hhead_ids,
    h.filterMap_entryOf? fun _ hentry => hlists.entry_eq (hsublist.subset hentry)]
  exact hheads

/-! ## Steps -/

/-- A tree and its ledger refuse to step from the same names. -/
private theorem stepFrom_eq {step : NodeId → Except Fault (Option NodeId)} {answer : Option NodeId}
    (hstep : id ∈ shape.elim [] Shape.members → step id = .ok answer) :
    tree.stepFrom step id = .ok (ledger.stepFrom id answer) := by
  rw [stepFrom, Ledger.stepFrom, h.contents_get?, h.ids_eq]
  cases hnode : tree.nodes.get? id with
  | none =>
      rw [expectLinked_of_none hnode]
      rfl
  | some node =>
      by_cases hid : id ∈ shape.elim [] Shape.members
      · simp only [h.stands.expectLinked_of_mem hnode hid, hstep hid, Option.map_some, if_pos hid]
        rfl
      · simp only [h.stands.expectLinked_of_not_mem hnode hid, Option.map_some, if_neg hid]

private theorem neighbours_eq (hid : id ∈ shape.elim [] Shape.members) :
    tree.stepNext id = .ok (ledger.ids.dropWhile (· ≠ id)).tail.head? ∧
      tree.stepPrev id = .ok (ledger.ids.takeWhile (· ≠ id)).getLast? := by
  obtain ⟨front, back, hmembers⟩ := List.append_of_mem hid
  have hnodup := h.stands.draws.members_nodup
  rw [hmembers, List.nodup_append] at hnodup
  have hfront : ∀ other ∈ front, decide (other ≠ id) = true := fun other hother =>
    decide_eq_true (hnodup.2.2 other hother id List.mem_cons_self)
  rw [h.ids_eq, h.stands.stepNext_eq hmembers, h.stands.stepPrev_eq hmembers, hmembers,
    List.dropWhile_append_of_pos hfront, List.takeWhile_append_of_pos hfront]
  simp

private theorem stepGroup_eq [DecidableEq C] [DecidableLT C] (hsettles : discipline.Settles)
    (hid : id ∈ shape.elim [] Shape.members) :
    tree.stepGroup .right id = .ok ((ledger.linked.keyOf? id).bind ledger.linked.findGT?) ∧
      tree.stepGroup .left id = .ok ((ledger.linked.keyOf? id).bind ledger.linked.findLT?) := by
  rw [h.linked_eq, Multimap.keyOf?_entriesBy hid, Option.bind_some, Option.bind_some,
    Multimap.findGT?, Multimap.findLT?, Multimap.reverse_entriesBy,
    Multimap.map_find?_entriesBy fun key => decide (tree.rank view id < key),
    Multimap.map_find?_entriesBy fun key => decide (key < tree.rank view id)]
  exact ⟨h.stands.stepGroup_eq hsettles .right h.obeys hid,
    h.stands.stepGroup_eq hsettles .left h.obeys hid⟩

/-! ## Figures -/

private theorem duplicates_eq [DecidableEq C] [DecidableLT C] (hsettles : discipline.Settles) :
    (shape.elim [] Shape.chained).length + (shape.elim [] Shape.splits).countP (· < 0) =
      ledger.linked.length - ledger.linked.heads.length := by
  rw [h.linked_eq, Multimap.heads_entriesBy, Multimap.length_entriesBy, Multimap.length_entriesBy]
  cases shape with
  | none => rfl
  | some found =>
      have hlength := (h.obeys found rfl).length_firsts hsettles h.stands.draws.members_nodup
      rw [Option.elim_some, Option.elim_some, Option.elim_some, ← hlength]
      omega

private theorem detached_eq : (tree.nodes.entries.countP fun entry =>
    entry.1 ∉ shape.elim [] Shape.members) =
      ledger.contents.entries.countP fun entry => entry.1 ∉ ledger.ids := by
  rw [h.contents_eq, contents, Arena.entries_project, List.countP_map, h.ids_eq]
  rfl

/-! ## All questions -/

/-- A tree answers every question as the ledger does, provided that its search
finds the first node of a key. -/
theorem ask_eq [DecidableEq C] [DecidableLT C] (hsettles : discipline.Settles) {look : Q → C}
    {search : Q → Except Fault (Option NodeId)}
    (hsearch : ∀ key, search key =
      .ok ((shape.elim [] Shape.members).find? fun id => tree.rank view id = look key))
    (query : Query Q) : tree.ask search query = .ok (ledger.ask (query.map look)) := by
  cases query with
  | find key =>
      have hfind : ledger.linked.find? (look key) =
          (shape.elim [] Shape.members).find? fun id => tree.rank view id = look key := by
        rw [h.linked_eq, Multimap.find?, Multimap.map_find?_entriesBy fun stored =>
          stored = look key]
      rw [Tree.ask, hsearch, Query.map, Ledger.ask, hfind]
      rfl
  | first =>
      rw [Tree.ask, first, h.stands.outermost_eq, ← h.ids_eq]
      rfl
  | last =>
      rw [Tree.ask, last, h.stands.outermost_eq, ← h.ids_eq]
      rfl
  | next id =>
      rw [Tree.ask, next, h.stepFrom_eq fun hid => (h.neighbours_eq hid).1]
      rfl
  | prev id =>
      rw [Tree.ask, prev, h.stepFrom_eq fun hid => (h.neighbours_eq hid).2]
      rfl
  | nextGroup id =>
      rw [Tree.ask, nextGroup, h.stepFrom_eq fun hid => (h.stepGroup_eq hsettles hid).1]
      rfl
  | prevGroup id =>
      rw [Tree.ask, prevGroup, h.stepFrom_eq fun hid => (h.stepGroup_eq hsettles hid).2]
      rfl
  | entries =>
      rw [Tree.ask, h.toList_eq.1]
      rfl
  | entriesReverse =>
      rw [Tree.ask, h.toList_eq.2]
      rfl
  | groupHeads =>
      rw [Tree.ask, h.groupHeads_eq hsettles]
      rfl
  | size =>
      rw [Tree.ask, h.shows.size_eq]
      rfl
  | figures =>
      rw [Tree.ask, h.stands.statistics_eq, Fault.ok_bind, Query.map, Ledger.ask,
        ← h.duplicates_eq hsettles, ← h.detached_eq, h.linked_eq, Multimap.length_entriesBy]
      rfl

end Mirrors

end Tree

end ElasticTree
