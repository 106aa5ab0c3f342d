import ElasticTree.History.Recoding
import ElasticTree.Proofs.Arena.Projection
import Mathlib.Logic.Function.Defs

/-!
# Ledgers with other keys

A ledger can be written down with other keys.  If the new writing keeps different
keys apart and in order, then carrying out a request and answering a question come
to the same before and after (`perform_recode`, `ask_recode`).
-/

namespace ElasticTree

/-- Keys are written down in another way, and what is compared of them is told
apart and ordered as before. -/
structure Coding {K K' C C' : Type} [LT C] [LT C'] (view : K → C) (view' : K' → C')
    (encode : K → K') (code : C → C') : Prop where
  view_encode : ∀ key, view' (encode key) = code (view key)
  injective : Function.Injective code
  lt_iff : ∀ first second, code first < code second ↔ first < second

namespace Request

variable {K K' V L L' : Type} {encode : K → K'} {told : L → L'}

/-- Insertions are told what there is to be told. -/
theorem allowed_of_mem_recode {allowed : L' → Prop} (h : ∀ how, allowed (told how))
    {requests : List (Request K V L)} :
    ∀ request ∈ requests.map (recode encode told), request.Allowed allowed := by
  intro request hrequest
  obtain ⟨request, -, rfl⟩ := List.mem_map.mp hrequest
  cases request with
  | insert id how => exact h how
  | _ => trivial

theorem countP_isInsert_recode (requests : List (Request K V L)) :
    (requests.map (recode encode told)).countP isInsert = requests.countP isInsert := by
  have hsame : (fun request : Request K V L => (request.recode encode told).isInsert) =
      isInsert := by
    funext request
    cases request <;> rfl
  rw [List.countP_map, Function.comp_def, hsame]

end Request

namespace Query

theorem map_map {C C' C'' : Type} (code : C → C') (code' : C' → C'') (query : Query C) :
    (query.map code).map code' = query.map fun key => code' (code key) := by
  cases query <;> rfl

end Query

namespace Multimap

variable {C C' : Type} {code : C → C'} {map : Multimap C} {key : C} {id : NodeId}

/-- The same entries under other keys. -/
def recode (code : C → C') (map : Multimap C) : Multimap C' :=
  map.map fun entry => (code entry.1, entry.2)

@[simp] theorem map_snd_recode : (map.recode code).map Prod.snd = map.map Prod.snd := by
  simp [recode, Function.comp_def]

@[simp] theorem length_recode : (map.recode code).length = map.length := List.length_map _

/-- A search by key finds the same node, if the test comes out the same. -/
theorem map_find?_recode (test : C → Bool) (test' : C' → Bool)
    (h : ∀ key, test' (code key) = test key) :
    (List.find? (fun entry => test' entry.1) (map.recode code)).map Prod.snd =
      (List.find? (fun entry => test entry.1) map).map Prod.snd := by
  rw [recode, List.find?_map, Option.map_map]
  simp only [Function.comp_def, h]

theorem keyOf?_recode : (map.recode code).keyOf? id = (map.keyOf? id).map code := by
  rw [keyOf?, keyOf?, recode, List.find?_map, Option.map_map, Option.map_map]
  rfl

theorem erase_recode : (map.recode code).erase id = (map.erase id).recode code := by
  rw [erase, erase, recode, recode, List.filter_map]
  rfl

section Keys

variable [DecidableEq C] [DecidableEq C'] (hinjective : Function.Injective code)
include hinjective

theorem find?_recode : (map.recode code).find? (code key) = map.find? key :=
  map_find?_recode (fun stored => stored = key) (fun stored => stored = code key)
    fun _ => decide_eq_decide.mpr hinjective.eq_iff

theorem heads_recode : (map.recode code).heads = map.heads.recode code := by
  rw [heads, heads, recode, recode, List.filter_map]
  congr 1
  apply List.filter_congr
  intro entry _
  rw [Function.comp_apply, ← recode, find?_recode hinjective]

end Keys

section Order

variable [LT C] [LT C'] [DecidableLT C] [DecidableLT C']
  (hlt : ∀ first second, code first < code second ↔ first < second)
include hlt

theorem findGT?_recode : (map.recode code).findGT? (code key) = map.findGT? key :=
  map_find?_recode (fun stored => key < stored) (fun stored => code key < stored)
    fun _ => decide_eq_decide.mpr (hlt _ _)

theorem findLT?_recode : (map.recode code).findLT? (code key) = map.findLT? key := by
  rw [findLT?, findLT?, recode, ← List.map_reverse]
  exact map_find?_recode (fun stored => stored < key) (fun stored => stored < code key)
    fun _ => decide_eq_decide.mpr (hlt _ _)

theorem insert_recode :
    (map.recode code).insert (code key) id = (map.insert key id).recode code := by
  simp only [insert, recode, List.takeWhile_map, List.dropWhile_map, List.map_append, List.map_cons,
    Function.comp_def, hlt]

end Order

end Multimap

namespace Ledger

variable {K K' V L L' C C' : Type} {encode : K → K'} {code : C → C'} {told : L → L'}
  {ledger : Ledger K V C} {id : NodeId}

/-- The ledger written down with other keys. -/
def recode (encode : K → K') (code : C → C') (ledger : Ledger K V C) : Ledger K' V C' where
  unique := ledger.unique
  contents := ledger.contents.project fun stored => (encode stored.1, stored.2)
  linked := ledger.linked.recode code

@[simp] theorem ids_recode : (ledger.recode encode code).ids = ledger.ids :=
  Multimap.map_snd_recode

@[simp] theorem contents_get?_recode : (ledger.recode encode code).contents.get? id =
    (ledger.contents.get? id).map fun stored => (encode stored.1, stored.2) :=
  Arena.get?_project

/-- Releasing a record comes to the same before and after. -/
private theorem remove_recode : ((ledger.recode encode code).contents.remove id).2 =
    (ledger.contents.remove id).2.project fun stored => (encode stored.1, stored.2) :=
  Arena.project_remove.symm

/-- What is stored is shown in the new writing. -/
private theorem filterMap_entryOf?_recode (ids : List NodeId) :
    ids.filterMap (ledger.recode encode code).entryOf? =
      (ids.filterMap ledger.entryOf?).map (Entry.recode encode) := by
  rw [List.map_filterMap]
  apply List.filterMap_congr
  intro id _
  rw [entryOf?, contents_get?_recode, entryOf?, Option.map_map, Option.map_map]
  rfl

private theorem stepFrom_recode (answer : Option NodeId) :
    (ledger.recode encode code).stepFrom id answer = ledger.stepFrom id answer := by
  rw [stepFrom, stepFrom, contents_get?_recode, ids_recode]
  cases ledger.contents.get? id <;> rfl

variable [LT C] [LT C'] [DecidableLT C] [DecidableLT C'] [DecidableEq C] [DecidableEq C']
  {view : K → C} {view' : K' → C'} (h : Coding view view' encode code)
include h

private theorem insert_recode (key : C) :
    (ledger.recode encode code).insert (code key) id =
      ((ledger.insert key id).1, (ledger.insert key id).2.recode encode code) := by
  unfold insert
  have hholder : (if (ledger.recode encode code).unique then
      (ledger.recode encode code).linked.find? (code key) else none) =
        if ledger.unique then ledger.linked.find? key else none := by
    cases hunique : ledger.unique with
    | false => simp [recode, hunique]
    | true => simp [recode, hunique, Multimap.find?_recode h.injective]
  rw [hholder]
  cases (if ledger.unique then ledger.linked.find? key else none) with
  | some holder => rfl
  | none =>
      show (id, (⟨_, _, (ledger.linked.recode code).insert (code key) id⟩ : Ledger K' V C')) = _
      rw [Multimap.insert_recode h.lt_iff]
      rfl

/-- A request comes to the same with its keys written in another way. -/
theorem perform_recode (told : L → L') (request : Request K V L) :
    (ledger.recode encode code).perform view' (request.recode encode told) =
      ((ledger.perform view request).1.recode encode,
        (ledger.perform view request).2.recode encode code) := by
  cases request with
  | alloc key value =>
      simp only [Request.recode, perform, Reply.recode, recode, Arena.nextId_project,
        Arena.project_add]
  | insert id how =>
      simp only [Request.recode, perform, contents_get?_recode, ids_recode]
      cases ledger.contents.get? id with
      | none => rfl
      | some stored =>
          simp only [Option.map_some]
          split_ifs
          · rfl
          · rw [h.view_encode, insert_recode h]
            rfl
  | unlink id =>
      simp only [Request.recode, perform, contents_get?_recode, ids_recode]
      cases ledger.contents.get? id with
      | none => rfl
      | some stored =>
          simp only [Option.map_some]
          split_ifs
          · simp only [recode, Multimap.erase_recode, Reply.recode]
            simp [Multimap.recode]
          · rfl
  | free id =>
      simp only [Request.recode, perform, contents_get?_recode, ids_recode]
      cases ledger.contents.get? id with
      | none => rfl
      | some stored =>
          simp only [Option.map_some]
          split_ifs
          · rfl
          · rw [remove_recode]
            rfl
  | remove id =>
      simp only [Request.recode, perform, contents_get?_recode, ids_recode]
      cases ledger.contents.get? id with
      | none => rfl
      | some stored =>
          simp only [Option.map_some]
          split_ifs
          · rw [remove_recode]
            simp only [recode, Multimap.erase_recode, Reply.recode]
            rfl
          · rfl
  | clear => rfl
  | setValue id value =>
      have hmodify : (ledger.contents.modify id fun stored => (stored.1, value)).project
          (fun stored => (encode stored.1, stored.2)) = (ledger.contents.project
            fun stored => (encode stored.1, stored.2)).modify id fun stored => (stored.1, value) :=
        Arena.project_modify fun _ => rfl
      simp only [Request.recode, perform, Reply.recode, recode, hmodify]

/-- A history comes to the same with its keys written in another way. -/
theorem play_recode (ledger : Ledger K V C) (told : L → L') (requests : List (Request K V L)) :
    (ledger.recode encode code).play view' (requests.map (Request.recode encode told)) =
      ((ledger.play view requests).1.map (Reply.recode encode),
        (ledger.play view requests).2.recode encode code) := by
  induction requests generalizing ledger with
  | nil => rfl
  | cons request rest ih =>
      simp only [List.map_cons, play, perform_recode h, ih]

theorem play_empty_recode (unique : Bool) (told : L → L') (requests : List (Request K V L)) :
    (empty unique : Ledger K' V C').play view' (requests.map (Request.recode encode told)) =
      (((empty unique).play view requests).1.map (Reply.recode encode),
        ((empty unique).play view requests).2.recode encode code) :=
  play_recode h (empty unique) told requests

/-- A question has the same answer with all keys written in another way. -/
theorem ask_recode (query : Query C) :
    (ledger.recode encode code).ask (query.map code) = (ledger.ask query).recode encode := by
  cases query with
  | find key => rw [Query.map, ask, recode, Multimap.find?_recode h.injective, ask, Answer.recode]
  | first => rw [Query.map, ask, ids_recode, ask, Answer.recode]
  | last => rw [Query.map, ask, ids_recode, ask, Answer.recode]
  | next id => rw [Query.map, ask, stepFrom_recode, ids_recode, ask, Answer.recode]
  | prev id => rw [Query.map, ask, stepFrom_recode, ids_recode, ask, Answer.recode]
  | nextGroup id =>
      have hkey : ((ledger.recode encode code).linked.keyOf? id).bind
          (ledger.recode encode code).linked.findGT? =
            (ledger.linked.keyOf? id).bind ledger.linked.findGT? := by
        rw [recode, Multimap.keyOf?_recode, Option.bind_map]
        simp only [Function.comp_def, Multimap.findGT?_recode h.lt_iff]
      rw [Query.map, ask, stepFrom_recode, hkey, ask, Answer.recode]
  | prevGroup id =>
      have hkey : ((ledger.recode encode code).linked.keyOf? id).bind
          (ledger.recode encode code).linked.findLT? =
            (ledger.linked.keyOf? id).bind ledger.linked.findLT? := by
        rw [recode, Multimap.keyOf?_recode, Option.bind_map]
        simp only [Function.comp_def, Multimap.findLT?_recode h.lt_iff]
      rw [Query.map, ask, stepFrom_recode, hkey, ask, Answer.recode]
  | entries => rw [Query.map, ask, ids_recode, filterMap_entryOf?_recode, ask, Answer.recode]
  | entriesReverse => rw [Query.map, ask, ids_recode, filterMap_entryOf?_recode, ask, Answer.recode]
  | groupHeads =>
      have hheads : (ledger.recode encode code).linked.heads.map Prod.snd =
          ledger.linked.heads.map Prod.snd := by
        rw [recode, Multimap.heads_recode h.injective, Multimap.map_snd_recode]
      rw [Query.map, ask, hheads, filterMap_entryOf?_recode, ask, Answer.recode]
  | size => rw [Query.map, ask, recode, Multimap.length_recode, ask, Answer.recode]
  | figures =>
      have hdetached : ((ledger.recode encode code).contents.entries.countP fun entry =>
          entry.1 ∉ ledger.ids) =
            ledger.contents.entries.countP fun entry => entry.1 ∉ ledger.ids := by
        rw [recode, Arena.entries_project, List.countP_map]
        rfl
      have hheads : (ledger.recode encode code).linked.heads.length =
          ledger.linked.heads.length := by
        rw [recode, Multimap.heads_recode h.injective, Multimap.length_recode]
      rw [Query.map, ask, ids_recode, hdetached, hheads, ask, Answer.recode, recode,
        Multimap.length_recode]

end Ledger

end ElasticTree
