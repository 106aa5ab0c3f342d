import ElasticTree.History.Ledger
import ElasticTree.Proofs.History.Multimap
import ElasticTree.Proofs.Tree.Requests
import Mathlib.Data.List.Infix

/-!
# Trees and ledgers side by side

A tree `Mirrors` a ledger if it stands as a shape whose keys are where its
discipline wants them, and contents, kind and order are those of the ledger.
Every request keeps it so and gets the reply of the ledger
(`Mirrors.perform`), and hence so does every history (`Mirrors.play`).  What a
caller sees of the tree is then what the ledger says (`Mirrors.shows`).

Splits of groups may run out, and then an insertion fails.  Each insertion lowers
them by at most one, and `floor` keeps count of how far down they may be.  A
discipline `Lasts` for a number of insertions if the splits that it admits cannot
run out in fewer.
-/

namespace ElasticTree

open Shape

/-- A request is an insertion, or it may be made wherever insertions are allowed. -/
theorem Request.insert_or_allowed {K V L : Type} (request : Request K V L) :
    (∃ id how, request = .insert id how) ∨
      request.isInsert = false ∧ ∀ allowed, request.Allowed allowed := by
  cases request with
  | insert id how => exact .inl ⟨id, how, rfl⟩
  | _ => exact .inr ⟨rfl, fun _ => trivial⟩

/-- What can be seen of the result of a run is seen of the tree that it leads to. -/
theorem exists_run {K V L α : Type} {insertion : Tree.Insertion K V L} {tree : Tree K V}
    {requests : List (Request K V L)} {look : Tree K V → α} {seen : α}
    (h : look <$> tree.run insertion requests = .ok seen) :
    ∃ after, tree.run insertion requests = .ok after ∧ look after = seen := by
  cases hrun : tree.run insertion requests with
  | error fault =>
      rw [hrun] at h
      cases h
  | ok after =>
      rw [hrun] at h
      exact ⟨after, rfl, Except.ok.inj h⟩

/-- A ledger stays of the kind it is. -/
theorem Ledger.unique_play {K V L C : Type} [LT C] [DecidableLT C] [DecidableEq C] {view : K → C}
    (ledger : Ledger K V C) (requests : List (Request K V L)) :
    (ledger.play view requests).2.unique = ledger.unique := by
  have hperform : ∀ (ledger : Ledger K V C) (request : Request K V L),
      (ledger.perform view request).2.unique = ledger.unique := by
    intro ledger request
    cases request <;> simp only [Ledger.perform, Ledger.insert] <;> (repeat' split) <;> rfl
  induction requests generalizing ledger with
  | nil => rfl
  | cons request rest ih => exact (ih _).trans (hperform ledger request)

namespace Tree

variable {K V L C : Type} [LT C] [Inhabited C]

/-- The tree stands in the discipline and says what the ledger says. -/
structure Mirrors (discipline : Discipline C) (view : K → C) (floor : Nat) (tree : Tree K V)
    (ledger : Ledger K V C) (shape : Option Shape) : Prop where
  stands : tree.Stands shape
  obeys : ∀ found ∈ shape, found.Obeys discipline (tree.rank view)
  ranged : ∀ split ∈ shape.elim [] Shape.splits, -2 ^ 31 ≤ split
  floor_le : ∀ split ∈ shape.elim [] Shape.splits, -(floor : Int) ≤ split
  contents_eq : ledger.contents = tree.contents
  unique_eq : ledger.unique = tree.unique
  linked_eq : ledger.linked = Multimap.entriesBy (tree.rank view) (shape.elim [] Shape.members)
  distinct : tree.unique = true → ((shape.elim [] Shape.members).map (tree.rank view)).Nodup

/-- An insertion refuses what is not detached, and otherwise links the node in the
discipline, unless there is no split left for it. -/
structure Insertion.Serves (insertion : Insertion K V L) (discipline : Discipline C) (view : K → C)
    (allowed : L → Prop) : Prop where
  refuses : ∀ {tree : Tree K V} {id refusal}, tree.expectDetached id = .error refusal →
    ∀ how, insertion tree id how = .ok (.error refusal, tree)
  inserts : ∀ {tree : Tree K V} {shape : Option Shape} {id node how}, allowed how →
    tree.Stands shape → (∀ found ∈ shape, found.Obeys discipline (tree.rank view)) →
    (∀ split ∈ shape.elim [] Shape.splits, -2 ^ 31 ≤ split) →
    tree.nodes.get? id = some node → id ∉ shape.elim [] Shape.members →
      InsertsInto discipline view tree shape id (insertion tree id how)

/-! ## Histories with and without replies -/

section Histories

omit [LT C] [Inhabited C]

/-- Keeping the replies makes no difference to the tree. -/
theorem run_eq_play (insertion : Insertion K V L) (tree : Tree K V)
    (requests : List (Request K V L)) :
    tree.run insertion requests = Prod.snd <$> tree.play insertion requests := by
  induction requests generalizing tree with
  | nil => rfl
  | cons request rest ih =>
      rw [run, List.foldlM_cons, Tree.play]
      cases hperform : tree.perform insertion request with
      | error fault => rfl
      | ok result =>
          refine (ih result.2).trans ?_
          show _ = Prod.snd <$> (result.2.play insertion rest >>= _)
          cases result.2.play insertion rest <;> rfl

theorem play_cons {insertion : Insertion K V L} {tree middle after : Tree K V}
    {request : Request K V L} {requests : List (Request K V L)} {reply : Reply K V}
    {replies : List (Reply K V)} (hperform : tree.perform insertion request = .ok (reply, middle))
    (hplay : middle.play insertion requests = .ok (replies, after)) :
    tree.play insertion (request :: requests) = .ok (reply :: replies, after) := by
  simp only [Tree.play, hperform, Fault.ok_bind, hplay]
  rfl

theorem run_of_play {insertion : Insertion K V L} {tree after : Tree K V}
    {requests : List (Request K V L)} {replies : List (Reply K V)}
    (h : tree.play insertion requests = .ok (replies, after)) :
    tree.run insertion requests = .ok after := by
  rw [run_eq_play, h]
  rfl

/-- A history goes on from what its first request leads to. -/
theorem run_cons {insertion : Insertion K V L} {tree middle : Tree K V} {request : Request K V L}
    {reply : Reply K V} (hperform : tree.perform insertion request = .ok (reply, middle))
    (requests : List (Request K V L)) :
    tree.run insertion (request :: requests) = middle.run insertion requests := by
  rw [run, List.foldlM_cons, hperform]
  rfl

theorem exists_of_run_cons {insertion : Insertion K V L} {tree after : Tree K V}
    {request : Request K V L} {requests : List (Request K V L)}
    (hrun : tree.run insertion (request :: requests) = .ok after) :
    ∃ reply middle, tree.perform insertion request = .ok (reply, middle) ∧
      middle.run insertion requests = .ok after := by
  cases hperform : tree.perform insertion request with
  | ok result => exact ⟨result.1, result.2, rfl, run_cons hperform requests ▸ hrun⟩
  | error fault =>
      rw [run, List.foldlM_cons, hperform] at hrun
      cases hrun

end Histories

/-! ## Room for the nodes -/

section Room

omit [LT C] [Inhabited C]

variable {insertion : Insertion K V L} {tree after : Tree K V} {request : Request K V L}
  {requests : List (Request K V L)} {reply : Reply K V}

theorem Fits.first (h : tree.Fits insertion (request :: requests))
    (hperform : tree.perform insertion request = .ok (reply, after)) :
    after.nodes.slotCount ≤ 2 ^ 32 := by
  refine h [request] after ⟨requests, rfl⟩ ?_
  rw [run_cons hperform]
  rfl

theorem Fits.rest (h : tree.Fits insertion (request :: requests))
    (hperform : tree.perform insertion request = .ok (reply, after)) :
    after.Fits insertion requests := by
  intro before final hprefix hrun
  refine h (request :: before) final (List.cons_prefix_cons.mpr ⟨rfl, hprefix⟩) ?_
  rw [run_cons hperform]
  exact hrun

theorem Fits.hasRoom (h : tree.Fits insertion (request :: requests)) :
    ∀ key value, request = .alloc key value → tree.nodes.HasRoom := by
  rintro key value rfl
  exact Arena.hasRoom_of_add (h.first rfl)

theorem Fits.of_prefix (h : tree.Fits insertion requests) {steps : List (Request K V L)}
    (hsteps : steps <+: requests) : tree.Fits insertion steps :=
  fun before final hbefore hrun => h before final (List.IsPrefix.trans hbefore hsteps) hrun

theorem Fits.of_append {steps : List (Request K V L)} (h : tree.Fits insertion (steps ++ requests))
    (hrun : tree.run insertion steps = .ok after) : after.Fits insertion requests := by
  intro before final hbefore hfinal
  refine h (steps ++ before) final (List.prefix_append_right_inj steps |>.mpr hbefore) ?_
  rw [run_append, hrun, Fault.ok_bind, hfinal]

/-- Whether a history fits can be found out by running all that it begins with. -/
instance : Decidable (tree.Fits insertion requests) :=
  decidable_of_iff (∀ before ∈ requests.inits, ∀ after ∈ (tree.run insertion before).toOption,
    after.nodes.slotCount ≤ 2 ^ 32) (by
      simp only [Fits, List.mem_inits]
      refine forall_congr' fun before =>
        ⟨fun h after hprefix hrun => ?_, fun h hprefix after hrun => ?_⟩
      · exact h hprefix after (by simp [hrun, Except.toOption])
      · refine h after hprefix ?_
        cases hresult : tree.run insertion before with
        | error fault => simp [hresult, Except.toOption] at hrun
        | ok found => simpa [hresult, Except.toOption] using hrun)

end Room

namespace Mirrors

variable {discipline : Discipline C} {view : K → C} {floor : Nat} {tree after : Tree K V}
  {ledger : Ledger K V C} {shape shape' : Option Shape} {insertion : Insertion K V L}
  {allowed : L → Prop} {id : NodeId}

/-! ## Reading the ledger off the tree -/

theorem ids_eq (h : Mirrors discipline view floor tree ledger shape) :
    ledger.ids = shape.elim [] Shape.members := by
  rw [Ledger.ids, h.linked_eq, Multimap.map_snd_entriesBy]

theorem contents_get? (h : Mirrors discipline view floor tree ledger shape) (id : NodeId) :
    ledger.contents.get? id = (tree.nodes.get? id).map fun node => (node.key, node.value) := by
  rw [h.contents_eq, contents, Arena.get?_project]

theorem slotCount_le (h : Mirrors discipline view floor tree ledger shape) :
    ledger.contents.slotCount ≤ 2 ^ 32 := by
  rw [h.contents_eq, contents, Arena.slotCount_project]
  exact h.stands.sound.slotCount_le

theorem raise (h : Mirrors discipline view floor tree ledger shape) {floor' : Nat}
    (hfloor : floor ≤ floor') : Mirrors discipline view floor' tree ledger shape where
  stands := h.stands
  obeys := h.obeys
  ranged := h.ranged
  floor_le split hsplit := by
    have := h.floor_le split hsplit
    omega
  contents_eq := h.contents_eq
  unique_eq := h.unique_eq
  linked_eq := h.linked_eq
  distinct := h.distinct

theorem empty (unique : Bool) :
    Mirrors discipline view 0 (Tree.empty unique : Tree K V) (.empty unique) none where
  stands := .empty unique
  obeys := by simp
  ranged := by simp
  floor_le := by simp
  contents_eq := rfl
  unique_eq := rfl
  linked_eq := rfl
  distinct := by simp

/-- A split that cannot be lowered is admitted, so the discipline does not last
beyond the floor. -/
private theorem not_lasts {bound : Nat} (h : Mirrors discipline view floor tree ledger shape)
    (hmem : -2 ^ 31 ∈ shape.elim [] Shape.splits) (hfloor : floor < bound) :
    ¬ discipline.Lasts bound := by
  intro hlasts
  have := h.floor_le _ hmem
  cases shape with
  | none => simp at hmem
  | some found =>
      have := hlasts _ ((h.obeys found rfl).admits _ hmem) (by omega)
      omega

/-! ## Changes on both sides -/

/-- The contents may change where no linked node is concerned. -/
private theorem of_stands (h : Mirrors discipline view floor tree ledger shape)
    (hstands : after.Stands shape) (hunique : after.unique = tree.unique)
    (hrank : ∀ id ∈ shape.elim [] Shape.members, after.rank view id = tree.rank view id) :
    Mirrors discipline view floor after { ledger with contents := after.contents } shape where
  stands := hstands
  obeys found hfound := by
    rw [Option.mem_def] at hfound
    subst hfound
    exact (h.obeys found rfl).congr hrank
  ranged := h.ranged
  floor_le := h.floor_le
  contents_eq := rfl
  unique_eq := h.unique_eq.trans hunique.symm
  linked_eq := h.linked_eq.trans (Multimap.entriesBy_congr hrank).symm
  distinct htrue := by
    rw [List.map_congr_left hrank]
    exact h.distinct (hunique ▸ htrue)

/-- A node that is not linked goes from the contents. -/
private theorem released (h : Mirrors discipline view floor tree ledger shape)
    (hreleased : tree.Released shape id after) :
    Mirrors discipline view floor after
      { ledger with contents := (ledger.contents.remove id).2 } shape := by
  have hcontents := hreleased.contents_eq
  rw [h.contents_eq, ← hcontents]
  exact h.of_stands hreleased.stands hreleased.unique_eq fun _ hother =>
    hreleased.rank_eq view hother

/-- A node goes from the shape and from the ledger. -/
private theorem unlinked (h : Mirrors discipline view floor tree ledger shape)
    (hunlinked : tree.Unlinked shape id after shape') :
    Mirrors discipline view floor after { ledger with linked := ledger.linked.erase id }
      shape' := by
  have hsplits := hunlinked.splits_subset
  obtain ⟨front, back, hbefore, hafter⟩ := hunlinked.members
  have hnodup := h.stands.draws.members_nodup
  obtain ⟨⟨found, hfound, hremoves⟩, hstands, hkeeps⟩ := hunlinked
  refine ⟨hstands, fun part hpart => ?_, fun split hsplit => h.ranged split (hsplits split hsplit),
    fun split hsplit => h.floor_le split (hsplits split hsplit),
    h.contents_eq.trans hkeeps.contents_eq.symm, h.unique_eq.trans hkeeps.unique_eq.symm, ?_,
    fun htrue => ?_⟩
  · rw [hkeeps.rank_eq]
    exact hremoves.obeys (h.obeys found hfound) part hpart
  · rw [hbefore] at hnodup
    show ledger.linked.erase id = _
    rw [h.linked_eq, hbefore, hafter, hkeeps.rank_eq,
      Multimap.erase_entriesBy hnodup]
  · have hdistinct := h.distinct (hkeeps.unique_eq ▸ htrue)
    rw [hbefore] at hdistinct
    rw [hafter, hkeeps.rank_eq]
    refine hdistinct.sublist (List.Sublist.map _ ?_)
    exact List.Sublist.append_left (List.sublist_cons_self id back) front

/-- Nothing is left of the ledger exactly if nothing is left of the shape. -/
private theorem isEmpty_linked (h : Mirrors discipline view floor tree ledger shape) :
    (!ledger.linked.isEmpty) = shape.isSome := by
  rw [h.linked_eq, Multimap.entriesBy, List.isEmpty_map]
  cases shape with
  | none => rfl
  | some found => simp [found.members_ne_nil]

/-- A node comes into the shape and into the ledger, at the same place. -/
private theorem linked {found : Shape} (h : Mirrors discipline view floor tree ledger shape)
    [DecidableLT C] (hstands : after.Stands (some found)) (hkeeps : Keeps tree after)
    (hobeys : found.Obeys discipline (tree.rank view))
    (henters : Enters (tree.rank view) id (shape.elim [] Shape.members) found.members)
    (hfresh : tree.unique = true → ∀ other ∈ shape.elim [] Shape.members,
      tree.rank view other ≠ tree.rank view id)
    (hsinks : Sinks (shape.elim [] Shape.splits) found.splits) :
    Mirrors discipline view (floor + 1) after
      { ledger with linked := ledger.linked.insert (tree.rank view id) id } (some found) := by
  obtain ⟨front, back, hbefore, hafter, hfront, hback⟩ := henters
  refine ⟨hstands, fun part hpart => ?_, fun split hsplit => ?_, fun split hsplit => ?_,
    h.contents_eq.trans hkeeps.contents_eq.symm, h.unique_eq.trans hkeeps.unique_eq.symm, ?_,
    fun htrue => ?_⟩
  · rw [Option.mem_some_iff] at hpart
    rw [← hpart, hkeeps.rank_eq]
    exact hobeys
  · exact (hsinks split hsplit).elim (h.ranged split) And.left
  · -- a new split is at most one below those there were
    rcases hsinks split hsplit with hold | ⟨-, hnew | hnew⟩
    · have := h.floor_le split hold
      omega
    · omega
    · have := h.floor_le _ hnew
      omega
  · show ledger.linked.insert _ _ = _
    rw [h.linked_eq, hbefore, Multimap.insert_entriesBy hfront hback, Option.elim_some, hafter,
      hkeeps.rank_eq]
  · have htrue : tree.unique = true := hkeeps.unique_eq ▸ htrue
    have hdistinct := h.distinct htrue
    have hnew := hfresh htrue
    rw [hbefore] at hdistinct hnew
    rw [Option.elim_some, hafter, hkeeps.rank_eq]
    refine (List.perm_middle.map _).nodup_iff.mpr ?_
    rw [List.map_cons, List.nodup_cons, List.mem_map]
    refine ⟨?_, hdistinct⟩
    rintro ⟨other, hother, heq⟩
    exact hnew other hother heq

/-! ## Requests that leave the shape alone -/

variable [DecidableLT C] [DecidableEq C]

/-- The tree answers the request as the ledger does, and mirrors it afterwards. -/
def Answers (discipline : Discipline C) (view : K → C) (floor : Nat) (insertion : Insertion K V L)
    (tree : Tree K V) (ledger : Ledger K V C) (request : Request K V L) : Prop :=
  ∃ after shape', tree.perform insertion request = .ok ((ledger.perform view request).1, after) ∧
    Mirrors discipline view floor after (ledger.perform view request).2 shape'

private theorem alloc (h : Mirrors discipline view floor tree ledger shape) {key : K} {value : V}
    (hroom : tree.nodes.HasRoom) :
    Answers discipline view floor insertion tree ledger (.alloc key value) := by
  have hcontents := contents_alloc tree key value
  refine ⟨(tree.alloc key value).2, shape, ?_, ?_⟩
  · have hname : ledger.contents.nextId = tree.nodes.nextId := by
      rw [h.contents_eq, contents, Arena.nextId_project]
    rw [Ledger.perform, hname]
    rfl
  · rw [Ledger.perform, h.contents_eq, ← hcontents]
    exact h.of_stands (h.stands.alloc hroom key value) rfl fun _ hid =>
      h.stands.rank_alloc view hroom key value hid

private theorem free (h : Mirrors discipline view floor tree ledger shape) :
    Answers discipline view floor insertion tree ledger (.free id) := by
  obtain ⟨answer, after, hfree, houtcome⟩ := h.stands.free_outcome id
  unfold Answers
  rw [Tree.perform, Ledger.perform, h.contents_get?, h.ids_eq, hfree]
  cases houtcome with
  | unknown hnode =>
      rw [hnode]
      exact ⟨tree, shape, rfl, h⟩
  | refused node hnode hid =>
      simp only [hnode, Option.map_some, if_pos (not_not.mp hid)]
      exact ⟨tree, shape, rfl, h⟩
  | granted node hnode hid stored after hdone =>
      obtain ⟨rfl, hreleased⟩ := hdone
      simp only [hnode, Option.map_some, if_neg hid]
      exact ⟨after, shape, rfl, h.released hreleased⟩

private theorem setValue (h : Mirrors discipline view floor tree ledger shape) {value : V} :
    Answers discipline view floor insertion tree ledger (.setValue id value) := by
  have hcontents := contents_setValue tree id value
  refine ⟨tree.setValue id value, shape, rfl, ?_⟩
  rw [Ledger.perform, h.contents_eq, ← hcontents]
  exact h.of_stands (h.stands.setValue id value) rfl fun other _ => by rw [rank_setValue]

/-! ## Requests that change the shape -/

private theorem clear (h : Mirrors discipline view floor tree ledger shape) :
    Answers discipline view floor insertion tree ledger .clear := by
  refine ⟨tree.clear, none, rfl, h.stands.clear, by simp, by simp, by simp, ?_, h.unique_eq, rfl,
    by simp⟩
  rw [contents_clear]
  exact h.contents_eq

private theorem unlink (h : Mirrors discipline view floor tree ledger shape) :
    Answers discipline view floor insertion tree ledger (.unlink id) := by
  obtain ⟨answer, after, hunlink, houtcome⟩ := h.stands.unlink_outcome id
  unfold Answers
  rw [Tree.perform, Ledger.perform, h.contents_get?, h.ids_eq, hunlink]
  cases houtcome with
  | unknown hnode =>
      rw [hnode]
      exact ⟨tree, shape, rfl, h⟩
  | refused node hnode hid =>
      simp only [hnode, Option.map_some, if_neg hid]
      exact ⟨tree, shape, rfl, h⟩
  | granted node hnode hid more after hdone =>
      obtain ⟨shape', rfl, hunlinked⟩ := hdone
      have hmirrors := h.unlinked hunlinked
      simp only [hnode, Option.map_some, if_pos hid, ← hmirrors.isEmpty_linked]
      exact ⟨after, shape', rfl, hmirrors⟩

private theorem remove (h : Mirrors discipline view floor tree ledger shape) :
    Answers discipline view floor insertion tree ledger (.remove id) := by
  obtain ⟨answer, after, hremove, houtcome⟩ := h.stands.remove_outcome id
  unfold Answers
  rw [Tree.perform, Ledger.perform, h.contents_get?, h.ids_eq, hremove]
  cases houtcome with
  | unknown hnode =>
      rw [hnode]
      exact ⟨tree, shape, rfl, h⟩
  | refused node hnode hid =>
      simp only [hnode, Option.map_some, if_neg hid]
      exact ⟨tree, shape, rfl, h⟩
  | granted node hnode hid stored after hdone =>
      obtain ⟨rfl, middle, shape', hunlinked, hreleased⟩ := hdone
      simp only [hnode, Option.map_some, if_pos hid]
      exact ⟨after, shape', rfl, (h.unlinked hunlinked).released hreleased⟩

/-- What the ledger makes of a detached node. -/
private theorem insert_detached (h : Mirrors discipline view floor tree ledger shape)
    {result : Except Fault (Except Refusal NodeId × Tree K V)}
    (hinserts : InsertsInto discipline view tree shape id result) :
    (∃ after shape', result = .ok (.ok (ledger.insert (tree.rank view id) id).1, after) ∧
      Mirrors discipline view (floor + 1) after (ledger.insert (tree.rank view id) id).2 shape') ∨
      result = .error .splitOverflow ∧ -2 ^ 31 ∈ shape.elim [] Shape.splits := by
  rw [Ledger.insert, h.unique_eq]
  cases hinserts with
  | held holder front back hunique hmembers hrank hsmaller =>
      have hfind := Multimap.find?_entriesBy back
        (fun other hother heq => discipline.lt_irrefl _ (heq ▸ hsmaller other hother)) hrank
      rw [if_pos hunique, h.linked_eq, hmembers, hfind]
      exact .inl ⟨tree, shape, rfl, h.raise (Nat.le_succ floor)⟩
  | overflowed hmem => exact .inr ⟨rfl, hmem⟩
  | linked after found hstands hkeeps hobeys henters hfresh hsinks _ =>
      have hnone : (if tree.unique then ledger.linked.find? (tree.rank view id) else none) =
          none := by
        cases hunique : tree.unique with
        | false => rfl
        | true =>
            rw [h.linked_eq]
            exact Multimap.find?_entriesBy_eq_none (hfresh hunique)
      have hlinked := h.linked hstands hkeeps hobeys henters hfresh hsinks
      rw [hnone]
      exact .inl ⟨after, some found, rfl, h.unique_eq ▸ hlinked⟩

private theorem insert (h : Mirrors discipline view floor tree ledger shape) {how : L}
    (hserves : insertion.Serves discipline view allowed) (hallowed : allowed how) :
    Answers discipline view (floor + 1) insertion tree ledger (.insert id how) ∨
      tree.perform insertion (.insert id how) = .error .splitOverflow ∧
        -2 ^ 31 ∈ shape.elim [] Shape.splits := by
  unfold Answers
  rw [Tree.perform, Ledger.perform, h.contents_get?, h.ids_eq]
  cases hnode : tree.nodes.get? id with
  | none =>
      rw [hserves.refuses (expectDetached_of_none hnode)]
      exact .inl ⟨tree, shape, rfl, h.raise (Nat.le_succ floor)⟩
  | some node =>
      by_cases hid : id ∈ shape.elim [] Shape.members
      · simp only [hserves.refuses (h.stands.expectDetached_of_mem hnode hid), Option.map_some,
          if_pos hid]
        exact .inl ⟨tree, shape, rfl, h.raise (Nat.le_succ floor)⟩
      · simp only [Option.map_some, if_neg hid, ← rank_of_get? view hnode]
        rcases h.insert_detached
          (hserves.inserts hallowed h.stands h.obeys h.ranged hnode hid) with
          ⟨after, shape', hinsert, hmirrors⟩ | ⟨hinsert, hmem⟩
        · rw [hinsert]
          exact .inl ⟨after, shape', rfl, hmirrors⟩
        · rw [hinsert]
          exact .inr ⟨rfl, hmem⟩

/-! ## Histories -/

/-- The request gets the reply of the ledger, and the tree mirrors the ledger
afterwards, unless it is an insertion that there is no split left for. -/
theorem perform (h : Mirrors discipline view floor tree ledger shape) {request : Request K V L}
    (hserves : insertion.Serves discipline view allowed) (hallowed : request.Allowed allowed)
    (hroom : ∀ key value, request = .alloc key value → tree.nodes.HasRoom) :
    Answers discipline view (floor + if request.isInsert then 1 else 0) insertion tree ledger
        request ∨
      tree.perform insertion request = .error .splitOverflow ∧ request.isInsert = true ∧
        -2 ^ 31 ∈ shape.elim [] Shape.splits := by
  cases request with
  | alloc key value => exact .inl (h.alloc (hroom key value rfl))
  | insert id how =>
      exact (h.insert hserves hallowed).imp_right fun hover => ⟨hover.1, rfl, hover.2⟩
  | unlink id => exact .inl h.unlink
  | free id => exact .inl h.free
  | remove id => exact .inl h.remove
  | clear => exact .inl h.clear
  | setValue id value => exact .inl h.setValue

/-- No request fails as long as the splits last for one more insertion. -/
theorem performs (h : Mirrors discipline view floor tree ledger shape)
    (hserves : insertion.Serves discipline view allowed) {request : Request K V L}
    (hallowed : request.Allowed allowed) (hlasts : discipline.Lasts (floor + 1)) :
    ∃ reply after, tree.perform insertion request = .ok (reply, after) := by
  by_cases halloc : ∃ key value, request = .alloc key value
  · obtain ⟨key, value, rfl⟩ := halloc
    exact ⟨_, _, rfl⟩
  · rcases h.perform hserves hallowed fun key value heq => absurd ⟨key, value, heq⟩ halloc with
      ⟨after, shape', hperform, -⟩ | ⟨-, -, hmem⟩
    · exact ⟨_, after, hperform⟩
    · exact absurd hlasts (h.not_lasts hmem (Nat.lt_succ_self floor))

/-- A history gets the replies of the ledger, and the tree mirrors the ledger
afterwards, unless the splits run out on the way. -/
theorem outcome (h : Mirrors discipline view floor tree ledger shape)
    {requests : List (Request K V L)} (hserves : insertion.Serves discipline view allowed)
    (hallowed : ∀ request ∈ requests, request.Allowed allowed)
    (hfits : tree.Fits insertion requests) :
    (∃ after shape', tree.play insertion requests = .ok ((ledger.play view requests).1, after) ∧
      Mirrors discipline view (floor + requests.countP Request.isInsert) after
        (ledger.play view requests).2 shape') ∨
      tree.play insertion requests = .error .splitOverflow ∧
        ¬ discipline.Lasts (floor + requests.countP Request.isInsert) := by
  -- every request that is carried out leaves a ledger to mirror, with a floor of its own
  induction requests generalizing tree ledger shape floor with
  | nil => exact .inl ⟨tree, shape, rfl, h⟩
  | cons request rest ih =>
      rw [List.countP_cons, Nat.add_comm (List.countP _ _), ← Nat.add_assoc]
      rcases h.perform hserves (hallowed request List.mem_cons_self) hfits.hasRoom with
        ⟨middle, shape', hperform, hmirrors⟩ | ⟨hperform, hinsert, hmem⟩
      · have hrest :=
          ih hmirrors (fun other hother => hallowed other (List.mem_cons_of_mem _ hother))
            (hfits.rest hperform)
        simp only [Tree.play, Ledger.play, hperform, Fault.ok_bind]
        rcases hrest with ⟨after, shape'', hplay, hafter⟩ | ⟨hplay, hlasts⟩
        · refine .inl ⟨after, shape'', ?_, hafter⟩
          rw [hplay]
          rfl
        · refine .inr ⟨?_, hlasts⟩
          rw [hplay]
          rfl
      · refine .inr ⟨?_, h.not_lasts hmem ?_⟩
        · rw [Tree.play, hperform]
          rfl
        · rw [if_pos hinsert]
          omega

theorem play (h : Mirrors discipline view floor tree ledger shape) {requests : List (Request K V L)}
    (hserves : insertion.Serves discipline view allowed)
    (hallowed : ∀ request ∈ requests, request.Allowed allowed)
    (hlasts : discipline.Lasts (floor + requests.countP Request.isInsert))
    (hfits : tree.Fits insertion requests) :
    ∃ after shape', tree.play insertion requests = .ok ((ledger.play view requests).1, after) ∧
      Mirrors discipline view (floor + requests.countP Request.isInsert) after
        (ledger.play view requests).2 shape' :=
  (h.outcome hserves hallowed hfits).resolve_right fun hover => hover.2 hlasts

/-- Insertions that do the same to trees in the discipline make the same of a
history. -/
theorem play_congr (h : Mirrors discipline view floor tree ledger shape)
    {requests : List (Request K V L)} {other : Insertion K V L}
    (hserves : insertion.Serves discipline view allowed)
    (hallowed : ∀ request ∈ requests, request.Allowed allowed)
    (hfits : tree.Fits insertion requests)
    (hsame : ∀ {tree : Tree K V} {shape : Option Shape}, tree.Stands shape →
      (∀ found ∈ shape, found.Obeys discipline (tree.rank view)) →
        ∀ id how, allowed how → insertion tree id how = other tree id how) :
    tree.play insertion requests = tree.play other requests := by
  induction requests generalizing tree ledger shape floor with
  | nil => rfl
  | cons request rest ih =>
      have hperform : tree.perform insertion request = tree.perform other request := by
        cases request with
        | insert id how =>
            have hhow : allowed how := hallowed (.insert id how) List.mem_cons_self
            rw [Tree.perform, Tree.perform, hsame h.stands h.obeys id how hhow]
        | _ => rfl
      simp only [Tree.play, ← hperform]
      rcases h.perform hserves (hallowed request List.mem_cons_self) hfits.hasRoom with
        ⟨middle, shape', hmiddle, hmirrors⟩ | ⟨hfails, -, -⟩
      · have hrest := ih hmirrors
          (fun later hlater => hallowed later (List.mem_cons_of_mem _ hlater)) (hfits.rest hmiddle)
        simp only [hmiddle, Fault.ok_bind, hrest]
      · rw [hfails]
        rfl

/-- A history fits if on paper no more slots are opened than can be named. -/
theorem fits (h : Mirrors discipline view floor tree ledger shape) {requests : List (Request K V L)}
    (hserves : insertion.Serves discipline view allowed)
    (hallowed : ∀ request ∈ requests, request.Allowed allowed)
    (hroom : ∀ before, before <+: requests →
      (ledger.play view before).2.contents.slotCount ≤ 2 ^ 32) :
    tree.Fits insertion requests := by
  induction requests generalizing tree ledger shape floor with
  | nil =>
      intro before after hprefix hrun
      obtain rfl := List.prefix_nil.mp hprefix
      obtain rfl : tree = after := Except.ok.inj hrun
      exact h.stands.sound.slotCount_le
  | cons request rest ih =>
      intro before after hprefix hrun
      cases before with
      | nil =>
          obtain rfl : tree = after := Except.ok.inj hrun
          exact h.stands.sound.slotCount_le
      | cons first before =>
          obtain ⟨rfl, hrest⟩ := List.cons_prefix_cons.mp hprefix
          have hfirst : ∀ key value, first = .alloc key value → tree.nodes.HasRoom := by
            rintro key value rfl
            have hadd : (ledger.contents.add fun _ => (key, value)).2.slotCount ≤ 2 ^ 32 :=
              hroom [.alloc key value] ⟨rest, rfl⟩
            rw [← Arena.hasRoom_project_iff, ← contents, ← h.contents_eq]
            exact Arena.hasRoom_of_add hadd
          obtain ⟨reply, final, hfinal, hrun⟩ := exists_of_run_cons hrun
          rcases h.perform hserves (hallowed first List.mem_cons_self) hfirst with
            ⟨middle, shape', hperform, hmirrors⟩ | ⟨hperform, -⟩
          · obtain ⟨-, rfl⟩ := Prod.mk.inj (Except.ok.inj (hfinal.symm.trans hperform))
            refine ih hmirrors (fun other hother => ?_) (fun steps hsteps => ?_) before
              after hrest hrun
            · exact hallowed other (List.mem_cons_of_mem _ hother)
            · exact hroom (first :: steps) (List.cons_prefix_cons.mpr ⟨rfl, hsteps⟩)
          · rw [hperform] at hfinal
            cases hfinal

/-- However many insertions there are, what a history leads to mirrors the
ledger. -/
theorem of_run (h : Mirrors discipline view floor tree ledger shape)
    {requests : List (Request K V L)} (hserves : insertion.Serves discipline view allowed)
    (hallowed : ∀ request ∈ requests, request.Allowed allowed)
    (hfits : tree.Fits insertion requests) (hrun : tree.run insertion requests = .ok after) :
    ∃ shape', Mirrors discipline view (floor + requests.countP Request.isInsert) after
      (ledger.play view requests).2 shape' := by
  rw [run_eq_play] at hrun
  rcases h.outcome hserves hallowed hfits with ⟨found, shape', hplay, hfound⟩ | ⟨hplay, -⟩
  · rw [hplay] at hrun
    obtain rfl : found = after := Except.ok.inj hrun
    exact ⟨shape', hfound⟩
  · rw [hplay] at hrun
    exact absurd hrun (by simp [Functor.map, Except.map])

end Mirrors

end Tree

end ElasticTree
