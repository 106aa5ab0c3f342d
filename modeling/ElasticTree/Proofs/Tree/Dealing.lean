import ElasticTree.Proofs.Tree.Listing
import ElasticTree.Tree.Dealing
import ElasticTree.Tree.Pulling

/-!
# Cursors and spans deal out what is between their ends

A cursor and a span are told apart by how they notice that their ends meet, the
one by its count and the other by the names of the nodes.  Either way a single
step gives the outermost entry of a stretch of neighbours and leaves the stretch
without it, and nothing more is needed for any number of steps (`drain_deals`).
-/

namespace ElasticTree

open Shape

/-! ## Dealing -/

section Dealing

variable {α : Type} {direction other : Side} {row rest : List α} {directions : List Side}
  {answers : List (Option α)}

/-- The row without what is dealt first from one end. -/
def shortened (direction : Side) (row : List α) : List α :=
  match direction with
  | .right => row.tail
  | .left => row.dropLast

theorem length_shortened (direction : Side) (row : List α) :
    (shortened direction row).length = row.length - 1 := by
  cases direction <;> simp [shortened]

theorem fromEnd_shortened (direction : Side) (row : List α) :
    fromEnd direction (shortened direction row) = (fromEnd direction row).tail := by
  cases direction with
  | right => rfl
  | left => exact List.tail_reverse.symm

/-- What is dealt from one end changes nothing at the other. -/
theorem getElem?_fromEnd_shortened (hne : direction ≠ other) {turn : Nat}
    (hturn : turn < row.length - 1) :
    (fromEnd other (shortened direction row))[turn]? = (fromEnd other row)[turn]? := by
  have hdrop : ∀ row : List α, turn < row.length - 1 → row.dropLast[turn]? = row[turn]? :=
    fun row hturn => by rw [List.getElem?_dropLast, if_pos hturn]
  cases direction <;> cases other
  · exact absurd rfl hne
  · exact hdrop row hturn
  · show row.tail.reverse[turn]? = row.reverse[turn]?
    rw [← List.dropLast_reverse, hdrop _ (by simpa using hturn)]
  · exact absurd rfl hne

theorem Deals.nil (row : List α) : Deals row [] [] row where
  length_eq := rfl
  nth _ _ hturn := by simp at hturn
  parted := by simp [dealt]
  length_rest := rfl

theorem dealt_cons (direction turn : Side) (directions : List Side) (answer : Option α)
    (answers : List (Option α)) : dealt direction (turn :: directions) (answer :: answers) =
      (if turn = direction then answer.toList else []) ++ dealt direction directions answers := by
  cases answer <;> by_cases h : turn = direction <;> simp [dealt, h]

/-- The outermost of the row comes first, and the others are dealt afterwards. -/
theorem Deals.cons (h : Deals (shortened direction row) directions answers rest) :
    Deals row (direction :: directions) ((fromEnd direction row).head? :: answers) rest where
  length_eq := congrArg (· + 1) h.length_eq
  nth turn side hside := by
    cases turn with
    | zero =>
        obtain rfl : direction = side := by simpa using hside
        rw [List.getElem?_cons_zero, List.take_zero, List.count_nil, ← List.head?_eq_getElem?]
        rcases row with _ | ⟨first, row⟩
        · cases direction <;> rfl
        · rw [if_pos (by simp : 0 < (first :: row).length)]
    | succ turn =>
        have hnth := h.nth turn side (by simpa using hside)
        rw [List.getElem?_cons_succ, hnth, length_shortened, List.take_succ_cons, List.count_cons]
        by_cases hturn : turn + 1 < row.length
        · rw [if_pos hturn, if_pos (by omega)]
          by_cases hsame : direction = side
          · subst hsame
            simp [fromEnd_shortened]
          · have hcount : (directions.take turn).count side ≤ turn :=
              List.count_le_length.trans (List.length_take_le _ _)
            rw [getElem?_fromEnd_shortened hsame (by omega)]
            simp [hsame]
        · rw [if_neg hturn, if_neg (by omega)]
  parted := by
    have hparted := h.parted
    rw [dealt_cons, dealt_cons]
    cases direction with
    | right =>
        rcases row with _ | ⟨first, row⟩
        · exact hparted
        · rw [shortened, List.tail_cons] at hparted
          rw [hparted]
          simp [fromEnd]
    | left =>
        rcases row.eq_nil_or_concat' with rfl | ⟨row, last, rfl⟩
        · exact hparted
        · rw [shortened, List.dropLast_concat] at hparted
          rw [hparted]
          simp [fromEnd]
  length_rest := by
    rw [h.length_rest, length_shortened, List.length_cons]
    omega

end Dealing

/-! ## Draining -/

section Draining

variable {K V S : Type} {take : Side → S → Except Fault (Option (Entry K V) × S)}

/-- Keeping what is left makes no difference to what comes out. -/
theorem pull_eq_drain (directions : List Side) (state : S) :
    pull take directions state = Prod.fst <$> drain take directions state := by
  induction directions generalizing state with
  | nil => rfl
  | cons direction directions ih =>
      rw [pull, drain]
      cases take direction state with
      | error fault => rfl
      | ok result =>
          simp only [Fault.ok_bind, ih]
          cases drain take directions result.2 <;> rfl

/-- If every step gives what is outermost and leaves the others, any number of
steps deals them out. -/
theorem drain_deals {P : S → List (Entry K V) → Prop}
    (htake : ∀ direction state row, P state row → ∃ after,
      take direction state = .ok ((fromEnd direction row).head?, after) ∧
        P after (shortened direction row))
    (directions : List Side) {state : S} {row : List (Entry K V)} (hstate : P state row) :
    ∃ answers after rest, drain take directions state = .ok (answers, after) ∧
      Deals row directions answers rest ∧ P after rest := by
  induction directions generalizing state row with
  | nil => exact ⟨[], state, row, rfl, .nil row, hstate⟩
  | cons direction directions ih =>
      obtain ⟨middle, hmiddle, hshortened⟩ := htake direction state row hstate
      obtain ⟨answers, after, rest, hdrain, hdeals, hafter⟩ := ih hshortened
      refine ⟨_, after, rest, ?_, hdeals.cons, hafter⟩
      simp only [drain, hmiddle, Fault.ok_bind, hdrain]
      rfl

end Draining

/-! ## Stretches of neighbours -/

namespace Tree

variable {K V : Type} {tree : Tree K V} {shape : Option Shape} {direction : Side}
  {row rest : List (Entry K V)} {entry : Entry K V} {cursor : Cursor} {span : Span}

/-- The entries are those of neighbours in the order of the shape. -/
structure Stretch (tree : Tree K V) (shape : Option Shape) (row : List (Entry K V)) : Prop where
  infix_members : row.map Entry.id <:+: shape.elim [] Shape.members
  entry_eq : ∀ entry ∈ row, tree.entry entry.id = .ok entry

namespace Stretch

theorem shortened (h : tree.Stretch shape row) (direction : Side) :
    tree.Stretch shape (shortened direction row) := by
  have hpart : ElasticTree.shortened direction row <:+: row := by
    cases direction with
    | right => exact (List.tail_suffix row).isInfix
    | left => exact (List.dropLast_prefix row).isInfix
  exact ⟨(hpart.map Entry.id).trans h.infix_members, fun entry hentry =>
    h.entry_eq entry (hpart.subset hentry)⟩

/-- The step from the first of a stretch leads to the next of it, if there is one. -/
theorem stepNext_eq (h : tree.Stretch shape (entry :: rest)) (hstands : tree.Stands shape) :
    ∃ following, tree.stepNext entry.id = .ok following ∧
      (rest ≠ [] → following = (rest.map Entry.id).head?) := by
  obtain ⟨front, back, hmembers⟩ := h.infix_members
  rw [List.map_cons, List.append_assoc, List.cons_append] at hmembers
  refine ⟨_, hstands.stepNext_eq hmembers.symm, fun hne => ?_⟩
  rw [List.head?_append_of_ne_nil _ (by simpa using hne)]

/-- The step back from the last of a stretch leads to the one before it, if there is
one. -/
theorem stepPrev_eq (h : tree.Stretch shape (rest ++ [entry])) (hstands : tree.Stands shape) :
    ∃ preceding, tree.stepPrev entry.id = .ok preceding ∧
      (rest ≠ [] → preceding = (rest.map Entry.id).getLast?) := by
  obtain ⟨front, back, hmembers⟩ := h.infix_members
  rw [List.map_append, List.map_singleton, ← List.append_assoc, List.append_assoc,
    List.singleton_append] at hmembers
  refine ⟨_, hstands.stepPrev_eq hmembers.symm, fun hne => ?_⟩
  rw [List.getLast?_append_of_ne_nil _ (by simpa using hne)]

end Stretch

/-! ## Cursors -/

/-- The cursor has the stretch left. -/
structure CursorOver (tree : Tree K V) (shape : Option Shape) (cursor : Cursor)
    (row : List (Entry K V)) : Prop where
  stretch : tree.Stretch shape row
  remaining_eq : cursor.remaining = row.length
  ends_eq : row ≠ [] → cursor.front = (row.map Entry.id).head? ∧
    cursor.back = (row.map Entry.id).getLast?

theorem CursorOver.take (h : tree.CursorOver shape cursor row) (hstands : tree.Stands shape)
    (direction : Side) : ∃ after,
      Cursor.take tree direction cursor = .ok ((fromEnd direction row).head?, after) ∧
        tree.CursorOver shape after (shortened direction row) := by
  have hshortened := h.stretch.shortened direction
  obtain ⟨front, back, remaining⟩ := cursor
  obtain ⟨hstretch, rfl, hends⟩ := h
  cases direction with
  | right =>
      rcases row with _ | ⟨entry, rest⟩
      · exact ⟨_, rfl, hshortened, rfl, by simp [ElasticTree.shortened]⟩
      · obtain ⟨rfl, rfl⟩ := hends (by simp)
        obtain ⟨following, hstep, hfollowing⟩ := hstretch.stepNext_eq hstands
        refine ⟨_, cursor_next hstep (hstretch.entry_eq entry List.mem_cons_self), hshortened, rfl,
          fun hne => ⟨hfollowing hne, ?_⟩⟩
        have hids : rest.map Entry.id ≠ [] := fun hnil => hne (List.map_eq_nil_iff.mp hnil)
        exact List.getLast?_append_of_ne_nil [entry.id] hids
  | left =>
      rcases row.eq_nil_or_concat' with rfl | ⟨rest, entry, rfl⟩
      · exact ⟨_, rfl, hshortened, rfl, by simp [ElasticTree.shortened]⟩
      · obtain ⟨rfl, rfl⟩ := hends (by simp)
        obtain ⟨preceding, hstep, hpreceding⟩ := hstretch.stepPrev_eq hstands
        have hlast : ((rest ++ [entry]).map Entry.id).getLast? = some entry.id := by simp
        rw [ElasticTree.shortened, List.dropLast_concat] at hshortened ⊢
        rw [hlast, fromEnd, List.head?_reverse, List.getLast?_concat, List.length_append,
          List.length_singleton]
        refine ⟨_, cursor_nextBack hstep (hstretch.entry_eq entry (by simp)), hshortened, rfl,
          fun hne => ⟨?_, hpreceding hne⟩⟩
        rw [List.map_append, List.head?_append_of_ne_nil _ (by simpa using hne)]

/-- A cursor that is set out goes over all nodes. -/
theorem Stands.cursorOver (h : tree.Stands shape)
    (hids : row.map Entry.id = shape.elim [] Shape.members) (hlists : tree.Lists row) :
    ∃ start, Cursor.start tree = .ok start ∧ tree.CursorOver shape start row := by
  refine ⟨_, h.cursor_start hids, ⟨hids ▸ List.infix_rfl, fun entry hentry => ?_⟩, rfl,
    fun _ => ⟨rfl, rfl⟩⟩
  exact hlists.entry_eq hentry

/-- A cursor deals out what it has left and keeps count of it. -/
theorem CursorOver.deals (h : tree.CursorOver shape cursor row) (hstands : tree.Stands shape)
    (directions : List Side) : ∃ answers after rest,
      drain (Cursor.take tree) directions cursor = .ok (answers, after) ∧
        Deals row directions answers rest ∧ after.sizeHint = (rest.length, some rest.length) := by
  obtain ⟨answers, after, rest, hdrain, hdeals, hafter⟩ :=
    drain_deals (fun direction _ _ hcursor => hcursor.take hstands direction) directions h
  exact ⟨answers, after, rest, hdrain, hdeals, by rw [Cursor.sizeHint, hafter.remaining_eq]⟩

/-- The entries of the tree are dealt out from both ends. -/
theorem Stands.pullAll_deals (h : tree.Stands shape)
    (hids : row.map Entry.id = shape.elim [] Shape.members) (hlists : tree.Lists row)
    (directions : List Side) : ∃ answers rest, tree.pullAll directions = .ok answers ∧
      Deals row directions answers rest ∧ ∃ start after, Cursor.start tree = .ok start ∧
        drain (Cursor.take tree) directions start = .ok (answers, after) ∧
        after.sizeHint = (rest.length, some rest.length) := by
  obtain ⟨start, hstart, hover⟩ := h.cursorOver hids hlists
  obtain ⟨answers, after, rest, hdrain, hdeals, hafter⟩ := hover.deals h directions
  refine ⟨answers, rest, ?_, hdeals, start, after, hstart, hdrain, hafter⟩
  rw [pullAll, hstart, Fault.ok_bind, pull_eq_drain, hdrain]
  rfl

theorem Stands.pullAll_ok (h : tree.Stands shape) (directions : List Side) :
    ∃ answers, tree.pullAll directions = .ok answers := by
  obtain ⟨entries, hids, hlists⟩ := h.lists
  obtain ⟨answers, -, hpull, -⟩ := h.pullAll_deals hids hlists directions
  exact ⟨answers, hpull⟩

/-! ## Spans -/

/-- The span has the stretch left. -/
structure SpanOver (tree : Tree K V) (shape : Option Shape) (span : Span)
    (row : List (Entry K V)) : Prop where
  stretch : tree.Stretch shape row
  front_eq : span.front = (row.map Entry.id).head?
  back_eq : span.back = (row.map Entry.id).getLast?

theorem span_next {id : NodeId} {following last : Option NodeId}
    (hstep : tree.stepNext id = .ok following) (hentry : tree.entry id = .ok entry) :
    Span.next tree ⟨some id, last⟩ =
      .ok (some entry, if some id = last then .empty else ⟨following, last⟩) := by
  simp only [Span.next, hentry, hstep, Fault.ok_bind]
  split <;> rfl

theorem span_nextBack {id : NodeId} {first preceding : Option NodeId}
    (hstep : tree.stepPrev id = .ok preceding) (hentry : tree.entry id = .ok entry) :
    Span.nextBack tree ⟨first, some id⟩ =
      .ok (some entry, if first = some id then .empty else ⟨first, preceding⟩) := by
  simp only [Span.nextBack, hentry, hstep, Fault.ok_bind]
  split <;> rfl

theorem SpanOver.empty : tree.SpanOver shape .empty [] where
  stretch := ⟨List.nil_infix, by simp⟩
  front_eq := rfl
  back_eq := rfl

/-- The ends of a span have the same name only if a single node is left. -/
private theorem ends_ne (hnodup : (row.map Entry.id).Nodup) (hlength : 1 < row.length) :
    (row.map Entry.id).head? ≠ (row.map Entry.id).getLast? := by
  have hne : row.map Entry.id ≠ [] := by
    rintro hnil
    simp [List.map_eq_nil_iff.mp hnil] at hlength
  rw [List.head?_eq_some_head hne, List.getLast?_eq_some_getLast hne]
  intro heq
  obtain ⟨id, hsingle⟩ := (hnodup.head_eq_getLast_iff hne).mp (Option.some.inj heq)
  have hone := congrArg List.length hsingle
  rw [List.length_map, List.length_singleton] at hone
  omega

theorem SpanOver.take (h : tree.SpanOver shape span row) (hstands : tree.Stands shape)
    (direction : Side) : ∃ after,
      Span.take tree direction span = .ok ((fromEnd direction row).head?, after) ∧
        tree.SpanOver shape after (shortened direction row) := by
  have hshortened := h.stretch.shortened direction
  have hends := ends_ne (h.stretch.infix_members.sublist.nodup hstands.draws.members_nodup)
  obtain ⟨front, back⟩ := span
  obtain ⟨hstretch, rfl, rfl⟩ := h
  cases direction with
  | right =>
      rcases row with _ | ⟨entry, rest⟩
      · exact ⟨_, rfl, hshortened, rfl, rfl⟩
      · obtain ⟨following, hstep, hfollowing⟩ := hstretch.stepNext_eq hstands
        refine ⟨_, span_next hstep (hstretch.entry_eq entry List.mem_cons_self), ?_⟩
        split_ifs with hmeet
        · obtain rfl : rest = [] := by_contra fun hne =>
            hends (by simpa using List.length_pos_iff.mpr hne) hmeet
          exact .empty
        · have hids : rest.map Entry.id ≠ [] := by
            intro hnil
            exact hmeet (by rw [List.map_cons, hnil, List.getLast?_singleton])
          exact ⟨hshortened, hfollowing fun hnil => hids (by rw [hnil, List.map_nil]),
            List.getLast?_append_of_ne_nil [entry.id] hids⟩
  | left =>
      rcases row.eq_nil_or_concat' with rfl | ⟨rest, entry, rfl⟩
      · exact ⟨_, rfl, hshortened, rfl, rfl⟩
      · obtain ⟨preceding, hstep, hpreceding⟩ := hstretch.stepPrev_eq hstands
        have hlast : ((rest ++ [entry]).map Entry.id).getLast? = some entry.id := by simp
        rw [ElasticTree.shortened, List.dropLast_concat] at hshortened ⊢
        rw [hlast, fromEnd, List.head?_reverse, List.getLast?_concat]
        refine ⟨_, span_nextBack hstep (hstretch.entry_eq entry (by simp)), ?_⟩
        split_ifs with hmeet
        · obtain rfl : rest = [] := by_contra fun hne =>
            hends (by simpa using List.length_pos_iff.mpr hne) (hmeet.trans hlast.symm)
          exact .empty
        · have hne : rest ≠ [] := by
            rintro rfl
            exact hmeet rfl
          refine ⟨hshortened, ?_, hpreceding hne⟩
          rw [List.map_append, List.head?_append_of_ne_nil _ (by simpa using hne)]

/-- A span deals out what it has left. -/
theorem SpanOver.deals (h : tree.SpanOver shape span row) (hstands : tree.Stands shape)
    (directions : List Side) : ∃ answers rest,
      pull (Span.take tree) directions span = .ok answers ∧ Deals row directions answers rest := by
  obtain ⟨answers, after, rest, hdrain, hdeals, -⟩ :=
    drain_deals (fun direction _ _ hspan => hspan.take hstands direction) directions h
  refine ⟨answers, rest, ?_, hdeals⟩
  rw [pull_eq_drain, hdrain]
  rfl

end Tree

end ElasticTree
