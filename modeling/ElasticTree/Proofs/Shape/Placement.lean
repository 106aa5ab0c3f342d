import ElasticTree.Proofs.Shape.Discipline

/-!
# Order, linking and unlinking under a discipline

The keys of an obeying shape are sorted (`Obeys.sorted`).  Unlinking keeps a
shape obeying (`Removes.obeys`), since what remains was there before.

For linking, the way down to a slot is one that a key `Follows` if it agrees, at
every frame passed, with some key in the hole, and goes to the side of the hole.
Then all keys before the hole are smaller and all behind it are larger, so the
hole is where the key belongs.  `Parted` is a split at which the key parts from
the keys in the hole, and with it a node is put above the hole (`obeys_above`).
-/

namespace ElasticTree

namespace Shape

variable {C : Type} [LT C] {discipline : Discipline C} {rank : NodeId → C} {shape hole : Shape}
  {context : Context} {id : NodeId} {key known : C}

omit [LT C] in
theorem mem_keys_iff : key ∈ shape.keys rank ↔ ∃ id ∈ shape.members, rank id = key :=
  List.mem_map

omit [LT C] in
theorem mem_keys_append {other : Shape} (h : id ∈ shape.members ++ other.members) :
    rank id ∈ shape.keys rank ++ other.keys rank := by
  rw [keys, keys, ← List.map_append]
  exact List.mem_map_of_mem h

/-- In a leaf all nodes have the same key. -/
theorem Obeys.eq_of_leaf {head : NodeId} {behind : List NodeId}
    (h : (leaf head behind).Obeys discipline rank) : ∀ key ∈ (leaf head behind).keys rank,
      key = rank head := by
  intro key hkey
  obtain ⟨id, hid, rfl⟩ := mem_keys_iff.mp hkey
  rcases List.mem_cons.mp hid with rfl | hid
  · rfl
  · exact h.1 id hid

/-- All splits of a shape are admitted. -/
theorem Obeys.admits (h : shape.Obeys discipline rank) :
    ∀ split ∈ shape.splits, discipline.admits split := by
  induction shape with
  | leaf head behind => simp [splits]
  | branch owner split left right hleft hright =>
      intro other hother
      rw [splits, List.mem_cons, List.mem_append] at hother
      rcases hother with rfl | hother | hother
      · exact h.1.admits
      · exact hleft h.2.1 other hother
      · exact hright h.2.2 other hother

theorem Obeys.sorted (h : shape.Obeys discipline rank) :
    (shape.keys rank).Pairwise fun first second => ¬ second < first := by
  induction shape with
  | leaf head behind =>
      refine List.Pairwise.imp_of_mem (fun {first second} hfirst hsecond _ => ?_)
        (List.pairwise_of_forall (fun _ _ => trivial) : List.Pairwise (fun _ _ => True) _)
      rw [h.eq_of_leaf first hfirst, h.eq_of_leaf second hsecond]
      exact discipline.lt_irrefl _
  | branch owner split left right hleft hright =>
      obtain ⟨hparts, hobeys_left, hobeys_right⟩ := h
      rw [keys, members, List.map_append]
      refine List.pairwise_append.mpr ⟨hleft hobeys_left, hright hobeys_right, ?_⟩
      intro first hfirst second hsecond
      exact discipline.not_lt
        (hparts.agrees first (List.mem_append_left _ hfirst) second
          (List.mem_append_right _ hsecond))
        (hparts.here first hfirst) (hparts.there second hsecond)

/-! ## Unlinking -/

theorem Removes.obeys {after : Option Shape} (h : Removes id shape after)
    (hobeys : shape.Obeys discipline rank) : ∀ found ∈ after, found.Obeys discipline rank := by
  intro found hfound
  cases h with
  | last => simp at hfound
  | member context head front back =>
      rw [Option.mem_some_iff] at hfound
      subst hfound
      rw [obeys_plug_iff] at hobeys ⊢
      refine ⟨⟨fun other hother => hobeys.1.1 other ?_, .inr ?_⟩, hobeys.2.mono ?_ ?_⟩
      · simp only [List.mem_append, List.mem_cons] at hother ⊢
        tauto
      · exact hobeys.1.2.resolve_left (by simp)
      · intro key hkey
        simp only [keys, Shape.members, List.map_cons, List.map_append, List.mem_cons,
          List.mem_append] at hkey ⊢
        tauto
      · exact fun split hsplit => hsplit
  | head context heir behind =>
      rw [Option.mem_some_iff] at hfound
      subst hfound
      rw [obeys_reown_iff]
      rw [obeys_plug_iff] at hobeys ⊢
      have heir_eq : rank heir = rank id := hobeys.1.1 heir List.mem_cons_self
      refine ⟨⟨?_, .inr ?_⟩, hobeys.2.mono ?_ ?_⟩
      · intro other hother
        rw [heir_eq]
        exact hobeys.1.1 other (List.mem_cons_of_mem _ hother)
      · exact hobeys.1.2.resolve_left (by simp)
      · exact fun key hkey => List.mem_cons_of_mem _ hkey
      · exact fun split hsplit => hsplit
  | single frame outer =>
      rw [Option.mem_some_iff] at hfound
      subst hfound
      rw [obeys_reown_iff]
      replace hobeys : (Context.plug (frame :: outer) (leaf id [])).Obeys discipline rank := hobeys
      rw [obeys_plug_iff] at hobeys ⊢
      -- the branch above the leaf goes with it, and the frames further out see fewer keys
      obtain ⟨-, -, hsibling, houter⟩ := hobeys
      refine ⟨hsibling, houter.mono (fun key hkey => List.mem_append_right _ hkey)
        fun split hsplit => ?_⟩
      exact List.mem_cons_of_mem _ (List.mem_append_right _ hsplit)

/-! ## Linking -/

/-- The way to the hole is the way down for the key: it agrees at every frame
with a key that is known to lie in the hole, and goes to the side of the hole. -/
structure Follows (discipline : Discipline C) (context : Context) (key known : C) : Prop where
  agrees : ∀ frame ∈ context, discipline.agrees frame.split key known
  onSide : ∀ frame ∈ context, discipline.onSide frame.split frame.side key

/-- The way goes one frame further down. -/
theorem Follows.cons {frame : Frame} (h : Follows discipline context key known)
    (hagrees : discipline.agrees frame.split key known)
    (hside : discipline.onSide frame.split frame.side key) :
    Follows discipline (frame :: context) key known where
  agrees := List.forall_mem_cons.mpr ⟨hagrees, h.agrees⟩
  onSide := List.forall_mem_cons.mpr ⟨hside, h.onSide⟩

/-- The splits on the way are none of a group of equal keys. -/
def Context.Plain (context : Context) : Prop := ∀ frame ∈ context, 0 ≤ frame.split

omit [LT C] in
theorem Context.Plain.cons {frame : Frame} (h : context.Plain) (hframe : 0 ≤ frame.split) :
    Context.Plain (frame :: context) :=
  List.forall_mem_cons.mpr ⟨hframe, h⟩

namespace Context.Obeys

variable {held : List C} {splits : List Int}

theorem admits (h : context.Obeys discipline rank held splits) :
    ∀ frame ∈ context, discipline.admits frame.split := by
  induction context generalizing held splits with
  | nil => simp
  | cons frame outer ih =>
      intro other hother
      rcases List.mem_cons.mp hother with rfl | hother
      · exact h.1.admits
      · exact ih h.2.2 other hother

/-- What may follow the innermost split may follow all those above it. -/
theorem deepens {split : Int} (h : context.Obeys discipline rank held splits)
    (hsplit : ∀ frame ∈ context.head?, discipline.deepens frame.split split) :
    ∀ frame ∈ context, discipline.deepens frame.split split := by
  induction context generalizing held splits with
  | nil => simp
  | cons frame outer ih =>
      obtain ⟨-, -, houter⟩ := h
      have hinner : discipline.deepens frame.split split := hsplit frame rfl
      intro other hother
      rcases List.mem_cons.mp hother with rfl | hother
      · exact hinner
      · refine ih houter (fun above habove => ?_) other hother
        cases outer with
        | nil => simp at habove
        | cons next outer =>
            rw [List.head?_cons, Option.mem_some_iff] at habove
            exact habove ▸ discipline.deepens_trans (houter.1.deepens _ List.mem_cons_self) hinner

/-- What lies in the hole goes to its side at every frame. -/
theorem follows (h : context.Obeys discipline rank held splits) (hknown : known ∈ held) :
    Follows discipline context known known := by
  refine ⟨fun frame _ => discipline.agrees_refl _ _, ?_⟩
  induction context generalizing held splits with
  | nil => simp
  | cons frame outer ih =>
      obtain ⟨hparts, -, houter⟩ := h
      intro other hother
      rcases List.mem_cons.mp hother with rfl | hother
      · exact hparts.here known hknown
      · exact ih houter (List.mem_append_left _ hknown) other hother

/-- Every key outside the hole parts from one that follows the way at some
frame, and lies on the other side of it. -/
private theorem exists_frame (h : context.Obeys discipline rank held splits) (hknown : known ∈ held)
    (hfollows : Follows discipline context key known) :
    (∀ other ∈ context.before, ∃ frame ∈ context, frame.side = .right ∧
      discipline.agrees frame.split (rank other) key ∧
        discipline.onSide frame.split .left (rank other) ∧
        discipline.onSide frame.split .right key) ∧
    ∀ other ∈ context.after, ∃ frame ∈ context, frame.side = .left ∧
      discipline.agrees frame.split key (rank other) ∧
        discipline.onSide frame.split .left key ∧
          discipline.onSide frame.split .right (rank other) := by
  induction context generalizing held splits with
  | nil => simp [Context.before, Context.after]
  | cons frame outer ih =>
      obtain ⟨hparts, -, houter⟩ := h
      have hrest := ih houter (List.mem_append_left _ hknown)
        ⟨fun other hother => hfollows.agrees other (List.mem_cons_of_mem _ hother),
          fun other hother => hfollows.onSide other (List.mem_cons_of_mem _ hother)⟩
      have hside := hfollows.onSide frame List.mem_cons_self
      have hagrees : ∀ other ∈ frame.sibling.members,
          discipline.agrees frame.split key (rank other) := fun other hother =>
        discipline.agrees_trans (hfollows.agrees frame List.mem_cons_self)
          (hparts.agrees known (List.mem_append_left _ hknown) _
            (List.mem_append_right _ (List.mem_map_of_mem hother)))
      have hthere : ∀ other ∈ frame.sibling.members,
          discipline.onSide frame.split frame.side.opposite (rank other) :=
        fun other hother => hparts.there _ (List.mem_map_of_mem hother)
      -- a key outside lies further out, or beside the innermost frame and on its other side
      constructor
      · intro other hother
        rw [Context.before, List.mem_append] at hother
        rcases hother with hother | hother
        · obtain ⟨found, hfound, hspec⟩ := hrest.1 other hother
          exact ⟨found, List.mem_cons_of_mem _ hfound, hspec⟩
        · obtain ⟨owner, split, side, sibling⟩ := frame
          cases side with
          | left => simp [Frame.before] at hother
          | right =>
              exact ⟨_, List.mem_cons_self, rfl, discipline.agrees_symm (hagrees other hother),
                hthere other hother, hside⟩
      · intro other hother
        rw [Context.after, List.mem_append] at hother
        rcases hother with hother | hother
        · obtain ⟨owner, split, side, sibling⟩ := frame
          cases side with
          | left => exact ⟨_, List.mem_cons_self, rfl, hagrees other hother, hside,
              hthere other hother⟩
          | right => simp [Frame.after] at hother
        · obtain ⟨found, hfound, hspec⟩ := hrest.2 other hother
          exact ⟨found, List.mem_cons_of_mem _ hfound, hspec⟩

theorem not_lt_before (h : context.Obeys discipline rank held splits) (hknown : known ∈ held)
    (hfollows : Follows discipline context key known) :
    ∀ other ∈ context.before, ¬ key < rank other := by
  intro other hother
  obtain ⟨frame, -, -, hagrees, hleft, hright⟩ := (h.exists_frame hknown hfollows).1 other hother
  exact discipline.not_lt hagrees hleft hright

theorem not_lt_after (h : context.Obeys discipline rank held splits) (hknown : known ∈ held)
    (hfollows : Follows discipline context key known) :
    ∀ other ∈ context.after, ¬ rank other < key := by
  intro other hother
  obtain ⟨frame, -, -, hagrees, hleft, hright⟩ := (h.exists_frame hknown hfollows).2 other hother
  exact discipline.not_lt hagrees hleft hright

theorem lt_before (h : context.Obeys discipline rank held splits) (hknown : known ∈ held)
    (hfollows : Follows discipline context key known) (hplain : context.Plain) :
    ∀ other ∈ context.before, rank other < key := by
  intro other hother
  obtain ⟨frame, hframe, -, hagrees, hleft, hright⟩ :=
    (h.exists_frame hknown hfollows).1 other hother
  exact discipline.lt (hplain frame hframe) hagrees hleft hright

theorem lt_after (h : context.Obeys discipline rank held splits) (hknown : known ∈ held)
    (hfollows : Follows discipline context key known)
    (hplain : ∀ frame ∈ context, frame.side = .left → 0 ≤ frame.split) :
    ∀ other ∈ context.after, key < rank other := by
  intro other hother
  obtain ⟨frame, hframe, hside, hagrees, hleft, hright⟩ :=
    (h.exists_frame hknown hfollows).2 other hother
  exact discipline.lt (hplain frame hframe hside) hagrees hleft hright

end Context.Obeys

/-- Past splits that part different keys, the leaf of a key comes before all other
nodes of that key. -/
theorem Obeys.find?_head [DecidableEq C] {head : NodeId} {behind : List NodeId}
    (h : (context.plug (leaf head behind)).Obeys discipline rank) (hplain : context.Plain) :
    (context.plug (leaf head behind)).members.find? (fun id => rank id = rank head) =
      some head := by
  have hknown : rank head ∈ (leaf head behind).keys rank :=
    mem_keys_iff.mpr ⟨head, List.mem_cons_self, rfl⟩
  have hcontext := (obeys_plug_iff.mp h).2
  have hbefore : context.before.find? (fun id => rank id = rank head) = none := by
    refine List.find?_eq_none.mpr fun id hid heq => ?_
    have hlt := hcontext.lt_before hknown (hcontext.follows hknown) hplain id hid
    exact discipline.lt_irrefl _ (of_decide_eq_true heq ▸ hlt)
  rw [members_plug, List.append_assoc, List.find?_append, hbefore, Option.none_or, members,
    List.cons_append, List.find?_cons, decide_eq_true rfl]

/-- The owner of a branch agrees with all that lie below it. -/
theorem Obeys.agrees_owner {owner : NodeId} {split : Int} {left right : Shape}
    (h : (branch owner split left right).Obeys discipline rank)
    (hcovered : (branch owner split left right).Covered)
    (hid : id ∈ (branch owner split left right).members) :
    discipline.agrees split (rank owner) (rank id) :=
  h.1.agrees _ (mem_keys_append hcovered.link_mem) _ (mem_keys_append hid)

/-- A node below a branch agrees with the owner of the branch, and lies on its
side of the split. -/
theorem Obeys.around {frame : Frame} (h : (context.plug hole).Obeys discipline rank)
    (hcovered : (context.plug hole).Covered) (hframe : frame ∈ context) (hid : id ∈ hole.members) :
    discipline.admits frame.split ∧ frame.owner ∈ (context.plug hole).members ∧
      discipline.agrees frame.split (rank id) (rank frame.owner) ∧
        discipline.onSide frame.split frame.side (rank id) := by
  obtain ⟨inner, outer, rfl⟩ := List.append_of_mem hframe
  rw [plug_append] at h hcovered ⊢
  have hmem := mem_members_plug inner hid
  obtain ⟨hparts, -, -⟩ := (obeys_plug_iff.mp h).2
  obtain ⟨howner, -, -⟩ := (covered_plug_iff.mp hcovered).2
  have howner : frame.owner ∈ (Context.plug inner hole).members ++ frame.sibling.members := by
    rw [List.mem_append, mem_members_iff, mem_members_iff]
    exact (List.mem_append.mp howner).imp .inl .inl
  refine ⟨hparts.admits, ?_, hparts.agrees _ ?_ _ ?_, hparts.here _ (List.mem_map_of_mem hmem)⟩
  · rw [Context.plug, members_plug]
    exact List.mem_append_left _ (List.mem_append_right _ (Frame.mem_members_close.mpr howner))
  · exact List.mem_append_left _ (List.mem_map_of_mem hmem)
  · exact mem_keys_append howner

/-- The split of the branch at the root of a shape. -/
def top? : Shape → Option Int
  | leaf _ _ => none
  | branch _ split _ _ => some split

/-- A key parts at the split from one that is known to lie in the hole, to the
given side, and does so above the hole. -/
structure Parted (discipline : Discipline C) (hole : Shape) (split : Int) (side : Side)
    (key known : C) : Prop where
  admits : discipline.admits split
  nonneg : 0 ≤ split
  agrees : discipline.agrees split key known
  onSide : discipline.onSide split side key
  opposite : discipline.onSide split side.opposite known
  above : ∀ top ∈ hole.top?, ¬ discipline.agrees top key known

namespace Parted

variable {split : Int} {side : Side}

/-- The key parts from everything in the hole. -/
theorem spread (h : Parted discipline hole split side key known)
    (hobeys : hole.Obeys discipline rank) (hknown : known ∈ hole.keys rank) :
    (∀ other ∈ hole.keys rank, discipline.agrees split key other ∧
      discipline.onSide split side.opposite other) ∧
    ∀ lower ∈ hole.splits, discipline.deepens split lower := by
  cases hole with
  | leaf head behind =>
      refine ⟨fun other hother => ?_, by simp [splits]⟩
      rw [hobeys.eq_of_leaf other hother, ← hobeys.eq_of_leaf known hknown]
      exact ⟨h.agrees, h.opposite⟩
  | branch owner top left right =>
      have hdeepens : discipline.deepens split top :=
        discipline.rises h.nonneg (h.above top rfl) h.agrees
      obtain ⟨hparts, -, -⟩ := hobeys
      have hkeys : (branch owner top left right).keys rank = left.keys rank ++ right.keys rank :=
        List.map_append
      rw [hkeys] at hknown ⊢
      refine ⟨?_, ?_⟩
      · intro other hother
        obtain ⟨hagrees, hside⟩ :=
          discipline.coarsen hdeepens (hparts.agrees known hknown other hother)
        exact ⟨discipline.agrees_trans h.agrees hagrees, hside _ h.opposite⟩
      · intro lower hlower
        rw [splits, List.mem_cons] at hlower
        rcases hlower with rfl | hlower
        · exact hdeepens
        · exact discipline.deepens_trans hdeepens (hparts.deepens lower hlower)

/-- Everything in the hole is smaller than the key, or everything is larger. -/
theorem lt (h : Parted discipline hole split side key known) (hobeys : hole.Obeys discipline rank)
    (hknown : known ∈ hole.keys rank) : ∀ other ∈ hole.members,
      match side with
      | .left => key < rank other
      | .right => rank other < key := by
  intro other hother
  obtain ⟨hagrees, hside⟩ := (h.spread hobeys hknown).1 _ (List.mem_map_of_mem hother)
  have honSide := h.onSide
  cases side with
  | left => exact discipline.lt h.nonneg hagrees honSide hside
  | right => exact discipline.lt h.nonneg (discipline.agrees_symm hagrees) hside honSide

end Parted

/-- A node may be put above a hole that its key parts from. -/
theorem obeys_above {split : Int} {side : Side} (h : (context.plug hole).Obeys discipline rank)
    (hknown : known ∈ hole.keys rank) (hfollows : Follows discipline context (rank id) known)
    (hparted : Parted discipline hole split side (rank id) known) :
    (context.plug (Frame.close ⟨id, split, side.opposite, leaf id []⟩ hole)).Obeys
      discipline rank := by
  obtain ⟨hhole, hcontext⟩ := obeys_plug_iff.mp h
  obtain ⟨hspread, hbelow⟩ := hparted.spread hhole hknown
  have hparts : discipline.Parts split side.opposite (hole.keys rank) [rank id] hole.splits := by
    refine ⟨hparted.admits, ?_, fun other hother => (hspread other hother).2, ?_, hbelow⟩
    · have hall : ∀ other ∈ hole.keys rank ++ [rank id],
          discipline.agrees split (rank id) other := by
        intro other hother
        rw [List.mem_append, List.mem_singleton] at hother
        rcases hother with hother | rfl
        · exact (hspread other hother).1
        · exact discipline.agrees_refl _ _
      exact fun first hfirst second hsecond =>
        discipline.agrees_trans (discipline.agrees_symm (hall first hfirst)) (hall second hsecond)
    · rw [Side.opposite_opposite]
      simpa using hparted.onSide
  have hlower : ∀ frame ∈ context, discipline.deepens frame.split split := fun frame hframe =>
    discipline.sinks hparted.nonneg (hfollows.agrees frame hframe) (hfollows.onSide frame hframe)
      ((hcontext.follows hknown).onSide frame hframe) hparted.agrees hparted.onSide hparted.opposite
  have hextended := hcontext.extend hknown
    (fun frame hframe => ⟨hfollows.agrees frame hframe, hfollows.onSide frame hframe⟩) hlower
  have hleaf : (leaf id []).Obeys discipline rank := ⟨by simp, .inl rfl⟩
  show (Context.plug (⟨id, split, side.opposite, leaf id []⟩ :: context) hole).Obeys discipline rank
  rw [obeys_plug_iff]
  refine ⟨hhole, hparts.mono (fun _ h => h) (fun _ h => h) (by simp [splits]), hleaf,
    hextended.mono ?_ ?_⟩
  · intro other hother
    simpa [keys, members, or_comm] using hother
  · simp [splits]

/-! ## Equal keys -/

/-- Past branches of different keys only, no key outside the hole is one of those in
it. -/
theorem Context.Obeys.ne_of_plain {held : List C} {splits : List Int}
    (h : context.Obeys discipline rank held splits) (hplain : context.Plain)
    (hknown : known ∈ held) :
    ∀ other ∈ context.before ++ context.after, rank other ≠ known := by
  have hfollows := h.follows hknown
  intro other hother heq
  subst heq
  rcases List.mem_append.mp hother with hother | hother
  · exact discipline.lt_irrefl _ (h.lt_before hknown hfollows hplain other hother)
  · exact discipline.lt_irrefl _
      (h.lt_after hknown hfollows (fun frame hframe _ => hplain frame hframe) other hother)

/-- A key that parts from a hole, past branches of different keys only, is a new one. -/
theorem ne_of_parted {split : Int} {side : Side} (h : (context.plug hole).Obeys discipline rank)
    (hplain : context.Plain) (hknown : known ∈ hole.keys rank)
    (hfollows : Follows discipline context key known)
    (hparted : Parted discipline hole split side key known) :
    ∀ other ∈ (context.plug hole).members, rank other ≠ key := by
  obtain ⟨hhole, hcontext⟩ := obeys_plug_iff.mp h
  intro other hother heq
  subst heq
  rw [members_plug, List.mem_append, List.mem_append] at hother
  rcases hother with (hother | hother) | hother
  · exact discipline.lt_irrefl _ (hcontext.lt_before hknown hfollows hplain other hother)
  · have hlt := hparted.lt hhole hknown other hother
    cases side <;> exact discipline.lt_irrefl _ hlt
  · exact discipline.lt_irrefl _
      (hcontext.lt_after hknown hfollows (fun frame hframe _ => hplain frame hframe) other hother)

end Shape

end ElasticTree
