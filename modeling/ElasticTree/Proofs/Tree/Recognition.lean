import ElasticTree.Proofs.Tree.Forming
import ElasticTree.Proofs.Tree.Inspection

/-!
# Inspection recognises well-formed trees

A tree that passes the inspection of its structure is well formed, whatever is
stored in it.  The first pass leaves behind what it has walked through: a ring
that is closed (`ring_of_inspectRingFrom`), and for each link that was waiting a
shape to which it unfolds (`grows_of_inspectLinks`).  The second pass finds as
many nodes that record a role as there are roles in the shape.  The nodes of the
shape are among them and are distinct, so there are no others
(`Arena.mem_of_countP_eq`).
-/

namespace ElasticTree

open Shape Inspection

namespace Inspection

variable {α β : Type} {condition : Prop} [Decidable condition] {corruption : Corruption}

theorem except_bind_eq_ok {ε : Type} {step : Except ε α} {next : α → Except ε β} {result : β} :
    step >>= next = .ok result ↔ ∃ found, step = .ok found ∧ next found = .ok result := by
  cases step with
  | error e => exact ⟨fun h => (nomatch h), fun ⟨_, h, _⟩ => (nomatch h)⟩
  | ok found => exact ⟨fun h => ⟨found, rfl, h⟩, fun ⟨_, h, h'⟩ => Except.ok.inj h ▸ h'⟩

/-- A sequence of checks ends well if both do. -/
theorem bind_eq_pure {step : Inspection α} {next : α → Inspection β} {result : β} :
    step >>= next = pure result ↔ ∃ found, step = pure found ∧ next found = pure result := by
  constructor
  · intro h
    match step, h with
    | .ok (.ok found), h => exact ⟨found, rfl, h⟩
  · rintro ⟨found, rfl, h⟩
    rw [pure_bind, h]

theorem pure_injective {first second : α} (h : (pure first : Inspection α) = pure second) :
    first = second :=
  Except.ok.inj (Except.ok.inj h)

theorem expect_eq_pure {done : Unit} : expect condition corruption = pure done ↔ condition := by
  unfold expect
  split
  · exact ⟨fun _ => by assumption, fun _ => rfl⟩
  · exact ⟨fun h => (nomatch h), fun h => absurd h (by assumption)⟩

theorem liftM_eq_pure {step : Except Fault α} {found : α} :
    (liftM step : Inspection α) = pure found ↔ step = .ok found := by
  cases step with
  | error fault => exact ⟨fun h => (nomatch h), fun h => (nomatch h)⟩
  | ok other =>
      exact ⟨fun h => congrArg Except.ok (pure_injective h), fun h => Except.ok.inj h ▸ rfl⟩

theorem ofSafe_eq_pure {check : Except Corruption α} {found : α} :
    ofSafe check = pure found ↔ check = .ok found := by
  cases check with
  | error corruption => exact ⟨fun h => (nomatch h), fun h => (nomatch h)⟩
  | ok other =>
      exact ⟨fun h => congrArg Except.ok (pure_injective h), fun h => Except.ok.inj h ▸ rfl⟩

end Inspection

namespace Tree

variable {K V : Type} {tree : Tree K V} {id head : NodeId} {node : Node K V} {position : Position}

/-! ## The first pass -/

/-- What one step along a ring makes sure of. -/
private theorem inspectRingFrom_step {room count : Nat} {member next : NodeId}
    (h : tree.inspectRingFrom head room member next = .ok count) :
    ∃ node, tree.nodes.get? next = some node ∧ node.ring.prev = member ∧
      (next = head ∧ count = 0 ∨
        next ≠ head ∧ node.placement = .chained ∧ ∃ fewer behind, room = fewer + 1 ∧
          tree.inspectRingFrom head fewer next node.ring.next = .ok behind ∧
          count = behind + 1) := by
  unfold inspectRingFrom at h
  split at h
  · cases h
  · rename_i node hnode
    refine ⟨node, hnode, ?_⟩
    by_cases hprev : node.ring.prev = member
    · refine ⟨hprev, ?_⟩
      rw [if_neg (not_not.mpr hprev)] at h
      by_cases hhead : next = head
      · rw [if_pos hhead] at h
        exact .inl ⟨hhead, (Except.ok.inj h).symm⟩
      · rw [if_neg hhead] at h
        by_cases hchained : node.placement = .chained
        · rw [if_neg (not_not.mpr hchained)] at h
          cases room with
          | zero => cases h
          | succ fewer =>
              obtain ⟨behind, hbehind, hcount⟩ := except_bind_eq_ok.mp h
              exact .inr ⟨hhead, hchained, fewer, behind, rfl, hbehind, (Except.ok.inj hcount).symm⟩
        · rw [if_pos hchained] at h
          cases h
    · rw [if_pos hprev] at h
      cases h

/-- A walk along a ring that ends well has followed it round to its head. -/
private theorem ring_of_inspectRingFrom {room count : Nat} {member next : NodeId}
    (h : tree.inspectRingFrom head room member next = .ok count)
    (hnext : (tree.layout.ring member).next = next) :
    ∃ rest : List NodeId, rest.length = count ∧
      (member :: (rest ++ [head])).IsChain (Ring.Faces tree.layout.ring) ∧
        ∀ other ∈ rest, other ≠ head ∧ tree.layout.IsChained other := by
  induction room generalizing member next count with
  | zero =>
      obtain ⟨node, hnode, hprev, ⟨rfl, rfl⟩ | ⟨-, -, fewer, -, hroom, -⟩⟩ := inspectRingFrom_step h
      · refine ⟨[], rfl, List.isChain_pair.mpr ⟨hnext, ?_⟩, by simp⟩
        rw [ring_layout hnode, hprev]
      · omega
  | succ room ih =>
      obtain ⟨node, hnode, hprev,
        ⟨rfl, rfl⟩ | ⟨hhead, hchained, fewer, behind, hroom, hrest, rfl⟩⟩ :=
        inspectRingFrom_step h
      · refine ⟨[], rfl, List.isChain_pair.mpr ⟨hnext, ?_⟩, by simp⟩
        rw [ring_layout hnode, hprev]
      · obtain rfl : room = fewer := by omega
        obtain ⟨rest, hlength, hchain, hmembers⟩ := ih hrest (by rw [ring_layout hnode])
        refine ⟨next :: rest, by simp [hlength],
          List.isChain_cons_cons.mpr ⟨⟨hnext, ?_⟩, hchain⟩, ?_⟩
        · rw [ring_layout hnode, hprev]
        · intro other hother
          rcases List.mem_cons.mp hother with rfl | hother
          · exact ⟨hhead, (placement_layout hnode).trans hchained⟩
          · exact hmembers other hother

/-- A leaf that passes is placed where it was reached, and its ring is closed. -/
private theorem cycle_of_inspectLeaf {behind : Nat} (hnode : tree.nodes.get? id = some node)
    (h : tree.inspectLeaf id node position = .ok behind) :
    node.placement = .placed position ∧ ∃ rest : List NodeId, rest.length = behind ∧
      Ring.Cycle tree.nodes id rest ∧ ∀ other ∈ rest, tree.layout.IsChained other := by
  unfold inspectLeaf at h
  by_cases hplaced : node.placement = .placed position
  · rw [if_neg (not_not.mpr hplaced)] at h
    obtain ⟨rest, hlength, hchain, hmembers⟩ :=
      ring_of_inspectRingFrom h (by rw [ring_layout hnode])
    refine ⟨hplaced, rest, hlength, Ring.cycle_iff.mpr ⟨?_, fun other hother => ?_⟩,
      fun other hother => (hmembers other hother).2⟩
    · exact .of_faces hchain fun hmem => (hmembers id hmem).1 rfl
    · rcases List.mem_cons.mp hother with rfl | hother
      · exact Option.isSome_iff_exists.mpr ⟨node, hnode⟩
      · apply live_of_placement
        rw [(hmembers other hother).2]
        simp
  · rw [if_pos hplaced] at h
    cases h

private theorem of_inspectBranch {branch : Branch}
    (h : inspectBranch id node position = .ok branch) :
    node.branch = some branch ∧ branch.position = position := by
  unfold inspectBranch at h
  split at h
  · cases h
  · rename_i found hfound
    split_ifs at h with hposition
    obtain rfl := Except.ok.inj h
    exact ⟨hfound, not_not.mp hposition⟩

/-- The waiting link, hanging from its position, unfolds to the shape, and the
nodes that the shape has behind its leaves are chained. -/
private def Grows (tree : Tree K V) (waiting : Link × Position) (shape : Shape) : Prop :=
  tree.Unfolds waiting.2 waiting.1 shape ∧ ∀ id ∈ shape.chained, tree.layout.IsChained id

/-- If the first pass comes to its end, all links that were waiting unfold, and
the roles in their shapes have been counted. -/
private theorem grows_of_inspectLinks {room : Nat} {waiting : List (Link × Position)}
    {tally result : Tally} (h : tree.inspectLinks room waiting tally = .ok result) :
    ∃ shapes, List.Forall₂ tree.Grows waiting shapes ∧
      result = shapes.foldl (fun tally shape => tally.add shape.tally) tally := by
  induction room generalizing waiting tally with
  | zero =>
      cases waiting with
      | nil =>
          unfold inspectLinks at h
          exact ⟨[], .nil, (Except.ok.inj h).symm⟩
      | cons top waiting =>
          unfold inspectLinks at h
          cases h
  | succ room ih =>
      cases waiting with
      | nil =>
          unfold inspectLinks at h
          exact ⟨[], .nil, (Except.ok.inj h).symm⟩
      | cons top waiting =>
          obtain ⟨link, position⟩ := top
          rw [inspectLinks] at h
          split at h
          · cases h
          · rename_i node hnode
            cases link with
            | leaf id =>
                obtain ⟨behind, hleaf, hrest⟩ := except_bind_eq_ok.mp h
                obtain ⟨hplaced, rest, rfl, hcycle, hchained⟩ := cycle_of_inspectLeaf hnode hleaf
                obtain ⟨shapes, hshapes, hresult⟩ := ih hrest
                exact ⟨.leaf id rest :: shapes,
                  .cons ⟨.leaf hnode hplaced hcycle, hchained⟩ hshapes, hresult⟩
            | branch id =>
                obtain ⟨branch, hbranch, hrest⟩ := except_bind_eq_ok.mp h
                obtain ⟨hused, hposition⟩ := of_inspectBranch hbranch
                obtain ⟨shapes, hshapes, hresult⟩ := ih hrest
                -- the shapes of the two sides are on top, the right one first
                obtain ⟨right, others, ⟨hright, hright_chained⟩, hothers, rfl⟩ :=
                  List.forall₂_cons_left_iff.mp hshapes
                obtain ⟨left, shapes, ⟨hleft, hleft_chained⟩, hwaiting, rfl⟩ :=
                  List.forall₂_cons_left_iff.mp hothers
                refine ⟨.branch id branch.split left right :: shapes,
                  .cons ⟨.branch hnode hused hposition hleft hright, ?_⟩ hwaiting, ?_⟩
                · intro other hother
                  exact (List.mem_append.mp hother).elim (hleft_chained other)
                    (hright_chained other)
                · rw [hresult]
                  simp only [List.foldl_cons]
                  congr 1
                  simp only [Tally.add, Shape.tally, Shape.leaves, Shape.owners, Shape.chained,
                    List.length_append, List.length_cons, Tally.mk.injEq]
                  omega

/-- If the first pass ends well, what hangs from the root unfolds to a shape, and
the roles and members of that shape have been counted. -/
private theorem of_inspectReached {reached : Tally} (h : tree.inspectReached = .ok reached) :
    ∃ shape, tree.RootUnfolds shape ∧
      (∀ found ∈ shape, ∀ id ∈ found.chained, tree.layout.IsChained id) ∧
        reached = ⟨(shape.elim [] Shape.leaves).length, (shape.elim [] Shape.owners).length,
          (shape.elim [] Shape.chained).length⟩ ∧
          reached.leaves + reached.chained = tree.linked := by
  unfold inspectReached at h
  obtain ⟨tally, htally, h⟩ := except_bind_eq_ok.mp h
  dsimp only at h
  have hbranches : ¬ (0 < tally.leaves ∧ tally.branches ≠ tally.leaves - 1) := by
    intro hcount
    rw [if_pos hcount] at h
    cases h
  rw [if_neg hbranches] at h
  have hlinked : tally.leaves + tally.chained = tree.linked := by
    by_contra hcount
    rw [if_pos hcount] at h
    cases h
  rw [if_neg (not_not.mpr hlinked)] at h
  obtain rfl : tally = reached := Except.ok.inj h
  obtain ⟨shapes, hshapes, htally⟩ := grows_of_inspectLinks htally
  cases hroot : tree.root with
  | none =>
      simp only [hroot, List.forall₂_nil_left_iff] at hshapes
      subst hshapes
      exact ⟨none, hroot, by simp, htally, hlinked⟩
  | some link =>
      simp only [hroot] at hshapes
      obtain ⟨found, shapes, ⟨hunfolds, hchained⟩, hrest, rfl⟩ :=
        List.forall₂_cons_left_iff.mp hshapes
      obtain rfl := List.forall₂_nil_left_iff.mp hrest
      refine ⟨some found, ⟨link, hroot, hunfolds⟩, ?_, ?_, hlinked⟩
      · rintro _ ⟨⟩
        exact hchained
      · rw [htally, List.foldl_cons, List.foldl_nil, Tally.zero_add]
        rfl

/-! ## The second pass -/

/-- The roles that a node records for itself go together. -/
private structure Coheres (tree : Tree K V) (id : NodeId) (node : Node K V) : Prop where
  detached : node.placement = .detached → node.branch = none ∧ node.ring = .alone id
  chained : node.placement = .chained → node.branch = none
  placed : ∀ position, node.placement = .placed position → node.branch ≠ none →
    tree.hasAbove id position = .ok true

/-- A node that lends a branch holds a leaf position. -/
private theorem Coheres.exists_slot (h : tree.Coheres id node) (hbranch : node.branch ≠ none) :
    ∃ slot, node.placement = .placed slot := by
  cases hplacement : node.placement with
  | detached => exact absurd (h.detached hplacement).1 hbranch
  | chained => exact absurd (h.chained hplacement) hbranch
  | placed slot => exact ⟨slot, rfl⟩

/-- The roles that nodes record for themselves. -/
private def rolesRecorded (entries : List (NodeId × Node K V)) : Tally :=
  ⟨entries.countP fun entry => entry.2.placement.position?.isSome,
    entries.countP fun entry => entry.2.branch.isSome,
    entries.countP fun entry => entry.2.placement = .chained⟩

private theorem of_inspectRecorded {recorded result : Tally}
    (h : tree.inspectRecorded recorded (id, node) = pure result) :
    tree.Coheres id node ∧ result = recorded.add (rolesRecorded [(id, node)]) := by
  unfold inspectRecorded at h
  cases hplacement : node.placement with
  | detached =>
      simp only [hplacement] at h
      obtain ⟨_, hcheck, hresult⟩ := bind_eq_pure.mp h
      obtain ⟨hbranch, hring⟩ := expect_eq_pure.mp hcheck
      refine ⟨⟨fun _ => ⟨hbranch, hring⟩, ?_, ?_⟩, ?_⟩
      · simp [hplacement]
      · simp [hplacement]
      · simp [← pure_injective hresult, rolesRecorded, hplacement, hbranch, Tally.add]
  | chained =>
      simp only [hplacement] at h
      obtain ⟨_, hcheck, hresult⟩ := bind_eq_pure.mp h
      have hbranch := expect_eq_pure.mp hcheck
      refine ⟨⟨?_, fun _ => hbranch, ?_⟩, ?_⟩
      · simp [hplacement]
      · simp [hplacement]
      · simp [← pure_injective hresult, rolesRecorded, hplacement, hbranch, Tally.add]
  | placed position =>
      simp only [hplacement] at h
      by_cases hbranch : node.branch = none
      · rw [if_pos hbranch] at h
        refine ⟨⟨?_, ?_, fun _ _ hused => absurd hbranch hused⟩, ?_⟩
        · simp [hplacement]
        · simp [hplacement]
        · simp [← pure_injective h, rolesRecorded, hplacement, hbranch, Tally.add]
      · rw [if_neg hbranch] at h
        obtain ⟨above, habove, h⟩ := bind_eq_pure.mp h
        obtain ⟨_, hcheck, hresult⟩ := bind_eq_pure.mp h
        obtain rfl : above = true := expect_eq_pure.mp hcheck
        refine ⟨⟨?_, ?_, fun other hother _ => ?_⟩, ?_⟩
        · simp [hplacement]
        · simp [hplacement]
        · obtain rfl : position = other := by simpa [hplacement] using hother
          exact liftM_eq_pure.mp habove
        · simp [← pure_injective hresult, rolesRecorded, hplacement, hbranch, Tally.add,
            Option.isSome_iff_ne_none]

private theorem of_foldlM_inspectRecorded {entries : List (NodeId × Node K V)}
    {recorded result : Tally} (h : entries.foldlM tree.inspectRecorded recorded = pure result) :
    (∀ entry ∈ entries, tree.Coheres entry.1 entry.2) ∧
      result = recorded.add (rolesRecorded entries) := by
  induction entries generalizing recorded with
  | nil => exact ⟨by simp, by simp [← pure_injective h, rolesRecorded, Tally.add]⟩
  | cons entry entries ih =>
      obtain ⟨id, node⟩ := entry
      rw [List.foldlM_cons] at h
      obtain ⟨middle, hfirst, hrest⟩ := bind_eq_pure.mp h
      obtain ⟨hcoheres, rfl⟩ := of_inspectRecorded hfirst
      obtain ⟨hall, rfl⟩ := ih hrest
      refine ⟨List.forall_mem_cons.mpr ⟨hcoheres, hall⟩, ?_⟩
      rw [Tally.add_assoc]
      congr 1
      simp [rolesRecorded, Tally.add, List.countP_cons, Nat.add_comm]

/-! ## Covering -/

private theorem frame_of_firstAbove {context : Context} {hole : Shape} {limit : Nat}
    (h : tree.Unfolds .root (context.plug hole).link (context.plug hole))
    (habove : tree.firstAboveWithin? (fun owner _ _ => .ok (if owner = id then some () else none))
      limit context.position = .ok (some ())) : ∃ frame ∈ context, frame.owner = id := by
  induction context generalizing hole limit with
  | nil =>
      unfold Context.position firstAboveWithin? at habove
      cases habove
  | cons frame outer ih =>
      have hclose :
          tree.Unfolds (Context.position outer) (frame.close hole).link (frame.close hole) :=
        Unfolds.plug h
      obtain ⟨-, branch, hbranch, hposition, -⟩ := hclose.close
      by_cases howner : frame.owner = id
      · exact ⟨frame, List.mem_cons_self, howner⟩
      · cases limit with
        | zero =>
            unfold Context.position firstAboveWithin? at habove
            cases habove
        | succ limit =>
            rw [Context.position, firstAboveWithin?, branch_eq hbranch, Fault.ok_bind,
              if_neg howner, Fault.ok_bind] at habove
            simp only [hposition] at habove
            obtain ⟨found, hfound, hfound_owner⟩ := ih h habove
            exact ⟨found, List.mem_cons_of_mem _ hfound, hfound_owner⟩

/-- If every leaf whose node lends a branch finds that branch above it, then the
shape is covered. -/
private theorem covered_of_hasAbove {found : Shape} (h : tree.Unfolds .root found.link found)
    (habove : ∀ id ∈ found.owners, id ∈ found.leaves ∧
      ∀ slot, tree.layout.placement id = .placed slot → tree.hasAbove id slot = .ok true) :
    found.Covered := by
  apply covered_of_forall
  intro context owner split left right hbranch
  have howner : owner ∈ found.owners := by
    rw [← hbranch, (owners_plug _ _).mem_iff]
    simp [owners]
  obtain ⟨hleaf, habove⟩ := habove owner howner
  obtain ⟨inner, behind, hplug⟩ := exists_plug_of_mem_leaves hleaf
  have hunfolds := h
  rw [← hplug] at hunfolds
  have hplaced : tree.layout.placement owner = .placed inner.position := by
    simpa [Shape.link, Layout.seat?] using hunfolds.plug.seat_eq
  obtain ⟨result, hresult, hsome⟩ := except_bind_eq_ok.mp (habove _ hplaced)
  obtain rfl : result = some () := by
    cases result with
    | none => cases hsome
    | some found => rfl
  -- the branch found on the way up is the one at hand, since no other has its link
  obtain ⟨frame, hframe, rfl⟩ := frame_of_firstAbove hunfolds hresult
  obtain ⟨front, back, rfl⟩ := List.append_of_mem hframe
  rw [plug_append] at hplug
  have hsame : frame.close (Context.plug front (.leaf frame.owner behind)) =
      .branch frame.owner split left right :=
    h.meetsOnce.hole_eq (show Context.plug back (frame.close _) = _ from hplug) hbranch
      (Frame.link_close _ _)
  have hinner : frame.owner ∈ (Context.plug front (.leaf frame.owner behind)).leaves :=
    (leaves_plug _ _).mem_iff.mpr (by simp [leaves])
  have hmem : frame.owner ∈
      (frame.close (Context.plug front (.leaf frame.owner behind))).leaves := by
    unfold Frame.close
    cases frame.side <;> simp [leaves, hinner]
  rw [hsame] at hmem
  exact hmem

/-! ## Recognition -/

/-- The nodes that play a role in what hangs from the root. -/
private structure Played (tree : Tree K V) (shape : Option Shape) : Prop where
  leaves_nodup : (shape.elim [] Shape.leaves).Nodup
  owners_nodup : (shape.elim [] Shape.owners).Nodup
  chained_nodup : (shape.elim [] Shape.chained).Nodup
  placed : ∀ id ∈ shape.elim [] Shape.leaves, ∃ slot, tree.layout.placement id = .placed slot
  used : ∀ id ∈ shape.elim [] Shape.owners, tree.layout.branch id ≠ none
  chained : ∀ id ∈ shape.elim [] Shape.chained, tree.layout.IsChained id

private theorem RootUnfolds.played {shape : Option Shape} (h : tree.RootUnfolds shape)
    (hchained : ∀ found ∈ shape, ∀ id ∈ found.chained, tree.layout.IsChained id) :
    tree.Played shape := by
  cases shape with
  | none => constructor <;> simp
  | some found =>
      obtain ⟨link, -, hunfolds⟩ := h
      obtain rfl := hunfolds.link_eq
      have hmembers :=
        (members_perm found).nodup_iff.mp (hunfolds.members_nodup (hchained found rfl))
      exact ⟨hunfolds.meetsOnce.leaves_nodup, hunfolds.meetsOnce.owners_nodup,
        (List.nodup_append.mp hmembers).2.1, fun id hid => hunfolds.placed hid,
        fun id hid => hunfolds.used hid, hchained found rfl⟩

namespace Played

variable {shape : Option Shape}

/-- As many nodes hold a leaf position as there are leaves. -/
private theorem mem_leaves (h : tree.Played shape) (hsound : tree.nodes.Sound)
    (hcount : tree.nodes.entries.countP (fun entry => entry.2.placement.position?.isSome) =
      (shape.elim [] Shape.leaves).length) (hnode : tree.nodes.get? id = some node)
    (hplacement : node.placement = .placed position) : id ∈ shape.elim [] Shape.leaves := by
  apply Arena.mem_of_countP_eq hsound (fun node => node.placement.position?.isSome)
    h.leaves_nodup ?_ hcount hnode (by simp [hplacement])
  intro other hother
  obtain ⟨slot, hslot⟩ := h.placed other hother
  have hplaced : tree.layout.placement other ≠ .detached := by simp [hslot]
  obtain ⟨found, hfound⟩ := Option.isSome_iff_exists.mp (live_of_placement hplaced)
  exact ⟨found, hfound, by simp [← placement_layout hfound, hslot]⟩

/-- As many nodes have a branch in use as there are branches. -/
private theorem mem_owners (h : tree.Played shape) (hsound : tree.nodes.Sound)
    (hcount : tree.nodes.entries.countP (fun entry => entry.2.branch.isSome) =
      (shape.elim [] Shape.owners).length) (hnode : tree.nodes.get? id = some node)
    (hbranch : node.branch ≠ none) : id ∈ shape.elim [] Shape.owners := by
  apply Arena.mem_of_countP_eq hsound (fun node => node.branch.isSome)
    h.owners_nodup ?_ hcount hnode (Option.isSome_iff_ne_none.mpr hbranch)
  intro other hother
  have hused := h.used other hother
  obtain ⟨found, hfound⟩ := Option.isSome_iff_exists.mp (live_of_branch hused)
  exact ⟨found, hfound, by rwa [← branch_layout hfound, Option.isSome_iff_ne_none]⟩

/-- As many nodes are chained as there are nodes behind leaves. -/
private theorem mem_chained (h : tree.Played shape) (hsound : tree.nodes.Sound)
    (hcount : tree.nodes.entries.countP (fun entry => entry.2.placement = .chained) =
      (shape.elim [] Shape.chained).length) (hnode : tree.nodes.get? id = some node)
    (hplacement : node.placement = .chained) : id ∈ shape.elim [] Shape.chained := by
  apply Arena.mem_of_countP_eq hsound (fun node => decide (node.placement = .chained))
    h.chained_nodup ?_ hcount hnode (by simpa using hplacement)
  intro other hother
  have hchained := h.chained other hother
  have hlinked : tree.layout.placement other ≠ .detached := by
    rw [hchained]
    simp
  obtain ⟨found, hfound⟩ := Option.isSome_iff_exists.mp (live_of_placement hlinked)
  exact ⟨found, hfound, decide_eq_true ((placement_layout hfound).symm.trans hchained)⟩

end Played

private theorem mem_elim {shape : Option Shape} {list : Shape → List NodeId} :
    id ∈ shape.elim [] list ↔ ∃ found ∈ shape, id ∈ list found := by
  cases shape <;> simp

/-- A tree that passes has no role recorded outside the shape that was walked
through. -/
theorem formsWith_of_inspectStructure (hsound : tree.nodes.Sound)
    (h : tree.inspectStructure = pure ()) : ∃ shape, tree.FormsWith shape := by
  unfold inspectStructure at h
  obtain ⟨reached, hreached, h⟩ := bind_eq_pure.mp h
  obtain ⟨recorded, hrecorded, hcheck⟩ := bind_eq_pure.mp h
  obtain ⟨shape, hunfolds, hchained, rfl, hlinked⟩ := of_inspectReached (ofSafe_eq_pure.mp hreached)
  obtain ⟨hcoheres, hcount⟩ := of_foldlM_inspectRecorded hrecorded
  rw [expect_eq_pure.mp hcheck, Tally.zero_add, rolesRecorded, Tally.mk.injEq] at hcount
  obtain ⟨hleaves, howners, hbehind⟩ := hcount
  have hplayed := hunfolds.played hchained
  replace hcoheres : ∀ {id node}, tree.nodes.get? id = some node → tree.Coheres id node :=
    fun hnode => hcoheres _ ((Arena.mem_entries_iff hsound).mpr hnode)
  refine ⟨shape, hunfolds, ?_, ?_, ?_, ?_, ?_, ?_, ?_, ?_⟩
  · rintro found rfl
    exact hplayed.leaves_nodup
  · rintro found rfl
    exact hplayed.owners_nodup
  · rintro found rfl
    obtain ⟨link, -, hfound⟩ := hunfolds
    obtain rfl := hfound.link_eq
    apply covered_of_hasAbove hfound
    intro id hid
    have hbranch := hplayed.used id hid
    obtain ⟨node, hnode⟩ := Option.isSome_iff_exists.mp (live_of_branch hbranch)
    rw [branch_layout hnode] at hbranch
    obtain ⟨slot, hslot⟩ := (hcoheres hnode).exists_slot hbranch
    refine ⟨hplayed.mem_leaves hsound hleaves.symm hnode hslot, fun other hother => ?_⟩
    rw [placement_layout hnode] at hother
    exact (hcoheres hnode).placed other hother hbranch
  · intro id node slot hnode hplacement
    exact mem_elim.mp (hplayed.mem_leaves hsound hleaves.symm hnode hplacement)
  · intro id node hnode hbranch
    exact mem_elim.mp (hplayed.mem_owners hsound howners.symm hnode hbranch)
  · intro id node hnode
    constructor
    · intro hplacement
      exact mem_elim.mp (hplayed.mem_chained hsound hbehind.symm hnode hplacement)
    · intro hmem
      exact (placement_layout hnode).symm.trans (hplayed.chained id (mem_elim.mpr hmem))
  · intro id node hnode hplacement
    exact (hcoheres hnode).detached hplacement
  · rw [← hlinked]
    cases shape with
    | none => rfl
    | some found =>
        rw [Option.map_some, Option.getD_some, found.members_perm.length_eq, List.length_append]
        rfl

/-- The inspection of the structure decides whether a tree is well formed, whatever
its arena holds. -/
theorem inspectStructure_run_eq_ok_iff (tree : Tree K V) (hsound : tree.nodes.Sound) :
    tree.inspectStructure.run = .ok (.ok ()) ↔ tree.WellFormed := by
  constructor
  · intro h
    exact formsWith_of_inspectStructure hsound h
  · rintro ⟨shape, h⟩
    exact (h.stands hsound).inspectStructure_eq

/-- Two nodes of one key in a ring and a third beside them, none of which was ever
inserted. -/
private def written : Tree Nat Unit where
  nodes := (((Arena.empty.add fun _ =>
      ⟨4, (), .placed (.under ⟨1, 0⟩ .left), none, ⟨⟨2, 0⟩, ⟨2, 0⟩⟩⟩).2.add fun id =>
      ⟨5, (), .placed (.under id .right), some ⟨.root, .leaf ⟨0, 0⟩, .leaf id, 1⟩, .alone id⟩).2.add
      fun _ => ⟨4, (), .chained, none, ⟨⟨0, 0⟩, ⟨0, 0⟩⟩⟩).2
  root := some (.branch ⟨1, 0⟩)
  unique := false
  linked := 3

/-- The same nodes, but the ring is open behind its last member. -/
private def overwritten : Tree Nat Unit :=
  { written with
    nodes := written.nodes.modify ⟨2, 0⟩ fun node => { node with ring := ⟨⟨2, 0⟩, ⟨0, 0⟩⟩ } }

theorem inspectStructure_run_eq_ok_iff_written :
    (written.nodes.Sound ∧ written.WellFormed) ∧
      (overwritten.nodes.Sound ∧ ¬ overwritten.WellFormed) := by
  have hsound : written.nodes.Sound := by
    dsimp only [written]
    exact ((Arena.sound_empty.add (.inr (by decide)) _).add (.inr (by decide)) _).add
      (.inr (by decide)) _
  have hsound' : overwritten.nodes.Sound := hsound.modify _
  refine ⟨⟨hsound, ?_⟩, hsound', ?_⟩
  · exact (inspectStructure_run_eq_ok_iff written hsound).mp (by decide +kernel)
  · rw [← inspectStructure_run_eq_ok_iff overwritten hsound']
    decide +kernel

end Tree

end ElasticTree
