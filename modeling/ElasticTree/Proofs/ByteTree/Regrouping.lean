import ElasticTree.Proofs.ByteTree.Growth
import ElasticTree.Proofs.Shape.Restriction

/-!
# What becomes of a group

Nodes come to a group and go from it one by one, and whoever owns its branches may change
at any time.  `Regroups` says that this is all there is, and counts the nodes that came.

If nodes only come, the group grows as a binary counter does.  If they go as well, the splits
do not follow: a branch that is left keeps the split it has, so the group counts on from
where it was.  The `weight` of a group is the number of nodes that it takes for a group that
only grew to have the right edge it has.  It rises by one with every node that comes, and it
never rises otherwise (`Regroups.rising`).  The topmost split says how often the weight can be
halved (`Rising.top_le`), so the depth of a group is logarithmic in the number of nodes that
ever came to it, but need not be in the number of those that are left.
-/

namespace ElasticTree

namespace Shape

/-- From one group to another there is a way in small steps: the owners of the branches
change, or some nodes go, provided that this is possible at all, or a node comes.  So many
nodes come. -/
inductive Regroups (thins : Prop) : Nat → Option Shape → Option Shape → Prop where
  | kept (group : Option Shape) (old new : NodeId) :
      Regroups thins 0 group (group.map (reown old new))
  | thinned (possible : thins) (group : Option Shape) (keep : NodeId → Bool) :
      Regroups thins 0 group (group.bind (restrict keep))
  | started (id : NodeId) : Regroups thins 1 none (some (leaf id []))
  | grown {id : NodeId} {group group' : Shape} (grows : Grows id none group group') :
      Regroups thins 1 (some group) (some group')
  | trans {coming coming' : Nat} {group middle group' : Option Shape}
      (first : Regroups thins coming group middle) (second : Regroups thins coming' middle group') :
      Regroups thins (coming + coming') group group'

/-- The splits are negative and rise on the way down, from no less than `-limit`. -/
inductive Rising : Nat → Shape → Prop where
  | leaf (limit : Nat) (head : NodeId) : Rising limit (leaf head [])
  | branch {limit level : Nat} {left right : Shape} (owner : NodeId) (level_lt : level < limit)
      (left_rising : Rising level left) (right_rising : Rising level right) :
      Rising limit (branch owner (-(level + 1 : Nat)) left right)

/-- How many nodes it takes for a group that only grew to have such a right edge. -/
def weight : Shape → Nat
  | leaf _ _ => 1
  | branch _ split _ right => 2 ^ (-split - 1).toNat + right.weight

variable {limit limit' level : Nat} {shape shape' : Shape} {id old new : NodeId} {thins : Prop}
  {coming : Nat} {group group' : Option Shape} {keep : NodeId → Bool}

namespace Regroups

theorem refl (group : Option Shape) : Regroups thins 0 group group := by
  have hkept : Regroups thins 0 group (group.map (reown ⟨0, 0⟩ ⟨0, 0⟩)) := .kept group ⟨0, 0⟩ ⟨0, 0⟩
  have hself : (reown ⟨0, 0⟩ ⟨0, 0⟩ : Shape → Shape) = fun found => found :=
    funext fun _ => reown_self
  rwa [hself, Option.map_id'] at hkept

theorem mono {thins' : Prop} (h : Regroups thins coming group group') (himp : thins → thins') :
    Regroups thins' coming group group' := by
  induction h with
  | kept group old new => exact .kept group old new
  | thinned possible group keep => exact .thinned (himp possible) group keep
  | started id => exact .started id
  | grown grows => exact .grown grows
  | trans _ _ ih ih' => exact ih.trans ih'

/-- Where no node goes, a group that only ever grew is one still. -/
theorem grown_of_not (h : Regroups thins coming group group') (hnot : ¬ thins)
    (hgrown : ∀ found ∈ group, ∃ level, Grown level found) :
    ∀ found ∈ group', ∃ level, Grown level found := by
  induction h with
  | kept group old new =>
      intro found hfound
      obtain ⟨before, hbefore, rfl⟩ := Option.map_eq_some_iff.mp hfound
      obtain ⟨level, hlevel⟩ := hgrown before hbefore
      exact ⟨level, Grown.reown_iff.mpr hlevel⟩
  | thinned possible => exact absurd possible hnot
  | started id =>
      rintro found ⟨⟩
      exact ⟨0, .leaf id⟩
  | grown grows =>
      obtain ⟨level, hlevel⟩ := hgrown _ rfl
      obtain ⟨level', hlevel', -⟩ := hlevel.grows grows
      rintro found ⟨⟩
      exact ⟨level', hlevel'⟩
  | trans _ _ ih ih' => exact ih' (ih hgrown)

/-! ### What is left for the nodes of a group -/

/-- A node that comes and is left out does not show. -/
theorem of_adds {before : Option Shape} (hadds : Adds id before shape) (hid : keep id = false) :
    Regroups thins 0 (before.bind (restrict keep)) (shape.restrict keep) := by
  rw [hadds.restrict hid]
  exact refl _

/-- The first node of the group is one by itself. -/
theorem of_first {before : Option Shape} (hadds : Adds id before shape) (hid : keep id = true)
    (hothers : ∀ other ∈ before.elim [] members, keep other = false) :
    Regroups thins 1 (before.bind (restrict keep)) (shape.restrict keep) := by
  have hnone : before.bind (restrict keep) = none := by
    cases before with
    | none => rfl
    | some found => exact restrict_eq_none hothers
  obtain ⟨front, back, hbefore, hmembers⟩ := hadds.members
  rw [hbefore, List.forall_mem_append] at hothers
  have hsingle : shape.members.filter keep = [id] := by
    rw [hmembers, List.filter_append, List.filter_cons_of_pos hid,
      List.filter_eq_nil_iff.mpr (by simpa using hothers.1),
      List.filter_eq_nil_iff.mpr (by simpa using hothers.2), List.nil_append]
  rw [hnone, restrict_eq_leaf hsingle]
  exact .started id

/-- Where all nodes of the group hang together, a new one makes it grow. -/
theorem of_grows {context : Context} {hole hole' : Shape} (hgrows : Grows id none hole hole')
    (hkept : ∀ known ∈ hole.members, keep known = true)
    (hapart : ∀ other ∈ context.before ++ context.after, keep other = false)
    (hid : keep id = true) :
    Regroups thins 1 ((context.plug hole).restrict keep) ((context.plug hole').restrict keep) := by
  have hall : ∀ known ∈ hole'.members, keep known = true := by
    rw [hgrows.members_eq, List.forall_mem_append]
    exact ⟨hkept, by simpa using hid⟩
  rw [restrict_plug hapart, restrict_eq_self hkept, restrict_plug hapart, restrict_eq_self hall]
  exact .grown hgrows

/-- When a node goes, the group may lose it, and then some branches get other owners. -/
theorem of_removes {after : Option Shape} (hremoves : Removes id shape after)
    (hgone : id ∉ after.elim [] members) (hpossible : keep id = true → thins) :
    Regroups thins 0 (shape.restrict keep) (after.bind (restrict keep)) := by
  by_cases hid : keep id = true
  · -- the node is left out first, and so its going does not show
    obtain ⟨old, new, hrestrict⟩ : ∃ old new,
        after.bind (restrict fun other => keep other && decide (other ≠ id)) =
          (shape.restrict fun other => keep other && decide (other ≠ id)).map (reown old new) :=
      hremoves.restrict (by simp)
    have hsame : after.bind (restrict keep) =
        after.bind (restrict fun other => keep other && decide (other ≠ id)) := by
      cases after with
      | none => rfl
      | some found =>
          refine restrict_congr fun other hother => ?_
          have hne : other ≠ id := fun heq => hgone (heq ▸ hother)
          simp [hne]
    rw [hsame, hrestrict, ← restrict_restrict]
    exact .trans (.thinned (hpossible hid) _ _) (.kept _ old new)
  · obtain ⟨old, new, hrestrict⟩ := hremoves.restrict (Bool.eq_false_iff.mpr hid)
    rw [hrestrict]
    exact .kept _ old new

/-- All nodes may go at once. -/
theorem of_none (hpossible : thins) (group : Option Shape) : Regroups thins 0 group none := by
  have hnone : group.bind (restrict fun _ => false) = none := by
    cases group with
    | none => rfl
    | some found => exact restrict_eq_none fun _ _ => rfl
  rw [← hnone]
  exact .thinned hpossible group _

end Regroups

/-! ## Levels and weights -/

@[simp] theorem weight_reown : (shape.reown old new).weight = shape.weight := by
  induction shape with
  | leaf head behind => rfl
  | branch owner split left right _ hright => rw [reown, weight, weight, hright]

theorem weight_branch (owner : NodeId) (level : Nat) (left right : Shape) :
    (branch owner (-(level + 1 : Nat)) left right).weight = 2 ^ level + right.weight := by
  have hlevel : (-(-((level + 1 : Nat) : Int)) - 1).toNat = level := by omega
  rw [weight, hlevel]

theorem weight_pos (shape : Shape) : 0 < shape.weight := by
  cases shape with
  | leaf head behind => exact Nat.one_pos
  | branch owner split left right => exact Nat.add_pos_left (Nat.two_pow_pos _) _

namespace Rising

theorem mono (h : Rising limit shape) (hle : limit ≤ limit') : Rising limit' shape := by
  cases h with
  | leaf _ head => exact .leaf limit' head
  | branch owner hlevel hleft hright => exact .branch owner (by omega) hleft hright

theorem reown (h : Rising limit shape) : Rising limit (shape.reown old new) := by
  induction h with
  | leaf limit head => exact .leaf limit head
  | branch owner hlevel _ _ hleft hright => exact .branch _ hlevel hleft hright

/-- What is below a branch weighs no more than the branch itself. -/
theorem weight_le (h : Rising limit shape) : shape.weight ≤ 2 ^ limit := by
  induction h with
  | leaf limit head => exact Nat.one_le_two_pow
  | @branch limit level left right owner hlevel _ _ _ hright =>
      calc (Shape.branch owner (-(level + 1 : Nat)) left right).weight
          = 2 ^ level + right.weight := weight_branch owner level left right
        _ ≤ 2 ^ level + 2 ^ level := Nat.add_le_add_left hright _
        _ = 2 ^ (level + 1) := by rw [Nat.pow_succ, Nat.mul_two]
        _ ≤ 2 ^ limit := Nat.pow_le_pow_right (by omega) hlevel

/-- Where no value is skipped any more, the right edge is full. -/
theorem weight_of_tight (h : Rising level shape)
    (htight : shape.Tight (-((level + 1 : Nat) : Int))) : shape.weight = 2 ^ level := by
  induction h with
  | leaf level head =>
      obtain rfl : level = 0 := by
        rw [Tight] at htight
        omega
      rfl
  | @branch level below left right owner hbelow _ _ _ hright =>
      obtain ⟨hskip, htight⟩ := htight
      obtain rfl : level = below + 1 := by omega
      rw [weight_branch, hright htight, Nat.pow_succ, Nat.mul_two]

/-- A node that comes adds one to the weight, and the levels stay below that of the branch
above. -/
theorem grows (h : Rising limit shape) {above : Option Int} (hgrows : Grows id above shape shape') :
    shape'.weight = shape.weight + 1 ∧ ∃ limit', Rising limit' shape' ∧
      ∀ upper : Nat, above = some (-((upper + 1 : Nat) : Int)) → limit ≤ upper →
        limit' ≤ upper := by
  induction hgrows generalizing limit with
  | @lowest above head behind room =>
      cases h
      refine ⟨weight_branch id 0 (.leaf head []) (.leaf id []), 1,
        .branch id Nat.one_pos (.leaf 0 head) (.leaf 0 id), fun upper habove _ => ?_⟩
      have := room _ habove
      omega
  | @skipped above owner split left right room tight =>
      cases h with
      | @branch _ level _ _ _ hlevel hleft hright =>
          have hsplit : -((level + 1 : Nat) : Int) - 1 = -((level + 1 + 1 : Nat) : Int) := by omega
          have hfull := hright.weight_of_tight tight
          rw [hsplit]
          refine ⟨?_, level + 2, .branch id (Nat.lt_succ_self _)
            (.branch owner (Nat.lt_succ_self level) hleft hright) (.leaf _ id),
            fun upper habove _ => ?_⟩
          · rw [weight_branch, weight_branch, hfull, Nat.pow_succ, Nat.mul_two]
            rfl
          · have := room _ habove
            omega
  | @under above owner split left right right' hgrows ih =>
      cases h with
      | @branch _ level _ _ _ hlevel hleft hright =>
          obtain ⟨hweight, below, hrising, hbelow⟩ := ih hright
          refine ⟨?_, limit,
            .branch owner hlevel hleft (hrising.mono (hbelow level rfl (Nat.le_refl level))),
            fun _ _ hle => hle⟩
          rw [weight_branch, weight_branch, hweight, Nat.add_assoc]

/-- The nodes that are left weigh no more than all: a branch that goes is replaced by what is
below it. -/
theorem restrict (h : Rising limit shape) :
    ∀ found ∈ shape.restrict keep, Rising limit found ∧ found.weight ≤ shape.weight := by
  induction h with
  | leaf limit head =>
      intro found hfound
      rw [Shape.restrict, Option.mem_def] at hfound
      cases hkeep : keep head with
      | false => simp [hkeep, ofRing] at hfound
      | true =>
          obtain rfl : Shape.leaf head [] = found := by simpa [hkeep, ofRing] using hfound
          exact ⟨.leaf limit head, Nat.le_refl 1⟩
  | @branch limit level left right owner hlevel hleft_rising hright_rising hleft hright =>
      intro found hfound
      rw [Shape.restrict, Option.mem_def] at hfound
      rw [weight_branch]
      cases hleft_found : left.restrict keep with
      | none =>
          rw [hleft_found, join_none_left] at hfound
          obtain ⟨hrising, hweight⟩ := hright found hfound
          exact ⟨hrising.mono hlevel.le, hweight.trans (Nat.le_add_left _ _)⟩
      | some left' =>
          obtain ⟨hrising_left, hweight_left⟩ := hleft left' hleft_found
          cases hright_found : right.restrict keep with
          | none =>
              rw [hleft_found, hright_found, join_none_right] at hfound
              obtain rfl := Option.some.inj hfound
              have hpower := hleft_rising.weight_le
              exact ⟨hrising_left.mono hlevel.le, by omega⟩
          | some right' =>
              obtain ⟨hrising_right, hweight_right⟩ := hright right' hright_found
              rw [hleft_found, hright_found] at hfound
              obtain rfl := Option.some.inj hfound
              refine ⟨.branch owner hlevel hrising_left hrising_right, ?_⟩
              rw [weight_branch]
              omega

end Rising

/-! ## From one group to another -/

/-- Whatever comes and goes, the splits rise on the way down, and each node that comes adds
one to the weight at most. -/
theorem Regroups.rising (h : Regroups thins coming group group')
    (hrising : ∀ found ∈ group, ∃ limit, Rising limit found) :
    ∀ found ∈ group', (∃ limit, Rising limit found) ∧
      found.weight ≤ group.elim 0 weight + coming := by
  induction h with
  | kept group old new =>
      intro found hfound
      obtain ⟨before, rfl, rfl⟩ := Option.map_eq_some_iff.mp hfound
      obtain ⟨limit, hlimit⟩ := hrising before rfl
      exact ⟨⟨limit, hlimit.reown⟩, by rw [weight_reown, Option.elim_some, Nat.add_zero]⟩
  | thinned _ group keep =>
      intro found hfound
      obtain ⟨before, rfl, hfound⟩ := Option.bind_eq_some_iff.mp hfound
      obtain ⟨limit, hlimit⟩ := hrising before rfl
      obtain ⟨hfound_rising, hweight⟩ := hlimit.restrict found hfound
      exact ⟨⟨limit, hfound_rising⟩, hweight⟩
  | started id =>
      rintro found ⟨⟩
      exact ⟨⟨0, .leaf 0 id⟩, Nat.le_refl 1⟩
  | grown grows =>
      obtain ⟨limit, hlimit⟩ := hrising _ rfl
      obtain ⟨hweight, limit', hlimit', -⟩ := hlimit.grows grows
      rintro found ⟨⟩
      exact ⟨⟨limit', hlimit'⟩, hweight.le⟩
  | @trans coming coming' group middle group' _ _ ih ih' =>
      intro found hfound
      have hmiddle := ih hrising
      obtain ⟨hfound_rising, hweight⟩ :=
        ih' (fun found hfound => (hmiddle found hfound).1) found hfound
      refine ⟨hfound_rising, hweight.trans ?_⟩
      cases middle with
      | none => rw [Option.elim_none]; omega
      | some found =>
          have := (hmiddle found rfl).2
          rw [Option.elim_some]
          omega

/-- The split of the topmost branch says no more than how often the weight can be halved. -/
theorem Rising.top_le (h : Rising limit shape) :
    ∀ split ∈ shape.top?, -(Nat.clog 2 shape.weight : Int) ≤ split := by
  cases h with
  | leaf limit head => simp [top?]
  | @branch limit level left right owner hlevel hleft hright =>
      rintro split ⟨⟩
      have hpos := right.weight_pos
      have hlt : level <
          Nat.clog 2 (Shape.branch owner (-(level + 1 : Nat)) left right).weight := by
        rw [weight_branch, Nat.lt_clog_iff_pow_lt (by omega)]
        omega
      omega

end Shape

end ElasticTree
