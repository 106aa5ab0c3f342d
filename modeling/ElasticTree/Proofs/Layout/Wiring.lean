import ElasticTree.Proofs.Layout.Basic
import ElasticTree.Proofs.Shape.Context

/-!
# Layouts that carry out a list of roles

A layout `Wires` a list of roles if its edges are those of the list and no
others.  Each edge is found in its slot and recorded at its other end, and each
branch in use has the split of its role.

A change of a tree rewires a few roles and leaves all the rest alone.
`Wires.edit` says what has to be seen of the layout afterwards: how it answers
on the roles that went and on those that came, and that it answers as before
everywhere else.
-/

namespace ElasticTree

/-! ## Partial functions given by a list -/

/-- The partial function has the values that the list of pairs gives. -/
def IsGraph {α β : Type} (function : α → Option β) (pairs : List (α × β)) : Prop :=
  ∀ a b, function a = some b ↔ (a, b) ∈ pairs

/-- The second function has the new values where the first had the old ones, and
agrees with it elsewhere.  The arguments of the new values are among those of
the old ones, or the first function had no value there. -/
structure Edits {α β : Type} (function function' : α → Option β) (old new : List (α × β)) :
    Prop where
  fresh : ∀ a ∈ new.map Prod.fst, a ∈ old.map Prod.fst ∨ function a = none
  fill : ∀ pair ∈ new, function' pair.1 = some pair.2
  gone : ∀ a ∈ old.map Prod.fst, a ∉ new.map Prod.fst → function' a = none
  keep : ∀ a, a ∉ old.map Prod.fst → a ∉ new.map Prod.fst → function' a = function a

namespace IsGraph

variable {α β : Type} {function function' : α → Option β} {pairs old new rest : List (α × β)}

theorem perm (h : IsGraph function pairs) (hperm : pairs.Perm new) : IsGraph function new :=
  fun a b => (h a b).trans hperm.mem_iff

theorem eq_some (h : IsGraph function pairs) {a : α} {b : β} (hmem : (a, b) ∈ pairs) :
    function a = some b :=
  (h a b).mpr hmem

/-- A partial function is what its pairs say. -/
theorem function_eq (h : IsGraph function pairs) (h' : IsGraph function' pairs) :
    function = function' :=
  funext fun a => Option.ext fun b => (h a b).trans (h' a b).symm

/-- The pairs are values of the function, and it has no others. -/
theorem of_domain (hpairs : ∀ pair ∈ pairs, function pair.1 = some pair.2)
    (hdomain : ∀ a, function a ≠ none → a ∈ pairs.map Prod.fst) : IsGraph function pairs := by
  intro a b
  constructor
  · intro hsome
    obtain ⟨⟨a', b'⟩, hpair, rfl⟩ := List.mem_map.mp (hdomain a (by simp [hsome]))
    obtain rfl : b' = b := Option.some.inj ((hpairs _ hpair).symm.trans hsome)
    exact hpair
  · intro hmem
    exact hpairs _ hmem

theorem eq_none_iff (h : IsGraph function pairs) {a : α} :
    function a = none ↔ a ∉ pairs.map Prod.fst := by
  rw [Option.eq_none_iff_forall_ne_some]
  constructor
  · intro hnone hmem
    obtain ⟨⟨a', b⟩, hpair, rfl⟩ := List.mem_map.mp hmem
    exact hnone b (h.eq_some hpair)
  · intro hmem b hsome
    exact hmem (List.mem_map.mpr ⟨(a, b), (h a b).mp hsome, rfl⟩)

/-- Some pairs are replaced by others, with arguments that were free or have
become so. -/
theorem edit (h : IsGraph function (old ++ rest))
    (hold : ∀ a ∈ old.map Prod.fst, a ∉ rest.map Prod.fst)
    (hedits : Edits function function' old new) : IsGraph function' (new ++ rest) := by
  have hdisjoint : ∀ a ∈ new.map Prod.fst, a ∉ rest.map Prod.fst := by
    intro a ha hrest
    rcases hedits.fresh a ha with hmem | hnone
    · exact hold a hmem hrest
    · rw [h.eq_none_iff, List.map_append] at hnone
      exact hnone (List.mem_append_right _ hrest)
  intro a b
  rw [List.mem_append]
  -- an argument is among the new ones, or only among the old ones, or was left alone
  by_cases hin : a ∈ new.map Prod.fst
  · obtain ⟨⟨a', b'⟩, hpair, rfl⟩ := List.mem_map.mp hin
    have hvalue := hedits.fill _ hpair
    constructor
    · intro hsome
      rw [hvalue, Option.some.injEq] at hsome
      exact .inl (hsome ▸ hpair)
    · rintro (hmem | hmem)
      · exact hedits.fill _ hmem
      · exact absurd (List.mem_map.mpr ⟨_, hmem, rfl⟩) (hdisjoint _ hin)
  · by_cases hout : a ∈ old.map Prod.fst
    · rw [hedits.gone a hout hin]
      constructor
      · intro hsome
        exact absurd hsome (by simp)
      · rintro (hmem | hmem)
        · exact absurd (List.mem_map.mpr ⟨_, hmem, rfl⟩) hin
        · exact absurd (List.mem_map.mpr ⟨_, hmem, rfl⟩) (hold a hout)
    · rw [hedits.keep a hout hin, h a b, List.mem_append]
      constructor
      · rintro (hmem | hmem)
        · exact absurd (List.mem_map.mpr ⟨_, hmem, rfl⟩) hout
        · exact .inr hmem
      · rintro (hmem | hmem)
        · exact absurd (List.mem_map.mpr ⟨_, hmem, rfl⟩) hin
        · exact .inr hmem

end IsGraph

/-! ## Wired layouts -/

namespace Shape

namespace Role

/-- The edge read from its lower end. -/
def backWire (role : Role) : Link × Position := (role.wire.2, role.wire.1)

/-- The owner with its split, if a branch is meant. -/
def forks : Role → List (NodeId × Int)
  | leaf _ _ _ => []
  | branch _ owner split => [(owner, split)]

@[simp] theorem backWire_leaf (position : Position) (head : NodeId) (behind : List NodeId) :
    (leaf position head behind).backWire = (.leaf head, position) := rfl

@[simp] theorem backWire_branch (position : Position) (owner : NodeId) (split : Int) :
    (branch position owner split).backWire = (.branch owner, position) := rfl

@[simp] theorem forks_leaf (position : Position) (head : NodeId) (behind : List NodeId) :
    (leaf position head behind).forks = [] := rfl

@[simp] theorem forks_branch (position : Position) (owner : NodeId) (split : Int) :
    (branch position owner split).forks = [(owner, split)] := rfl

end Role

@[simp] theorem backWire_role (position : Position) (shape : Shape) :
    (shape.role position).backWire = (shape.link, position) := by
  cases shape <;> rfl

theorem link_of_mem_forks {position : Position} {shape : Shape} {fork : NodeId × Int}
    (h : fork ∈ (shape.role position).forks) : shape.link = .branch fork.1 := by
  cases shape with
  | leaf head behind => simp [role] at h
  | branch owner split left right =>
      simp only [role, Role.forks_branch, List.mem_singleton] at h
      rw [h]
      rfl

/-- The split of a branch does not depend on where it hangs. -/
theorem forks_role (first second : Position) (shape : Shape) :
    (shape.role first).forks = (shape.role second).forks := by
  cases shape <;> rfl

end Shape

open Shape

namespace Layout

/-- The edges and splits of the layout are those of the roles. -/
structure Wires (layout : Layout) (roles : List Role) : Prop where
  slot : IsGraph layout.slot? (roles.map Role.wire)
  seat : IsGraph layout.seat? (roles.map Role.backWire)
  fork : IsGraph layout.split? (roles.flatMap Role.forks)
  links_nodup : (roles.map fun role => role.wire.2).Nodup

namespace Wires

variable {layout layout' : Layout} {roles old new rest : List Role}

theorem perm (h : layout.Wires roles) (hperm : roles.Perm new) : layout.Wires new where
  slot := h.slot.perm (hperm.map _)
  seat := h.seat.perm (hperm.map _)
  fork := h.fork.perm (hperm.flatMap_right _)
  links_nodup := (hperm.map _).nodup_iff.mp h.links_nodup

theorem slot_of_mem (h : layout.Wires roles) (role : Role) (hrole : role ∈ roles) :
    layout.slot? role.wire.1 = some role.wire.2 :=
  h.slot.eq_some (List.mem_map.mpr ⟨role, hrole, rfl⟩)

theorem seat_of_mem (h : layout.Wires roles) (role : Role) (hrole : role ∈ roles) :
    layout.seat? role.wire.2 = some role.wire.1 :=
  h.seat.eq_some (List.mem_map.mpr ⟨role, hrole, rfl⟩)

/-- The wiring is what the slots, the seats and the splits say. -/
theorem congr (h : layout.Wires roles)
    (hslot : ∀ position, layout'.slot? position = layout.slot? position)
    (hseat : ∀ link, layout'.seat? link = layout.seat? link)
    (hsplit : ∀ owner, layout'.split? owner = layout.split? owner) : layout'.Wires roles where
  slot := funext hslot ▸ h.slot
  seat := funext hseat ▸ h.seat
  fork := funext hsplit ▸ h.fork
  links_nodup := h.links_nodup

/-- What is chained behind a leaf has no part in the wiring. -/
theorem behind {position : Position} {head : NodeId} {before after : List NodeId}
    (h : layout.Wires (.leaf position head before :: rest)) :
    layout.Wires (.leaf position head after :: rest) :=
  ⟨h.slot, h.seat, h.fork, h.links_nodup⟩

/-- The owners of the branches are distinct, since their links are. -/
theorem owners_nodup (h : layout.Wires roles) : (roles.flatMap Role.owners).Nodup := by
  have hlinks := h.links_nodup
  clear h
  induction roles with
  | nil => simp
  | cons role roles ih =>
      rw [List.map_cons, List.nodup_cons] at hlinks
      cases role with
      | leaf position head behind => simpa [Role.owners] using ih hlinks.2
      | branch position owner split =>
          rw [List.flatMap_cons]
          refine List.nodup_append.mpr ⟨by simp [Role.owners], ih hlinks.2, ?_⟩
          rintro id hid other hother rfl
          rw [Role.owners, List.mem_singleton] at hid
          subst hid
          obtain ⟨role, hrole, hmem⟩ := List.mem_flatMap.mp hother
          cases role with
          | leaf position head behind => simp [Role.owners] at hmem
          | branch slot owner split =>
              rw [Role.owners, List.mem_singleton] at hmem
              subst hmem
              exact hlinks.1 (List.mem_map.mpr ⟨_, hrole, rfl⟩)

theorem branch_eq_none_iff (h : layout.Wires roles) (owner : NodeId) :
    layout.branch owner = none ↔ owner ∉ roles.flatMap Role.owners := by
  rw [← not_iff_not, ← ne_eq, branch_ne_none_iff, ne_eq, h.fork.eq_none_iff, not_not, not_not]
  constructor
  · intro hmem
    obtain ⟨⟨id, split⟩, hpair, rfl⟩ := List.mem_map.mp hmem
    obtain ⟨role, hrole, hfork⟩ := List.mem_flatMap.mp hpair
    refine List.mem_flatMap.mpr ⟨role, hrole, ?_⟩
    cases role <;> simp_all [Role.forks, Role.owners]
  · intro hmem
    obtain ⟨role, hrole, howner⟩ := List.mem_flatMap.mp hmem
    cases role with
    | leaf position head behind => simp [Role.owners] at howner
    | branch position id split =>
        rw [Role.owners, List.mem_singleton] at howner
        subst howner
        exact List.mem_map.mpr ⟨(owner, split),
          List.mem_flatMap.mpr ⟨_, hrole, by simp [Role.forks]⟩, rfl⟩

/-- A slot is met in one role only. -/
private theorem positions_apart (h : layout.Wires (old ++ rest)) :
    ∀ position ∈ (old.map Role.wire).map Prod.fst,
      position ∉ (rest.map Role.wire).map Prod.fst := by
  intro position hold hrest
  simp only [List.map_map, List.mem_map, Function.comp_apply] at hold hrest
  obtain ⟨role, hrole, rfl⟩ := hold
  obtain ⟨role', hrole', hposition⟩ := hrest
  -- two roles of one slot would be found in it with two links, and the links are distinct
  have hfirst := h.slot.eq_some (a := role.wire.1) (b := role.wire.2)
    (List.mem_map.mpr ⟨role, List.mem_append_left _ hrole, rfl⟩)
  have hsecond := h.slot.eq_some (a := role.wire.1) (b := role'.wire.2)
    (List.mem_map.mpr ⟨role', List.mem_append_right _ hrole', by rw [← hposition]⟩)
  rw [hfirst, Option.some.injEq] at hsecond
  have hlinks := h.links_nodup
  rw [List.map_append] at hlinks
  exact (List.nodup_append.mp hlinks).2.2 _ (List.mem_map.mpr ⟨role, hrole, rfl⟩) _
    (List.mem_map.mpr ⟨role', hrole', rfl⟩) hsecond

private theorem links_apart (h : layout.Wires (old ++ rest)) :
    ∀ link ∈ (old.map Role.backWire).map Prod.fst,
      link ∉ (rest.map Role.backWire).map Prod.fst := by
  intro link hold hrest
  have hlinks := h.links_nodup
  rw [List.map_append] at hlinks
  simp only [List.map_map] at hold hrest
  exact (List.nodup_append.mp hlinks).2.2 link hold link hrest rfl

private theorem forks_apart (h : layout.Wires (old ++ rest)) :
    ∀ owner ∈ (old.flatMap Role.forks).map Prod.fst,
      owner ∉ (rest.flatMap Role.forks).map Prod.fst := by
  have hforks : ∀ roles : List Role,
      (roles.flatMap Role.forks).map Prod.fst = roles.flatMap Role.owners := by
    intro roles
    rw [List.map_flatMap]
    congr 1
    funext role
    cases role <;> rfl
  intro owner hold hrest
  have howners := h.owners_nodup
  rw [List.flatMap_append] at howners
  rw [hforks] at hold hrest
  exact (List.nodup_append.mp howners).2.2 owner hold owner hrest rfl

/-- A link that no role records is not met. -/
theorem link_not_mem (h : layout.Wires roles) {link : Link} (hlink : layout.seat? link = none) :
    link ∉ roles.map fun role => role.wire.2 := by
  rw [h.seat.eq_none_iff, List.map_map] at hlink
  exact hlink

/-- Some roles are replaced by others. -/
theorem edit (old new : List Role) (h : layout.Wires (old ++ rest))
    (hnodup : ((new ++ rest).map fun role => role.wire.2).Nodup)
    (hslot : Edits layout.slot? layout'.slot? (old.map Role.wire) (new.map Role.wire))
    (hseat : Edits layout.seat? layout'.seat? (old.map Role.backWire) (new.map Role.backWire))
    (hfork : Edits layout.split? layout'.split? (old.flatMap Role.forks)
      (new.flatMap Role.forks)) :
    layout'.Wires (new ++ rest) where
  slot := by
    have hgraph := h.slot
    rw [List.map_append] at hgraph ⊢
    exact hgraph.edit h.positions_apart hslot
  seat := by
    have hgraph := h.seat
    rw [List.map_append] at hgraph ⊢
    exact hgraph.edit h.links_apart hseat
  fork := by
    have hgraph := h.fork
    rw [List.flatMap_append] at hgraph ⊢
    exact hgraph.edit h.forks_apart hfork
  links_nodup := hnodup

end Wires

end Layout

end ElasticTree
