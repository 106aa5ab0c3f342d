import ElasticTree.Proofs.Tree.Descending
import ElasticTree.Proofs.WordTree.Keys
import ElasticTree.WordTree.Basic

/-!
# Inserting words

The way down for a word compares it with the owners of the branches it meets.
Since the keys below a branch all agree from its split up, the owner speaks for
them, whichever node it is.  The invariant of the way down is that the word
follows the way for every key that lies in the hole (`Lands`).  What it meets at
a branch is the same for insertions and for searches (`Forks`).
-/

namespace ElasticTree

open Shape

namespace WordTree

variable {width : Nat} {V : Type} {tree : WordTree width V} {id : NodeId} {key : BitVec width}

/-- The words of a tree by the names of their nodes. -/
abbrev wordOf (tree : WordTree width V) : NodeId → BitVec width := tree.rank fun word => word

/-- The way down for the key ends where it belongs. -/
inductive Lands (tree : WordTree width V) (shape : Shape) (key : BitVec width) :
    Landing → Prop where
  | held (context : Context) (leaf : NodeId) (behind : List NodeId)
      (shape_eq : shape = context.plug (.leaf leaf behind)) (key_eq : wordOf tree leaf = key)
      (follows : Follows (Word.discipline width) context key key) :
      Lands tree shape key (.held leaf)
  | above (context : Context) (hole : Shape) (shape_eq : shape = context.plug hole)
      (follows : Follows (Word.discipline width) context key (wordOf tree hole.link.node))
      (mem : hole.link.node ∈ hole.members) (ne : key ≠ wordOf tree hole.link.node)
      (parts : ∀ top ∈ hole.top?, ¬ Word.AgreeFrom top key (wordOf tree hole.link.node)) :
      Lands tree shape key (.above context.position hole.link)

/-- What comparing the key with the owner of a branch leads to: it parts from all that
lies below, or its way goes on into one of the two sides. -/
inductive Forks (tree : WordTree width V) (key : BitVec width) (context : Context) (owner : NodeId)
    (split : Int) (left right : Shape) : Prop where
  | parts (diverge_eq : Word.diverge key (wordOf tree owner) split = .ok true)
      (not_agrees : ¬ Word.AgreeFrom split key (wordOf tree owner)) :
      Forks tree key context owner split left right
  | left (diverge_eq : Word.diverge key (wordOf tree owner) split = .ok false)
      (side_eq : Word.sideOf key split = .ok .left)
      (into : tree.Descends (Word.discipline width) (fun word => word) key
        (⟨owner, split, .left, right⟩ :: context) left) :
      Forks tree key context owner split left right
  | right (diverge_eq : Word.diverge key (wordOf tree owner) split = .ok false)
      (side_eq : Word.sideOf key split = .ok .right)
      (into : tree.Descends (Word.discipline width) (fun word => word) key
        (⟨owner, split, .right, left⟩ :: context) right) :
      Forks tree key context owner split left right

theorem forks {context : Context} {owner : NodeId} {split : Int} {left right : Shape}
    (h : tree.Descends (Word.discipline width) (fun word => word) key context
      (.branch owner split left right)) : Forks tree key context owner split left right := by
  have hadmits : 1 ≤ split ∧ split ≤ width := h.admits
  have hsplit : 0 ≤ split := by omega
  by_cases hagree : Word.AgreeFrom split key (wordOf tree owner)
  · have hdiverge := (Word.diverge_eq_false_iff hsplit).mpr hagree
    obtain ⟨side, hside, hbelongs⟩ := Word.sideOf_eq hadmits key
    cases side with
    | left => exact .left hdiverge hside (h.into_left hagree hbelongs)
    | right => exact .right hdiverge hside (h.into_right hagree hbelongs)
  · exact .parts ((Word.diverge_eq_true_iff hsplit).mpr hagree) hagree

private theorem landWithin_lands (context : Context) {hole : Shape} {limit : Nat}
    (h : tree.Descends (Word.discipline width) (fun word => word) key context hole)
    (hlimit : hole.height ≤ limit) :
    ∃ landing, tree.landWithin key limit context.position hole.link = .ok landing ∧
      Lands tree (context.plug hole) key landing := by
  -- every call is one frame further down, and the hole becomes one of its parts
  induction hole generalizing context limit with
  | leaf head behind =>
      obtain ⟨node, hnode, hkey⟩ := h.stands.exists_node_below (fun word => word) List.mem_cons_self
      have hfollows := h.follows head List.mem_cons_self
      rw [Shape.link, landWithin, hnode]
      show ∃ landing, (if node.key = key then pure (Landing.held head) else
        pure (Landing.above context.position (.leaf head))) = Except.ok landing ∧ _
      rw [hkey]
      by_cases heq : wordOf tree head = key
      · rw [if_pos heq]
        exact ⟨_, rfl, .held context head behind rfl heq (heq ▸ hfollows)⟩
      · rw [if_neg heq]
        refine ⟨_, rfl, .above context (.leaf head behind) rfl hfollows List.mem_cons_self
          (Ne.symm heq) ?_⟩
        simp [top?]
  | branch owner split left right hleft hright =>
      obtain ⟨node, hnode, hkey⟩ := h.stands.exists_node_below (fun word => word) h.owner_mem
      rw [Shape.height] at hlimit
      obtain ⟨limit, rfl⟩ : ∃ rest, limit = rest + 1 := ⟨limit - 1, by omega⟩
      rw [Shape.link, landWithin, h.stands.branch_eq]
      simp only [bind, Except.bind, hnode, hkey]
      cases forks h with
      | parts hdiverge hnot =>
          rw [hdiverge]
          refine ⟨_, rfl, .above context (.branch owner split left right) rfl
            (h.follows owner h.owner_mem) h.owner_mem ?_ ?_⟩
          · rintro rfl
            exact hnot ((Word.discipline width).agrees_refl split _)
          · intro top htop
            rw [top?, Option.mem_some_iff] at htop
            exact htop ▸ hnot
      | left hdiverge hside hinto =>
          rw [hdiverge, hside]
          exact hleft _ hinto (by omega)
      | right hdiverge hside hinto =>
          rw [hdiverge, hside]
          exact hright _ hinto (by omega)

theorem land_lands {shape : Shape} (h : tree.Stands (some shape))
    (hobeys : shape.Obeys (Word.discipline width) (wordOf tree)) (key : BitVec width) :
    ∃ landing, tree.land key shape.link = .ok landing ∧ Lands tree shape key landing :=
  landWithin_lands [] (.root h hobeys key) h.height_lt.le

/-! ## Insertion -/

theorem plain {context : Context} {hole : Shape}
    (hobeys : (context.plug hole).Obeys (Word.discipline width) (wordOf tree)) : context.Plain := by
  intro frame hframe
  have hadmits := (obeys_plug_iff.mp hobeys).2.admits frame hframe
  exact Int.le_trans (by omega) hadmits.1

/-- Inserting a detached node links it where its word belongs, or finds the word
in a unique tree. -/
theorem insert_insertsInto {shape : Option Shape} {node : Node (BitVec width) V}
    (hwidth : width < 2 ^ 31) (h : tree.Stands shape)
    (hobeys : ∀ found ∈ shape, found.Obeys (Word.discipline width) (wordOf tree))
    (hnode : tree.nodes.get? id = some node) (hid : id ∉ shape.elim [] Shape.members) :
    Tree.InsertsInto (Word.discipline width) (fun word => word) tree shape id
      (WordTree.insert tree id) := by
  have hlive : tree.nodes.Live id := by simp [Arena.Live, hnode]
  have hkey : node.key = wordOf tree id := (Tree.rank_of_get? (fun word => word) hnode).symm
  have hdetached := h.placement_eq_detached_iff.mpr hid
  have hroot := h.root_eq
  unfold WordTree.insert
  rw [h.expectDetached_of_not_mem hnode hid]
  cases shape with
  | none =>
      obtain ⟨after, hafter, hinserts⟩ := h.insertsInto_first (Word.discipline width)
        (fun word => word) hlive
      simp only [hroot, Option.map_none, hafter]
      exact hinserts
  | some shape =>
      obtain ⟨landing, hlanding, hlands⟩ := land_lands h (hobeys shape rfl) node.key
      simp only [hroot, Option.map_some, hlanding, bind, Except.bind]
      cases hlands with
      | held context leaf behind hshape hleaf hfollows =>
          subst hshape
          have hobeys := hobeys _ rfl
          have hcontext := (obeys_plug_iff.mp hobeys).2
          rw [hkey] at hleaf hfollows
          have hknown : wordOf tree id ∈ (Shape.leaf leaf behind).keys (wordOf tree) :=
            mem_keys_iff.mpr ⟨leaf, List.mem_cons_self, hleaf⟩
          cases hunique : tree.unique with
          | true =>
              refine .held leaf context.before (behind ++ context.after) hunique ?_ hleaf
                (hcontext.lt_before hknown hfollows (plain hobeys))
              simp [members_plug, Shape.members]
          | false =>
              obtain ⟨after, hafter, hinserts⟩ := h.insertsInto_chain hobeys hlive hdetached
                (plain hobeys) hleaf trivial hunique
              simp only [Bool.false_eq_true, if_false, hafter]
              exact hinserts
      | above context hole hshape hfollows hmem hne hparts =>
          subst hshape
          have hobeys := hobeys _ rfl
          rw [hkey] at hfollows hne hparts
          obtain ⟨old, hold, hold_key⟩ := h.exists_node_below (fun word => word) hmem
          have hbelongs := Word.belongsOn_splitOf hne
          obtain ⟨after, hafter, hinserts⟩ :=
            h.insertsInto_above hobeys hlive hdetached (plain hobeys)
              (List.mem_map_of_mem hmem) hfollows
              ⟨Word.admits_splitOf hne, Word.splitOf_nonneg, Word.agreeFrom_splitOf, hbelongs.1,
                hbelongs.2, hparts⟩ (by have := (Word.admits_splitOf hne).2; omega)
          simp only [linkAbove, hold, bind, Except.bind, hold_key, hkey, hafter]
          exact hinserts

end WordTree

end ElasticTree
