import ElasticTree.Proofs.Shape.Placement
import ElasticTree.Proofs.Tree.Walking

/-!
# What an insertion comes to

Insertion differs from one kind of keys to another, and its outcome does not:
either the tree is unique and some node holds the key already, or the node is
put between all those of smaller or equal key and all those of larger key, or it
belongs to a group that has no splits left (`InsertsInto`).  The keys of the
stored nodes are read off the contents of the tree (`rank`), with a view of a key
that shows what is compared of it.
-/

namespace ElasticTree

open Shape

/-- The key stored under a name, as far as it is compared. -/
def rankIn {K V C : Type} [Inhabited C] (view : K → C) (contents : Arena (K × V))
    (id : NodeId) : C :=
  ((contents.get? id).map fun entry => view entry.1).getD default

namespace Tree

variable {K V C : Type} [Inhabited C] {view : K → C} {tree after : Tree K V} {id : NodeId}

/-- The key of a node, as far as it is compared. -/
def rank (view : K → C) (tree : Tree K V) : NodeId → C := rankIn view tree.contents

theorem rank_of_get? (view : K → C) {node : Node K V} (h : tree.nodes.get? id = some node) :
    tree.rank view id = view node.key := by
  simp [rank, rankIn, contents, h]

theorem Keeps.rank_eq (h : Keeps tree after) : after.rank view = tree.rank view := by
  rw [rank, rank, h.contents_eq]

/-- The node of a name that is live, with its key. -/
theorem exists_node (view : K → C) (hid : tree.nodes.Live id) :
    ∃ node, tree.node id = .ok node ∧ tree.nodes.get? id = some node ∧
      tree.rank view id = view node.key := by
  obtain ⟨node, hnode⟩ := Option.isSome_iff_exists.mp hid
  exact ⟨node, node_eq hnode, hnode, rank_of_get? view hnode⟩

theorem Stands.exists_node_below {context : Context} {hole : Shape} (view : K → C)
    (h : tree.Stands (some (context.plug hole))) (hid : id ∈ hole.members) :
    ∃ node, tree.node id = .ok node ∧ view node.key = tree.rank view id := by
  obtain ⟨node, hnode, -, hrank⟩ := exists_node view (h.live (mem_members_plug context hid))
  exact ⟨node, hnode, hrank.symm⟩

/-! ## Detached and linked nodes -/

theorem expectDetached_of_none (h : tree.nodes.get? id = none) :
    tree.expectDetached id = .error (.unknownNode id) := by
  simp [expectDetached, h]

theorem expectLinked_of_none (h : tree.nodes.get? id = none) :
    tree.expectLinked id = .error (.unknownNode id) := by
  simp [expectLinked, h]

namespace Stands

variable {shape : Option Shape} {node : Node K V}

private theorem node_isLinked_iff (h : tree.Stands shape) (hnode : tree.nodes.get? id = some node) :
    node.isLinked = true ↔ id ∈ shape.elim [] Shape.members := by
  rw [← h.isLinked_iff, Tree.isLinked, hnode]
  rfl

theorem expectDetached_of_mem (h : tree.Stands shape) (hnode : tree.nodes.get? id = some node)
    (hid : id ∈ shape.elim [] Shape.members) :
    tree.expectDetached id = .error (.alreadyLinked id) := by
  simp [expectDetached, hnode, (h.node_isLinked_iff hnode).mpr hid]

theorem expectDetached_of_not_mem (h : tree.Stands shape) (hnode : tree.nodes.get? id = some node)
    (hid : id ∉ shape.elim [] Shape.members) : tree.expectDetached id = .ok node := by
  have hlinked : ¬ node.isLinked = true :=
    fun hlinked => hid ((h.node_isLinked_iff hnode).mp hlinked)
  simp [expectDetached, hnode, hlinked]

theorem expectLinked_of_mem (h : tree.Stands shape) (hnode : tree.nodes.get? id = some node)
    (hid : id ∈ shape.elim [] Shape.members) : tree.expectLinked id = .ok node := by
  simp [expectLinked, hnode, (h.node_isLinked_iff hnode).mpr hid]

theorem expectLinked_of_not_mem (h : tree.Stands shape) (hnode : tree.nodes.get? id = some node)
    (hid : id ∉ shape.elim [] Shape.members) : tree.expectLinked id = .error (.notLinked id) := by
  have hlinked : ¬ node.isLinked = true :=
    fun hlinked => hid ((h.node_isLinked_iff hnode).mp hlinked)
  simp [expectLinked, hnode, hlinked]

end Stands

/-! ## Outcomes -/

/-- The node stands between those of smaller or equal key and those of larger
key. -/
structure Enters [LT C] (rank : NodeId → C) (id : NodeId) (before after : List NodeId) : Prop where
  split : ∃ front back, before = front ++ back ∧ after = front ++ id :: back ∧
    (∀ other ∈ front, ¬ rank id < rank other) ∧ ∀ other ∈ back, rank id < rank other

/-- A split of the second shape is one of the first, or else a branch can hold it
and it lies at most one below those of the first, as far as it is negative. -/
def Sinks (before after : List Int) : Prop :=
  ∀ split ∈ after, split ∈ before ∨ -2 ^ 31 ≤ split ∧ (-1 ≤ split ∨ split + 1 ∈ before)

omit [Inhabited C] in
/-- Putting a node above another adds its split to those there are. -/
theorem Sinks.splice {context : Context} {hole : Shape} {split : Int} {side : Side} {id : NodeId}
    (hrange : -2 ^ 31 ≤ split) (hsplit : -1 ≤ split ∨ split + 1 ∈ (context.plug hole).splits) :
    Sinks (context.plug hole).splits
      (context.plug (Frame.close ⟨id, split, side, .leaf id []⟩ hole)).splits := by
  intro lower hlower
  rcases mem_splits_splice.mp hlower with rfl | hlower
  · exact .inr ⟨hrange, hsplit⟩
  · exact .inl hlower

/-- What inserting a detached node comes to. -/
inductive InsertsInto [LT C] (discipline : Discipline C) (view : K → C) (tree : Tree K V)
    (shape : Option Shape) (id : NodeId) :
    Except Fault (Except Refusal NodeId × Tree K V) → Prop where
  /-- The first node of the key is found, and nothing changes. -/
  | held (holder : NodeId) (front back : List NodeId) (unique : tree.unique = true)
      (members_eq : shape.elim [] Shape.members = front ++ holder :: back)
      (rank_eq : tree.rank view holder = tree.rank view id)
      (smaller : ∀ other ∈ front, tree.rank view other < tree.rank view id) :
      InsertsInto discipline view tree shape id (.ok (.ok holder, tree))
  /-- The node is linked where its key belongs. -/
  | linked (after : Tree K V) (shape' : Shape) (stands : after.Stands (some shape'))
      (keeps : Keeps tree after) (obeys : shape'.Obeys discipline (tree.rank view))
      (enters : Enters (tree.rank view) id (shape.elim [] Shape.members) shape'.members)
      (fresh : tree.unique = true → ∀ other ∈ shape.elim [] Shape.members,
        tree.rank view other ≠ tree.rank view id)
      (sinks : Sinks (shape.elim [] Shape.splits) shape'.splits) (adds : Adds id shape shape') :
      InsertsInto discipline view tree shape id (.ok (.ok id, after))
  /-- The node belongs to a group whose splits have run out. -/
  | overflowed (mem : -2 ^ 31 ∈ shape.elim [] Shape.splits) :
      InsertsInto discipline view tree shape id (.error .splitOverflow)

/-- What an insertion that comes to an end does to the shape, whatever the keys are:
it refuses the node, or finds another one in its place, or lets it join. -/
inductive Joined (accepted : Prop) (tree : Tree K V) (shape : Option Shape) (id : NodeId) :
    Except Refusal NodeId → Tree K V → Option Shape → Prop where
  | refused (refusal : Refusal)
      (reason : ¬ tree.nodes.Live id ∨ id ∈ shape.elim [] Shape.members ∨ ¬ accepted) :
      Joined accepted tree shape id (.error refusal) tree shape
  | held (holder : NodeId) (unique : tree.unique = true)
      (mem : holder ∈ shape.elim [] Shape.members) (not_mem : id ∉ shape.elim [] Shape.members) :
      Joined accepted tree shape id (.ok holder) tree shape
  | linked (after : Tree K V) (shape' : Shape) (adds : Adds id shape shape')
      (stands : after.Stands (some shape')) (keeps : Keeps tree after) :
      Joined accepted tree shape id (.ok id) after (some shape')

omit [Inhabited C] in
/-- If the answer is the node itself, it has joined the shape. -/
theorem Joined.adds {accepted : Prop} {shape shape' : Option Shape}
    (h : tree.Joined accepted shape id (.ok id) after shape') :
    ∃ found, shape' = some found ∧ Adds id shape found ∧ after.Stands (some found) ∧
      Keeps tree after := by
  cases h with
  | held _ _ hmem hnot => exact absurd hmem hnot
  | linked _ found hadds hstands hkeeps => exact ⟨found, rfl, hadds, hstands, hkeeps⟩

namespace Stands

variable [LT C] {discipline : Discipline C} {context : Context} {hole : Shape} {known : C}

/-- The first node of an empty tree. -/
theorem insertsInto_first (discipline : Discipline C) (view : K → C) (h : tree.Stands none)
    (hid : tree.nodes.Live id) :
    ∃ after, tree.linkFirst id = .ok after ∧
      InsertsInto discipline view tree none id (.ok (.ok id, after)) := by
  obtain ⟨after, hafter, hstands, hkeeps⟩ := h.linkFirst hid
  refine ⟨after, hafter,
    .linked after _ hstands hkeeps ⟨by simp, .inl rfl⟩ ⟨[], [], ?_⟩ ?_ ?_ .first⟩
  · simp [Shape.members]
  · simp
  · simp [Sinks, Shape.splits]

omit [Inhabited C] in
/-- The place behind a hole that holds nothing but the key, if only branches of
different keys are passed to the left. -/
theorem enters_behind {rank : NodeId → C}
    (hcontext : context.Obeys discipline rank (hole.keys rank) hole.splits)
    (hequal : ∀ other ∈ hole.members, rank other = rank id)
    (hplain : ∀ frame ∈ context, frame.side = .left → 0 ≤ frame.split) :
    Enters rank id (context.plug hole).members
      (context.before ++ hole.members ++ id :: context.after) := by
  obtain ⟨other, hother⟩ := List.exists_mem_of_ne_nil _ hole.members_ne_nil
  have hknown : rank id ∈ hole.keys rank := mem_keys_iff.mpr ⟨other, hother, hequal other hother⟩
  have hfollows := hcontext.follows hknown
  refine ⟨context.before ++ hole.members, context.after, ?_, rfl, ?_,
    hcontext.lt_after hknown hfollows hplain⟩
  · rw [members_plug]
  · intro other hother
    rcases List.mem_append.mp hother with hother | hother
    · exact hcontext.not_lt_before hknown hfollows other hother
    · rw [hequal other hother]
      exact discipline.lt_irrefl _

/-- A node joins the ring of a leaf of its own key. -/
theorem insertsInto_chain {head : NodeId} {behind : List NodeId}
    (h : tree.Stands (some (context.plug (.leaf head behind))))
    (hobeys : (context.plug (.leaf head behind)).Obeys discipline (tree.rank view))
    (hid : tree.nodes.Live id) (hdetached : tree.layout.placement id = .detached)
    (hplain : context.Plain) (hequal : tree.rank view head = tree.rank view id)
    (hchains : discipline.chains) (hunique : tree.unique = false) :
    ∃ after, tree.chainBehind head id = .ok after ∧
      InsertsInto discipline view tree (some (context.plug (.leaf head behind))) id
        (.ok (.ok id, after)) := by
  obtain ⟨after, hafter, hstands, hkeeps⟩ := h.chainBehind hid hdetached
  obtain ⟨hleaf, hcontext⟩ := obeys_plug_iff.mp hobeys
  have hall : ∀ other ∈ (Shape.leaf head behind).members,
      tree.rank view other = tree.rank view id := fun other hother =>
    (hleaf.eq_of_leaf _ (List.mem_map_of_mem hother)).trans hequal
  refine ⟨after, hafter, .linked after _ hstands hkeeps (obeys_plug_iff.mpr ⟨⟨?_,
    .inr hchains⟩, hcontext.mono ?_ fun split hsplit => hsplit⟩) ?_
    (fun htrue => absurd htrue (by simp [hunique])) ?_ (.last context head behind)⟩
  · intro other hother
    rcases List.mem_append.mp hother with hother | hother
    · exact hleaf.1 other hother
    · rw [List.mem_singleton.mp hother, hequal]
  · intro key hkey
    obtain ⟨other, hother, rfl⟩ := mem_keys_iff.mp hkey
    rw [Shape.members, ← List.cons_append, List.mem_append, List.mem_singleton] at hother
    rcases hother with hother | rfl
    · exact List.mem_map_of_mem hother
    · exact mem_keys_iff.mpr ⟨head, List.mem_cons_self, hequal⟩
  · have henters := enters_behind hcontext hall fun frame hframe _ => hplain frame hframe
    simpa [members_plug, Shape.members] using henters
  · intro split hsplit
    rw [(splits_plug _ _).mem_iff] at hsplit
    exact .inl ((splits_plug _ _).mem_iff.mpr hsplit)

/-- A node whose key parts from what hangs at its slot is put above it. -/
theorem insertsInto_above {split : Int} {side : Side} (h : tree.Stands (some (context.plug hole)))
    (hobeys : (context.plug hole).Obeys discipline (tree.rank view)) (hid : tree.nodes.Live id)
    (hdetached : tree.layout.placement id = .detached) (hplain : context.Plain)
    (hknown : known ∈ hole.keys (tree.rank view))
    (hfollows : Follows discipline context (tree.rank view id) known)
    (hparted : Parted discipline hole split side (tree.rank view id) known)
    (hsplit : split < 2 ^ 31) :
    ∃ after, tree.insertAbove id context.position hole.link side split = .ok after ∧
      InsertsInto discipline view tree (some (context.plug hole)) id (.ok (.ok id, after)) := by
  have hnonneg := hparted.nonneg
  have hrange : -2 ^ 31 ≤ split ∧ split < 2 ^ 31 := by omega
  obtain ⟨after, hafter, hstands, hkeeps⟩ := h.insertAbove hid hdetached side hrange
  obtain ⟨hhole, hcontext⟩ := obeys_plug_iff.mp hobeys
  have hbefore' := hcontext.not_lt_before hknown hfollows
  have hafter_lt := hcontext.lt_after hknown hfollows fun frame hframe _ => hplain frame hframe
  have hlt := hparted.lt hhole hknown
  refine ⟨after, hafter, .linked after _ hstands hkeeps
    (obeys_above hobeys hknown hfollows hparted) ⟨?_⟩ ?_ ?_ (.beside context hole side split)⟩
  · -- the node comes right before or right behind what is in the hole
    rw [Option.elim_some, members_plug, members_plug, Frame.members_close]
    cases side with
    | left =>
        refine ⟨context.before, hole.members ++ context.after, by simp, ?_, hbefore', ?_⟩
        · simp [Frame.before, Frame.after, Side.opposite, Shape.members]
        · intro other hother
          exact (List.mem_append.mp hother).elim (hlt other) (hafter_lt other)
    | right =>
        refine ⟨context.before ++ hole.members, context.after, by simp, ?_, ?_, hafter_lt⟩
        · simp [Frame.before, Frame.after, Side.opposite, Shape.members]
        · intro other hother
          apply (List.mem_append.mp hother).elim (hbefore' other)
          intro hmem hcontra
          obtain ⟨hagrees, hside⟩ := (hparted.spread hhole hknown).1 _ (List.mem_map_of_mem hmem)
          exact discipline.not_lt (discipline.agrees_symm hagrees) hside hparted.onSide hcontra
  · exact fun _ => ne_of_parted hobeys hplain hknown hfollows hparted
  · exact .splice hrange.1 (.inl (by omega))

end Stands

end Tree

end ElasticTree
