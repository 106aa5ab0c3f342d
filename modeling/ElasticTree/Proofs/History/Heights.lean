import ElasticTree.Proofs.History.Joining
import ElasticTree.Proofs.History.Outline
import ElasticTree.Proofs.History.Regrouping
import ElasticTree.Proofs.Shape.Height
import ElasticTree.Proofs.Tree.Paths

/-!
# How deep trees become

Whatever has been linked and unlinked, no tree is deeper than its keys are long.  In a
tree of words each branch on the way down splits on a lower bit than the one above it.  In
a tree of byte strings the bits come in their order, and after them the branches of a group,
whose splits rise towards zero.  So a group is no deeper than the split of its topmost branch
says.
-/

namespace ElasticTree

open Shape

namespace Tree

variable {K V C : Type}

/-! ## What is meant -/

/-- No leaf has more than `limit` branches above it, and the figures say so. -/
structure Shallow (limit : Nat) (tree : Tree K V) : Prop where
  reached : ∀ id, (∃ splits, tree.PathFromRoot splits (.leaf id)) ↔
    ∃ node position, tree.nodes.get? id = some node ∧ node.placement = .placed position
  length_path_le : ∀ splits id, tree.PathFromRoot splits (.leaf id) → splits.length ≤ limit
  maxHeight_le : ∃ figures, tree.statistics = .ok figures ∧
    (tree.isEmpty = false → figures.maxHeight ≤ min limit (figures.leaves - 1))

/-- The way down to a node passes branches of different keys first, no more than `limit`, and
then branches of the group of its key, no more than `levels`.  The group hangs from `top`,
and `levels` is what the split there says. -/
structure WayDown (view : K → C) (limit : Nat) (tree : Tree K V) (id : NodeId) (key : C)
    (plain group : List Int) (top : Link) (levels : Nat) : Prop where
  key_eq : (tree.key? id).map view = some key
  path_plain : tree.PathFromRoot plain top
  path_group : tree.Path top group (.leaf id)
  plain_nonneg : ∀ split ∈ plain, 0 ≤ split
  group_neg : ∀ split ∈ group, split < 0
  length_plain : plain.length ≤ limit
  length_group : group.length ≤ levels
  gathers : ∀ other, (∃ below, tree.Path top below (.leaf other)) ↔ tree.LinkedUnder view key other
  levels_eq : top = .leaf id ∧ levels = 0 ∨ ∃ owner branch, top = .branch owner ∧
    tree.branch owner = .ok branch ∧ branch.split = -(levels : Int) ∧ 0 < levels
  single : (∀ other, tree.LinkedUnder view key other → other = id) → levels = 0

/-- All linked nodes are reached from the root, and every path to a node is such a way. -/
structure ShallowGroups (view : K → C) (limit : Nat) (tree : Tree K V) : Prop where
  reached : ∀ id, (∃ splits, tree.PathFromRoot splits (.leaf id)) ↔ tree.isLinked id = true
  wayDown : ∀ splits id, tree.PathFromRoot splits (.leaf id) → ∃ plain group top levels key,
    splits = plain ++ group ∧ tree.WayDown view limit id key plain group top levels

end Tree

/-! ## Words -/

namespace WordTree

variable {width : Nat} {V : Type} {tree : WordTree width V} {shape : Option Shape}

theorem shallow (h : tree.Stands shape)
    (hobeys : ∀ found ∈ shape, found.Obeys (Word.discipline width) (wordOf tree)) :
    tree.Shallow width := by
  have hlength : ∀ {context : Context} {part : Shape}, shape = some (context.plug part) →
      context.length ≤ width := by
    rintro context part rfl
    have hcontext := (obeys_plug_iff.mp (hobeys _ rfl)).2
    have hle := hcontext.length_le 1 (width + 1) (fun split => Int.lt_irrefl split)
      fun frame hframe => by
        obtain ⟨hlow, hhigh⟩ : 1 ≤ frame.split ∧ frame.split ≤ width := hcontext.admits frame hframe
        omega
    omega
  refine ⟨fun id => h.exists_pathFromRoot_iff.trans h.mem_leaves_iff, fun splits id hpath => ?_,
    _, h.statistics_eq, fun hempty => ?_⟩
  · obtain ⟨context, part, hshape, -, rfl⟩ := h.pathFromRoot_iff.mp hpath
    rw [List.length_reverse, List.length_map]
    exact hlength hshape
  · cases shape with
    | none => simp [Tree.isEmpty, h.root_eq] at hempty
    | some found =>
        obtain ⟨context, head, behind, hshape, hheight⟩ := found.exists_plug_height
        have hwidth := hlength (congrArg some hshape)
        have hleaves := found.length_leaves
        have howners := found.height_le
        simp only [Option.elim_some]
        omega

end WordTree

/-! ## Byte strings -/

namespace ByteTree

open ByteString

variable {K V : Type} [ByteKey K] {length : Nat} {tree : ByteTree K V} {context : Context}
  {hole : Shape} {shape : Option Shape} {id : NodeId}

/-- Byte strings are not chained. -/
theorem not_chains : ¬ (discipline length).chains := id

/-- On the way down, no branch of different keys comes after one of a group. -/
theorem exists_plain_append {rank : NodeId → List UInt8} {held : List (List UInt8)}
    {splits : List Int} (h : context.Obeys (discipline length) rank held splits) :
    ∃ inner outer : Context, context = inner ++ outer ∧ outer.Plain ∧
      ∀ frame ∈ inner, frame.split < 0 := by
  induction context generalizing held splits with
  | nil => exact ⟨[], [], rfl, by simp [Context.Plain], by simp⟩
  | cons frame outer ih =>
      by_cases hgroup : frame.split < 0
      · obtain ⟨inner, rest, rfl, hplain, hneg⟩ := ih h.2.2
        exact ⟨frame :: inner, rest, rfl, hplain, List.forall_mem_cons.mpr ⟨hgroup, hneg⟩⟩
      · refine ⟨[], frame :: outer, rfl, ?_, by simp⟩
        refine List.forall_mem_cons.mpr ⟨Int.not_lt.mp hgroup, fun upper hupper => ?_⟩
        have hdeepens :=
          deepens_iff.mp (h.2.2.deepens_hole upper hupper frame.split List.mem_cons_self)
        omega

/-- What hangs in a hole past branches of different keys, and not from another of them, is
all there is of a key. -/
theorem gathers_of_plain
    (hobeys : (context.plug hole).Obeys (discipline length) (bytesOf length tree))
    (hplain : context.Plain) (hgroup : ∀ top ∈ hole.top?, top < 0) (hid : id ∈ hole.members) :
    Gathers length tree (bytesOf length tree id) context hole := by
  obtain ⟨hhole, hcontext⟩ := obeys_plug_iff.mp hobeys
  have hheld : bytesOf length tree id ∈ hole.keys (bytesOf length tree) :=
    mem_keys_iff.mpr ⟨id, hid, rfl⟩
  have hsame : ∃ key, ∀ other ∈ hole.keys (bytesOf length tree), other = key := by
    cases hole with
    | leaf head behind => exact ⟨_, hhole.eq_of_leaf⟩
    | branch owner split left right => exact hhole.exists_same (settles length) (hgroup split rfl)
  obtain ⟨key, hall⟩ := hsame
  refine ⟨hplain, hgroup, fun known hknown => ?_, hcontext.ne_of_plain hplain hheld⟩
  rw [hall _ hheld]
  exact hall _ (mem_keys_iff.mpr ⟨known, hknown, rfl⟩)

/-- A group has no more branches above one another than the split of its topmost branch
says. -/
private theorem exists_levels {inner : Context} {behind : List NodeId}
    (hobeys : (inner.plug (.leaf id behind)).Obeys (discipline length) (bytesOf length tree))
    (hneg : ∀ frame ∈ inner, frame.split < 0) :
    ∃ levels : Nat, inner.length ≤ levels ∧
      (inner = [] ∧ levels = 0 ∨ ∃ owner left right,
        inner.plug (.leaf id behind) = .branch owner (-(levels : Int)) left right ∧
        0 < levels) := by
  rcases List.eq_nil_or_concat inner with rfl | ⟨init, frame, rfl⟩
  · exact ⟨0, Nat.le_refl 0, .inl ⟨rfl, rfl⟩⟩
  · have hcontext := (obeys_plug_iff.mp hobeys).2
    have hframe := hneg frame (by simp)
    have hpairwise := hcontext.pairwise
    rw [List.concat_eq_append, List.pairwise_append] at hpairwise
    have hle := hcontext.length_le frame.split 0
      (fun split hdeepens => by
        have := deepens_iff.mp hdeepens
        omega)
      fun other hother => by
        rw [List.concat_eq_append, List.mem_append, List.mem_singleton] at hother
        rcases hother with hother | rfl
        · have hdeepens := deepens_iff.mp (hpairwise.2.2 other hother frame List.mem_cons_self)
          have hlow := hneg other (by simp [hother])
          omega
        · exact ⟨Int.le_refl _, hframe⟩
    refine ⟨(0 - frame.split).toNat, hle, .inr ?_⟩
    have hsplit : frame.split = -(((0 - frame.split).toNat : Nat) : Int) := by omega
    rw [List.concat_eq_append, plug_append, ← hsplit]
    obtain ⟨owner, split, side, sibling⟩ := frame
    cases side with
    | left => exact ⟨owner, _, sibling, rfl, by omega⟩
    | right => exact ⟨owner, sibling, _, rfl, by omega⟩

omit [ByteKey K] in
/-- In a group there are at least two nodes. -/
private theorem exists_ne_of_branch {owner : NodeId} {split : Int} {left right : Shape}
    (h : tree.Stands (some (context.plug (.branch owner split left right)))) (id : NodeId) :
    ∃ other ∈ (Shape.branch owner split left right).members, other ≠ id := by
  obtain ⟨first, hfirst⟩ := List.exists_mem_of_ne_nil _ left.members_ne_nil
  obtain ⟨second, hsecond⟩ := List.exists_mem_of_ne_nil _ right.members_ne_nil
  have hnodup := h.draws.members_nodup
  rw [Option.elim_some, members_plug] at hnodup
  have hne : first ≠ second :=
    (List.nodup_append.mp hnodup.of_append_left.of_append_right).2.2 first hfirst second hsecond
  by_cases heq : first = id
  · exact ⟨second, List.mem_append_right _ hsecond, fun hid => hne (heq.trans hid.symm)⟩
  · exact ⟨first, List.mem_append_left _ hfirst, heq⟩

/-- Where the branches of different keys end, the group of the node begins. -/
private theorem wayDown {inner outer : Context} {behind : List NodeId}
    (h : tree.Stands (some (outer.plug (inner.plug (.leaf id behind)))))
    (hobeys : (outer.plug (inner.plug (.leaf id behind))).Obeys (discipline length)
      (bytesOf length tree))
    (hplain : outer.Plain) (hneg : ∀ frame ∈ inner, frame.split < 0) :
    ∃ levels, tree.WayDown (fun key => padded length (ByteKey.bytes key)) (8 * length) id
      (bytesOf length tree id) (outer.map Frame.split).reverse (inner.map Frame.split).reverse
      (inner.plug (.leaf id behind)).link levels := by
  obtain ⟨hhole, houter⟩ := obeys_plug_iff.mp hobeys
  have hid : id ∈ (inner.plug (.leaf id behind)).members :=
    mem_members_plug inner List.mem_cons_self
  obtain ⟨levels, hlength, hlevels⟩ := exists_levels hhole hneg
  have hgroup : ∀ top ∈ (inner.plug (.leaf id behind)).top?, top < 0 := by
    rcases hlevels with ⟨rfl, -⟩ | ⟨owner, left, right, heq, hpos⟩
    · simp [Context.plug, top?]
    · rw [heq]
      rintro top ⟨⟩
      omega
  have hgathers := gathers_of_plain hobeys hplain hgroup hid
  have hlinked : ∀ other, tree.LinkedUnder (fun key => padded length (ByteKey.bytes key))
      (bytesOf length tree id) other ↔ other ∈ (inner.plug (.leaf id behind)).members := by
    intro other
    rw [h.linkedUnder_iff, hgathers.mem_iff]
    rfl
  obtain ⟨node, -, hnode, hrank⟩ := Tree.exists_node (fun key => padded length (ByteKey.bytes key))
    (h.live (mem_members_plug outer hid))
  refine ⟨levels, ?_, ?_, ?_, ?_, ?_, ?_, ?_, fun other => ?_, ?_, fun hsingle => ?_⟩
  · rw [Tree.key?, hnode, Option.map_some, Option.map_some, ← hrank]
  · exact h.pathFromRoot_iff.mpr ⟨outer, _, rfl, rfl, rfl⟩
  · exact h.path_iff.mpr ⟨inner, .leaf id behind, rfl, rfl, rfl⟩
  · simpa [Context.Plain] using hplain
  · simpa using hneg
  · have hle := houter.length_le 0 (8 * length)
      (fun split hdeepens => by
        have := deepens_iff.mp hdeepens
        omega)
      fun frame hframe => ⟨hplain frame hframe, houter.admits frame hframe⟩
    rw [List.length_reverse, List.length_map]
    omega
  · rwa [List.length_reverse, List.length_map]
  · rw [h.exists_path_iff, hhole.mem_leaves_iff not_chains, hlinked]
  · rcases hlevels with ⟨rfl, hzero⟩ | ⟨owner, left, right, heq, hpos⟩
    · exact .inl ⟨rfl, hzero⟩
    · rw [heq] at h ⊢
      exact .inr ⟨owner, _, rfl, h.branch_eq, rfl, hpos⟩
  · rcases hlevels with ⟨-, hzero⟩ | ⟨owner, left, right, heq, hpos⟩
    · exact hzero
    · -- a second node of the group would be the same
      rw [heq] at h hlinked
      obtain ⟨other, hother, hne⟩ := exists_ne_of_branch h id
      exact absurd (hsingle other ((hlinked other).mpr hother)) hne

theorem shallowGroups (h : tree.Stands shape)
    (hobeys : ∀ found ∈ shape, found.Obeys (discipline length) (bytesOf length tree)) :
    tree.ShallowGroups (fun key => padded length (ByteKey.bytes key)) (8 * length) := by
  refine ⟨fun id => ?_, fun splits id hpath => ?_⟩
  · rw [h.exists_pathFromRoot_iff, h.isLinked_iff]
    cases shape with
    | none => rfl
    | some found => exact (hobeys found rfl).mem_leaves_iff not_chains
  · obtain ⟨context, part, rfl, hpart, rfl⟩ := h.pathFromRoot_iff.mp hpath
    have hobeys := hobeys _ rfl
    cases part with
    | branch owner split left right => cases hpart
    | leaf head behind =>
        obtain rfl : head = id := Link.leaf.inj hpart
        obtain ⟨inner, outer, rfl, hplain, hneg⟩ := exists_plain_append (obeys_plug_iff.mp hobeys).2
        rw [plug_append] at h hobeys
        obtain ⟨levels, hway⟩ := wayDown h hobeys hplain hneg
        exact ⟨_, _, _, levels, _, by rw [List.map_append, List.reverse_append], hway⟩

end ByteTree

/-! ## Histories -/

/-- After any history, no leaf of a tree of words lies deeper than the words are wide, and in
a tree of byte strings that are compared over one length, none lies deeper than the
strings are long in bits, but for the branches of its group, of which there are no more than
the split of the topmost says. -/
theorem heights_bounded {K V : Type} [ByteKey K] (unique : Bool) :
    (∀ (width : Nat) (requests : List (Request (BitVec width) V Unit)), width < 2 ^ 31 →
      (Tree.empty unique).Fits WordTree.insertion requests →
        ∃ tree, (Tree.empty unique).run WordTree.insertion requests = .ok tree ∧
          tree.Shallow width) ∧
    ∀ (length : Nat) (requests : List (Request K V Nat)),
      (∀ request ∈ requests, request.Allowed (· = length)) →
      (Tree.empty unique).Fits ByteTree.insert requests →
        (requests.countP Request.isInsert < 2 ^ 31 →
          ∃ tree, (Tree.empty unique).run ByteTree.insert requests = .ok tree) ∧
        ∀ tree, (Tree.empty unique).run ByteTree.insert requests = .ok tree →
          tree.ShallowGroups (fun key => ByteString.padded length (ByteKey.bytes key))
            (8 * length) := by
  refine ⟨fun width requests hwidth hfits => ?_, fun length requests hallowed hfits =>
    ⟨fun hinserts => ByteTree.run_ok hinserts hfits, fun tree hrun => ?_⟩⟩
  · obtain ⟨tree, shape, hrun, hstands, hobeys⟩ := WordTree.run_inOrder hwidth hfits
    exact ⟨tree, hrun, WordTree.shallow hstands hobeys⟩
  · obtain ⟨_, _, shape, hmirrors⟩ := ByteTree.mirrors_of_run hallowed hfits hrun
    exact ByteTree.shallowGroups hmirrors.stands hmirrors.obeys

/-- Words that part at each bit in turn, of which one comes twice and one goes again. -/
private def staggered : List (Request (BitVec 8) String Unit) :=
  [.alloc 128 "first", .alloc 64 "second", .alloc 32 "third", .alloc 16 "fourth", .alloc 64 "fifth",
    .insert ⟨0, 0⟩ (), .insert ⟨1, 0⟩ (), .insert ⟨2, 0⟩ (), .insert ⟨3, 0⟩ (), .insert ⟨4, 0⟩ (),
    .unlink ⟨2, 0⟩]

/-- Three strings that are the same over one byte, of which one goes and comes back, and two
others that part from them. -/
private def layered : List (Request String String Nat) :=
  [.alloc "a" "first", .alloc "ab" "second", .alloc "ac" "third", .alloc "b" "fourth",
    .alloc "c" "fifth", .insert ⟨0, 0⟩ 1, .insert ⟨1, 0⟩ 1, .insert ⟨2, 0⟩ 1, .insert ⟨3, 0⟩ 1,
    .insert ⟨4, 0⟩ 1, .unlink ⟨0, 0⟩, .insert ⟨0, 0⟩ 1]

theorem heights_bounded_layered :
    8 < 2 ^ 31 ∧ (Tree.empty false).Fits WordTree.insertion staggered ∧
      (∀ request ∈ layered, request.Allowed (· = 1)) ∧
      (Tree.empty false).Fits ByteTree.insert layered ∧
      (∃ tree, (Tree.empty false).run WordTree.insertion staggered = .ok tree ∧ tree.Shallow 8) ∧
      ∃ tree, (Tree.empty false).run ByteTree.insert layered = .ok tree ∧
        tree.ShallowGroups (fun key => ByteString.padded 1 (ByteKey.bytes key)) (8 * 1) ∧
        ∃ splits, tree.PathFromRoot splits (.leaf ⟨0, 0⟩) := by
  have hwidth : 8 < 2 ^ 31 := by decide
  have hstaggered : (Tree.empty false).Fits WordTree.insertion staggered := by decide +kernel
  have hallowed : ∀ request ∈ layered, request.Allowed (· = 1) := by simp [layered, Request.Allowed]
  have hlayered : (Tree.empty false).Fits ByteTree.insert layered := by decide +kernel
  have hbounded := heights_bounded (K := String) (V := String) false
  obtain ⟨hruns, hshallow⟩ := hbounded.2 1 layered hallowed hlayered
  obtain ⟨tree, hrun⟩ := hruns (by decide)
  have hlinked : (fun tree : ByteTree String String => tree.isLinked ⟨0, 0⟩) <$>
      (Tree.empty false).run ByteTree.insert layered = .ok true := by decide +kernel
  rw [hrun] at hlinked
  exact ⟨hwidth, hstaggered, hallowed, hlayered, hbounded.1 8 staggered hwidth hstaggered,
    tree, hrun, hshallow tree hrun,
    ((hshallow tree hrun).reached ⟨0, 0⟩).mpr (Except.ok.inj hlinked)⟩

end ElasticTree
