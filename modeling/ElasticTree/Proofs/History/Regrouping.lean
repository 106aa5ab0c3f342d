import ElasticTree.Proofs.ByteTree.History
import ElasticTree.Proofs.ByteTree.Regrouping
import ElasticTree.Proofs.Tree.Determined

/-!
# What histories do to a group

Other keys do not matter to the group of a key.  Their branches may lie above the group,
and they may take and give back the branches of its nodes, but then only the owners of
branches in the group change.  So of the whole shape only what is left for the nodes of the
key is followed, request by request.
-/

namespace ElasticTree

open Shape ByteString

/-! ## What is meant -/

namespace Tree

variable {K V L C : Type}

/-- The node is linked, and has the key as far as it is compared. -/
def LinkedUnder (view : K → C) (key : C) (tree : Tree K V) (id : NodeId) : Prop :=
  tree.isLinked id = true ∧ (tree.key? id).map view = some key

/-- The request takes a node of the key out of the tree, or all nodes there are. -/
def Takes (view : K → C) (key : C) (tree : Tree K V) : Request K V L → Prop
  | .unlink id => tree.LinkedUnder view key id
  | .remove id => tree.LinkedUnder view key id
  | .clear => True
  | _ => False

/-- None of the requests takes a node of the key, at the time when it is made. -/
def Spares (insertion : Insertion K V L) (view : K → C) (key : C) (tree : Tree K V) :
    List (Request K V L) → Prop
  | [] => True
  | request :: rest => ¬ tree.Takes view key request ∧
      ∀ result ∈ (tree.perform insertion request).toOption,
        Spares insertion view key result.2 rest

section Deciding

variable [DecidableEq C] {insertion : Insertion K V L} {view : K → C} {key : C}

instance (tree : Tree K V) (id : NodeId) : Decidable (tree.LinkedUnder view key id) :=
  inferInstanceAs (Decidable (_ ∧ _))

instance (tree : Tree K V) : (request : Request K V L) → Decidable (tree.Takes view key request)
  | .unlink id => inferInstanceAs (Decidable (tree.LinkedUnder view key id))
  | .remove id => inferInstanceAs (Decidable (tree.LinkedUnder view key id))
  | .clear => .isTrue trivial
  | .alloc _ _ => .isFalse id
  | .insert _ _ => .isFalse id
  | .free _ => .isFalse id
  | .setValue _ _ => .isFalse id

/-- Whether a history spares a key can be found out by running it. -/
def decidableSpares (tree : Tree K V) :
    (requests : List (Request K V L)) → Decidable (tree.Spares insertion view key requests)
  | [] => .isTrue trivial
  | request :: rest =>
      have := fun result : Reply K V × Tree K V => decidableSpares result.2 rest
      inferInstanceAs (Decidable (¬ tree.Takes view key request ∧
        ∀ result ∈ (tree.perform insertion request).toOption,
          Spares insertion view key result.2 rest))

instance (tree : Tree K V) (requests : List (Request K V L)) :
    Decidable (tree.Spares insertion view key requests) := decidableSpares tree requests

/-- All linked nodes of the key, in the order of their slots. -/
def nodesUnder (view : K → C) (key : C) (tree : Tree K V) : List NodeId :=
  tree.nodes.names.filter fun id => decide (tree.LinkedUnder view key id)

/-- The request linked a node of the key, if this is what was replied to it. -/
def links (view : K → C) (key : C) (tree : Tree K V) : Request K V L → Reply K V → Bool
  | .insert id _, .inserted (.ok linked) =>
      decide (linked = id) && decide ((tree.key? id).map view = some key)
  | _, _ => false

/-- How often a node of the key is linked. -/
def countLinks (insertion : Insertion K V L) (view : K → C) (key : C) (tree : Tree K V) :
    List (Request K V L) → Nat
  | [] => 0
  | request :: rest =>
      match tree.perform insertion request with
      | .error _ => 0
      | .ok (reply, after) =>
          (tree.links view key request reply).toNat + countLinks insertion view key after rest

end Deciding

end Tree

/-! ## Keys of linked nodes -/

namespace Tree.Stands

variable {K V C : Type} {view : K → C} {key : C} {tree : Tree K V}
  {shape : Option Shape} {id : NodeId}

theorem linkedUnder_iff [Inhabited C] (h : tree.Stands shape) :
    tree.LinkedUnder view key id ↔ id ∈ shape.elim [] Shape.members ∧ tree.rank view id = key := by
  rw [LinkedUnder, h.isLinked_iff]
  refine and_congr_right fun hid => ?_
  obtain ⟨node, -, hnode, hrank⟩ := exists_node view (h.live hid)
  simp [key?, hnode, hrank]

variable [DecidableEq C]

theorem mem_nodesUnder_iff (h : tree.Stands shape) :
    id ∈ tree.nodesUnder view key ↔ tree.LinkedUnder view key id := by
  rw [nodesUnder, List.mem_filter, decide_eq_true_eq, Arena.mem_names_iff h.sound]
  exact and_iff_right_of_imp fun hid => h.live (h.isLinked_iff.mp hid.1)

theorem nodup_nodesUnder (h : tree.Stands shape) : (tree.nodesUnder view key).Nodup :=
  (Arena.nodup_names h.sound).filter _

end Tree.Stands

namespace ByteTree

variable {K V : Type} [ByteKey K] {length floor : Nat} {key : List UInt8}
  {tree after : ByteTree K V} {ledger : Ledger K V (List UInt8)} {shape shape' : Option Shape}
  {id : NodeId} {thins : Prop}

/-- The node has the key, as far as it is compared. -/
def hasKey (length : Nat) (key : List UInt8) (tree : ByteTree K V) (id : NodeId) : Bool :=
  decide (bytesOf length tree id = key)

/-- What is left of the shape for the nodes of the key. -/
def groupIn (length : Nat) (key : List UInt8) (tree : ByteTree K V) (shape : Option Shape) :
    Option Shape :=
  shape.bind (restrict (hasKey length key tree))

/-! ## The group of a key -/

theorem groupIn_congr
    (hsame : ∀ id ∈ shape.elim [] Shape.members, bytesOf length after id = bytesOf length tree id) :
    groupIn length key after shape = groupIn length key tree shape := by
  cases shape with
  | none => rfl
  | some found => exact restrict_congr fun id hid => by rw [hasKey, hasKey, hsame id hid]

theorem groupIn_keeps (hkeeps : Tree.Keeps tree after) (shape : Option Shape) :
    groupIn length key after shape = groupIn length key tree shape :=
  groupIn_congr fun id _ => by rw [bytesOf, hkeeps.rank_eq]

/-- Where no node of the key is linked, its group is yet to be. -/
theorem groupIn_eq_none (h : tree.Stands shape)
    (hnone : tree.nodesUnder (fun key => padded length (ByteKey.bytes key)) key = []) :
    groupIn length key tree shape = none := by
  cases shape with
  | none => rfl
  | some found =>
      refine restrict_eq_none fun id hid => decide_eq_false fun hkey =>
        List.not_mem_nil (a := id) ?_
      rw [← hnone, h.mem_nodesUnder_iff, h.linkedUnder_iff]
      exact ⟨hid, hkey⟩

/-! ## Requests -/

/-- A node that goes is one of the group, or its going leaves the group as it was. -/
theorem regroups_unlinked (h : tree.Stands shape)
    (hunlinked : tree.Unlinked shape id after shape') :
    Regroups (tree.LinkedUnder (fun key => padded length (ByteKey.bytes key)) key id) 0
      (groupIn length key tree shape) (groupIn length key after shape') := by
  have hgone := hunlinked.not_mem h
  obtain ⟨⟨found, hfound, hremoves⟩, -, hkeeps⟩ := hunlinked
  rw [Option.mem_def] at hfound
  subst hfound
  rw [groupIn_keeps hkeeps]
  exact .of_removes hremoves hgone fun hkey =>
    h.linkedUnder_iff.mpr ⟨hremoves.mem, of_decide_eq_true hkey⟩

theorem groupIn_released (hreleased : tree.Released shape id after) :
    groupIn length key after shape = groupIn length key tree shape :=
  groupIn_congr fun _ hother => hreleased.rank_eq _ hother

/-- A node that joins a tree either leaves the group as it was, or starts it, or makes it
grow. -/
theorem regroups_linked {found : Shape} {node : Node K V} (hlength : 8 * length < 2 ^ 31)
    (hmirrors : Tree.Mirrors (discipline length)
      (fun key => padded length (ByteKey.bytes key)) floor tree ledger shape)
    (hnode : tree.nodes.get? id = some node) (hid : id ∉ shape.elim [] Shape.members)
    (hfresh : tree.unique = true → ∀ other ∈ shape.elim [] Shape.members,
      bytesOf length tree other ≠ bytesOf length tree id)
    {answer : Except Refusal NodeId}
    (hinsert : ByteTree.insert tree id length = .ok (answer, after))
    (hadds : Adds id shape found) (hafter : after.Stands (some found)) :
    Regroups thins (hasKey length key tree id).toNat (groupIn length key tree shape)
      (groupIn length key tree (some found)) := by
  cases hkey : hasKey length key tree id with
  | false => exact .of_adds hadds hkey
  | true =>
      have hsame : bytesOf length tree id = key := of_decide_eq_true hkey
      by_cases hother : ∃ other ∈ shape.elim [] Shape.members, bytesOf length tree other = key
      · obtain ⟨other, hmem, hother⟩ := hother
        have hunique : tree.unique = false := by
          rw [← Bool.not_eq_true]
          exact fun htrue => hfresh htrue other hmem (hother.trans hsame.symm)
        cases shape with
        | none => simp at hmem
        | some before =>
            obtain ⟨context, hole, hole', rfl, hgathers, hgrows, hgrown⟩ :=
              insert_grows hlength hmirrors.stands (hmirrors.obeys before rfl) hmirrors.ranged
                hunique hnode hid ⟨other, hmem, hother.trans hsame.symm⟩ hinsert
            rw [hsame] at hgathers
            rw [hafter.shape_eq hgrown]
            exact .of_grows hgrows
              (fun known hknown => decide_eq_true (hgathers.key_eq known hknown))
              (fun other hother => decide_eq_false (hgathers.key_ne other hother)) hkey
      · exact .of_first hadds hkey fun other hmem => decide_eq_false fun heq =>
          hother ⟨other, hmem, heq⟩

/-- What is linked is a node of the key, if it has the key. -/
theorem links_inserted {node : Node K V} (hnode : tree.nodes.get? id = some node) (how : Nat) :
    tree.links (fun key => padded length (ByteKey.bytes key)) key (.insert id how)
      (.inserted (.ok id)) = hasKey length key tree id := by
  have hrank : bytesOf length tree id = padded length (ByteKey.bytes node.key) :=
    Tree.rank_of_get? (fun key => padded length (ByteKey.bytes key)) hnode
  rw [hasKey, hrank]
  simp [Tree.links, Tree.key?, hnode]

/-- An insertion adds a node to the group, or leaves it as it was. -/
theorem regroups_insert (hlength : 8 * length < 2 ^ 31)
    (hmirrors : Tree.Mirrors (discipline length)
      (fun key => padded length (ByteKey.bytes key)) floor tree ledger shape)
    {answer : Except Refusal NodeId}
    (hinsert : ByteTree.insert tree id length = .ok (answer, after))
    (hafter : after.Stands shape') :
    Regroups thins
      (tree.links (fun key => padded length (ByteKey.bytes key)) key (.insert id length)
        (.inserted answer)).toNat
      (groupIn length key tree shape) (groupIn length key after shape') := by
  have hstands := hmirrors.stands
  have hrefused : ∀ refusal, tree.expectDetached id = .error refusal → Regroups thins
      (tree.links (fun key => padded length (ByteKey.bytes key)) key (.insert id length)
        (.inserted answer)).toNat
      (groupIn length key tree shape) (groupIn length key after shape') := by
    intro refusal hrefused
    rw [ByteTree.insert, hrefused] at hinsert
    obtain ⟨rfl, rfl⟩ := Prod.mk.inj (Except.ok.inj hinsert)
    rw [hstands.shape_eq hafter]
    exact .refl _
  cases hnode : tree.nodes.get? id with
  | none => exact hrefused _ (Tree.expectDetached_of_none hnode)
  | some node =>
      by_cases hid : id ∈ shape.elim [] Shape.members
      · exact hrefused _ (hstands.expectDetached_of_mem hnode hid)
      · have hinserts := insert_insertsInto hlength hstands hmirrors.obeys hmirrors.ranged hnode hid
        rw [hinsert] at hinserts
        cases hinserts with
        | held holder front back _ hmembers =>
            have hne : holder ≠ id := by
              rintro rfl
              simp [hmembers] at hid
            have hlinks : tree.links (fun key => padded length (ByteKey.bytes key)) key
                (.insert id length) (.inserted (.ok holder)) = false := by simp [Tree.links, hne]
            rw [hlinks, hstands.shape_eq hafter]
            exact .refl _
        | linked _ found hafter' hkeeps _ _ hfresh _ hadds =>
            rw [links_inserted hnode, hafter.shape_eq hafter', groupIn_keeps hkeeps]
            exact regroups_linked hlength hmirrors hnode hid hfresh hinsert hadds hafter'

/-- Nodes come to the group by insertions, and none goes by a request that takes none. -/
theorem regroups_perform (hlength : 8 * length < 2 ^ 31)
    (hmirrors : Tree.Mirrors (discipline length)
      (fun key => padded length (ByteKey.bytes key)) floor tree ledger shape)
    {request : Request K V Nat} {reply : Reply K V} (hallowed : request.Allowed (· = length))
    (hroom : ∀ key value, request = .alloc key value → tree.nodes.HasRoom)
    (hperform : tree.perform ByteTree.insert request = .ok (reply, after))
    (hafter : after.Stands shape') :
    Regroups (tree.Takes (fun key => padded length (ByteKey.bytes key)) key request)
      (tree.links (fun key => padded length (ByteKey.bytes key)) key request reply).toNat
      (groupIn length key tree shape) (groupIn length key after shape') := by
  have hstands := hmirrors.stands
  have hrefused : ∀ shape', tree.Stands shape' →
      Regroups (tree.Takes (fun key => padded length (ByteKey.bytes key)) key request) 0
        (groupIn length key tree shape) (groupIn length key tree shape') := by
    intro shape' hstands'
    rw [hstands.shape_eq hstands']
    exact .refl _
  cases request with
  | alloc made value =>
      obtain rfl : (tree.alloc made value).2 = after := congrArg Prod.snd (Except.ok.inj hperform)
      have hroom := hroom made value rfl
      have hsame : groupIn length key (tree.alloc made value).2 shape =
          groupIn length key tree shape :=
        groupIn_congr fun _ hid => hstands.rank_alloc _ hroom made value hid
      rw [hafter.shape_eq (hstands.alloc hroom made value), hsame]
      exact .refl _
  | insert id how =>
      obtain rfl : how = length := hallowed
      cases hinsert : ByteTree.insert tree id how with
      | error fault =>
          rw [Tree.perform, hinsert] at hperform
          cases hperform
      | ok result =>
          rw [Tree.perform, hinsert] at hperform
          obtain ⟨rfl, rfl⟩ := Prod.mk.inj (Except.ok.inj hperform)
          exact regroups_insert hlength hmirrors hinsert hafter
  | unlink id =>
      obtain ⟨answer, found, hunlink, houtcome⟩ := hstands.unlink_outcome id
      rw [Tree.perform, hunlink] at hperform
      obtain ⟨rfl, rfl⟩ := Prod.mk.inj (Except.ok.inj hperform)
      cases houtcome with
      | unknown => exact hrefused shape' hafter
      | refused => exact hrefused shape' hafter
      | granted _ _ _ more after hdone =>
          obtain ⟨shape'', -, hunlinked⟩ := hdone
          rw [hafter.shape_eq hunlinked.stands]
          exact regroups_unlinked hstands hunlinked
  | free id =>
      obtain ⟨answer, found, hfree, houtcome⟩ := hstands.free_outcome id
      rw [Tree.perform, hfree] at hperform
      obtain ⟨rfl, rfl⟩ := Prod.mk.inj (Except.ok.inj hperform)
      cases houtcome with
      | unknown => exact hrefused shape' hafter
      | refused => exact hrefused shape' hafter
      | granted _ _ _ stored after hdone =>
          rw [hafter.shape_eq hdone.2.stands, groupIn_released hdone.2]
          exact .refl _
  | remove id =>
      obtain ⟨answer, found, hremove, houtcome⟩ := hstands.remove_outcome id
      rw [Tree.perform, hremove] at hperform
      obtain ⟨rfl, rfl⟩ := Prod.mk.inj (Except.ok.inj hperform)
      cases houtcome with
      | unknown => exact hrefused shape' hafter
      | refused => exact hrefused shape' hafter
      | granted _ _ _ stored after hdone =>
          obtain ⟨-, middle, shape'', hunlinked, hreleased⟩ := hdone
          rw [hafter.shape_eq hreleased.stands, groupIn_released hreleased]
          exact regroups_unlinked hstands hunlinked
  | clear =>
      obtain rfl : tree.clear = after := congrArg Prod.snd (Except.ok.inj hperform)
      rw [hafter.shape_eq hstands.clear]
      exact .of_none trivial _
  | setValue id value =>
      obtain rfl : tree.setValue id value = after := congrArg Prod.snd (Except.ok.inj hperform)
      have hsame : groupIn length key (tree.setValue id value) shape =
          groupIn length key tree shape :=
        groupIn_congr fun _ _ => by rw [bytesOf, Tree.rank_setValue]
      rw [hafter.shape_eq (hstands.setValue id value), hsame]
      exact .refl _

/-! ## Histories -/

/-- Over a history the group takes in the nodes that are linked meanwhile, and loses none
if the history spares it. -/
theorem regroups_run (hlength : 8 * length < 2 ^ 31)
    (hmirrors : Tree.Mirrors (discipline length)
      (fun key => padded length (ByteKey.bytes key)) floor tree ledger shape)
    {requests : List (Request K V Nat)}
    (hallowed : ∀ request ∈ requests, request.Allowed (· = length))
    (hfits : tree.Fits insert requests) (hrun : tree.run insert requests = .ok after)
    (hafter : after.Stands shape') :
    Regroups (¬ tree.Spares insert (fun key => padded length (ByteKey.bytes key)) key requests)
      (tree.countLinks insert (fun key => padded length (ByteKey.bytes key)) key requests)
      (groupIn length key tree shape) (groupIn length key after shape') := by
  induction requests generalizing tree ledger shape floor with
  | nil =>
      obtain rfl : tree = after := Except.ok.inj hrun
      rw [hmirrors.stands.shape_eq hafter]
      exact .refl _
  | cons request rest ih =>
      obtain ⟨hallowed_first, hallowed_rest⟩ := List.forall_mem_cons.mp hallowed
      rcases hmirrors.perform (serves hlength) hallowed_first hfits.hasRoom with
        ⟨middle, shape'', hperform, hmiddle⟩ | ⟨hover, -⟩
      · rw [Tree.run_cons hperform] at hrun
        rw [Tree.countLinks, hperform]
        refine .trans ?_ ((ih hmiddle hallowed_rest (hfits.rest hperform) hrun).mono
          fun hnot hspares => hnot (hspares.2 _ (by rw [hperform]; rfl)))
        exact (regroups_perform hlength hmirrors hallowed_first hfits.hasRoom hperform
          hmiddle.stands).mono fun htakes hspares => hspares.1 htakes
      · obtain ⟨reply, middle, hperform, -⟩ := Tree.exists_of_run_cons hrun
        rw [hover] at hperform
        cases hperform

/-- The nodes of a key hang together, and nothing else with them. -/
theorem exists_group (h : tree.Stands shape)
    (hobeys : ∀ found ∈ shape, found.Obeys (discipline length) (bytesOf length tree))
    (hsome : tree.nodesUnder (fun key => padded length (ByteKey.bytes key)) key ≠ []) :
    ∃ (context : Context) (group : Shape), shape = some (context.plug group) ∧ context.Plain ∧
      group.members.Perm (tree.nodesUnder (fun key => padded length (ByteKey.bytes key)) key) ∧
      groupIn length key tree shape = some group := by
  obtain ⟨first, hfirst⟩ := List.exists_mem_of_ne_nil _ hsome
  obtain ⟨hmem, rfl⟩ := h.linkedUnder_iff.mp (h.mem_nodesUnder_iff.mp hfirst)
  obtain ⟨node, -, -, hrank⟩ :=
    Tree.exists_node (fun key => padded length (ByteKey.bytes key)) (h.live hmem)
  cases shape with
  | none => simp at hmem
  | some found =>
      obtain ⟨context, group, rfl, -, hgathers⟩ := land_of_mem h (hobeys found rfl) hmem hrank
      rw [← hrank] at hgathers
      have hmembers := h.draws.members_nodup
      rw [Option.elim_some, members_plug] at hmembers
      refine ⟨context, group, rfl, hgathers.plain, ?_, ?_⟩
      · rw [List.perm_ext_iff_of_nodup hmembers.of_append_left.of_append_right h.nodup_nodesUnder]
        intro id
        rw [hgathers.mem_iff, h.mem_nodesUnder_iff, h.linkedUnder_iff]
        rfl
      · exact (restrict_plug
            fun other hother => decide_eq_false (hgathers.key_ne other hother)).trans
          (restrict_eq_self fun known hknown => decide_eq_true (hgathers.key_eq known hknown))

end ByteTree

end ElasticTree
