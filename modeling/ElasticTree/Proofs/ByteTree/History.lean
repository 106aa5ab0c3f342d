import ElasticTree.Proofs.ByteTree.Insertion
import ElasticTree.Proofs.History.Showing

/-!
# Histories of trees of byte strings

As long as all insertions compare over the same length, a tree of byte strings
replies like a ledger of strings cut or padded to that length.  Each insertion
may lower the splits of a group by one, so there may be no more of them than
there are negative splits.
-/

namespace ElasticTree

open ByteString

namespace ByteTree

variable {K V : Type} [ByteKey K] {length : Nat}

/-- Insertion over a fixed length serves the discipline of that length. -/
theorem serves (hlength : 8 * length < 2 ^ 31) :
    Tree.Insertion.Serves (insert : Tree.Insertion K V Nat) (discipline length)
      (fun key => padded length (ByteKey.bytes key)) (· = length) where
  refuses h _ := by rw [ByteTree.insert, h]
  inserts hallowed hstands hobeys hranged hnode hid := by
    subst hallowed
    exact insert_insertsInto hlength hstands hobeys hranged hnode hid

/-- There are as many splits for a group as there are negative numbers. -/
theorem lasts {bound : Nat} (hbound : bound ≤ 2 ^ 31) : (discipline length).Lasts bound :=
  fun split _ hsplit => by omega

/-- A history leads to a tree that mirrors the ledger of the same history. -/
theorem play_mirrors (hlength : 8 * length < 2 ^ 31) {unique : Bool}
    {requests : List (Request K V Nat)}
    (hallowed : ∀ request ∈ requests, request.Allowed (· = length))
    (hinserts : requests.countP Request.isInsert < 2 ^ 31)
    (hfits : (Tree.empty unique).Fits insert requests) :
    ∃ tree shape, (Tree.empty unique).play insert requests =
        .ok (((Ledger.empty unique).play (fun key => padded length (ByteKey.bytes key)) requests).1,
          tree) ∧
      Tree.Mirrors (discipline length) (fun key => padded length (ByteKey.bytes key))
        (0 + requests.countP Request.isInsert) tree
        ((Ledger.empty unique).play (fun key => padded length (ByteKey.bytes key)) requests).2
        shape :=
  (Tree.Mirrors.empty unique).play (serves hlength) hallowed (lasts (by omega)) hfits

/-- Over a length that is too long nothing is inserted. -/
theorem insert_of_le (hlength : 2 ^ 31 ≤ 8 * length) (tree : ByteTree K V) (id : NodeId) :
    ∃ refusal, insert tree id length = .ok (.error refusal, tree) := by
  rw [insert, bitLength_of_le hlength]
  cases tree.expectDetached id <;> exact ⟨_, rfl⟩

private theorem mirrors_of_run_too_long (hlength : 2 ^ 31 ≤ 8 * length) {floor : Nat}
    {tree after : ByteTree K V} {ledger : Ledger K V (List UInt8)} {shape : Option Shape}
    {requests : List (Request K V Nat)}
    (h : Tree.Mirrors (discipline length) (fun key => padded length (ByteKey.bytes key)) floor tree
      ledger shape)
    (hallowed : ∀ request ∈ requests, request.Allowed (· = length))
    (hfits : tree.Fits insert requests) (hrun : tree.run insert requests = .ok after) :
    ∃ floor ledger shape, Tree.Mirrors (discipline length)
      (fun key => padded length (ByteKey.bytes key)) floor after ledger shape := by
  -- no insertion is left to serve the discipline
  have hserves : Tree.Insertion.Serves (insert : Tree.Insertion K V Nat) (discipline length)
      (fun key => padded length (ByteKey.bytes key)) (fun _ => False) :=
    ⟨fun hrefused _ => by rw [ByteTree.insert, hrefused], fun hnever => hnever.elim⟩
  induction requests generalizing tree ledger shape floor with
  | nil =>
      obtain rfl : tree = after := Except.ok.inj hrun
      exact ⟨floor, ledger, shape, h⟩
  | cons request rest ih =>
      have hstep : ∃ reply middle floor ledger shape,
          tree.perform insert request = .ok (reply, middle) ∧
          Tree.Mirrors (discipline length) (fun key => padded length (ByteKey.bytes key)) floor
            middle ledger shape := by
        rcases request.insert_or_allowed with ⟨id, how, rfl⟩ | ⟨hother, hanywhere⟩
        · obtain rfl : how = length := hallowed (.insert id how) List.mem_cons_self
          obtain ⟨refusal, hrefused⟩ := insert_of_le hlength tree id
          refine ⟨.inserted (.error refusal), tree, floor, ledger, shape, ?_, h⟩
          rw [Tree.perform, hrefused]
          rfl
        · rcases h.perform hserves (hanywhere _) hfits.hasRoom with
            ⟨middle, shape', hperform, hmirrors⟩ | ⟨-, hinsert, -⟩
          · exact ⟨_, middle, _, _, shape', hperform, hmirrors⟩
          · rw [hother] at hinsert
            cases hinsert
      obtain ⟨reply, middle, floor', ledger', shape', hperform, hmiddle⟩ := hstep
      rw [Tree.run_cons hperform] at hrun
      exact ih hmiddle (fun later hlater => hallowed later (List.mem_cons_of_mem _ hlater))
        (hfits.rest hperform) hrun

/-- Whatever the length is and however many insertions there are, what a history
leads to mirrors a ledger. -/
theorem mirrors_of_run {unique : Bool} {requests : List (Request K V Nat)} {after : ByteTree K V}
    (hallowed : ∀ request ∈ requests, request.Allowed (· = length))
    (hfits : (Tree.empty unique).Fits insert requests)
    (hrun : (Tree.empty unique).run insert requests = .ok after) :
    ∃ floor ledger shape, Tree.Mirrors (discipline length)
      (fun key => padded length (ByteKey.bytes key)) floor after ledger shape := by
  by_cases hlength : 8 * length < 2 ^ 31
  · obtain ⟨shape, hmirrors⟩ :=
      (Tree.Mirrors.empty unique).of_run (serves hlength) hallowed hfits hrun
    exact ⟨_, _, shape, hmirrors⟩
  · exact mirrors_of_run_too_long (Nat.not_lt.mp hlength) (.empty unique) hallowed hfits hrun

/-- A tree of byte strings refines an ordered multimap of strings cut or padded to
the length that all insertions are told: all replies are those of the ledger, and
after every history the tree shows what the ledger says. -/
theorem refines_padded_ledger (hlength : 8 * length < 2 ^ 31) (unique : Bool)
    (requests : List (Request K V Nat))
    (hallowed : ∀ request ∈ requests, request.Allowed (· = length))
    (hinserts : requests.countP Request.isInsert < 2 ^ 31)
    (hfits : (Tree.empty unique).Fits insert requests) :
    ∃ replies tree ledger,
      (Ledger.empty unique).play (fun key => padded length (ByteKey.bytes key)) requests =
        (replies, ledger) ∧
      (Tree.empty unique).play insert requests = .ok (replies, tree) ∧
      tree.Shows (fun key => padded length (ByteKey.bytes key)) ledger ∧ ledger.linked.Sorted ∧
        (unique = true → (ledger.linked.map Prod.fst).Nodup) := by
  obtain ⟨tree, shape, hplay, hmirrors⟩ := play_mirrors hlength hallowed hinserts hfits
  exact hmirrors.refines hplay rfl

/-- Four strings that are the same over one byte, of which the second goes and
comes back as the last of the group. -/
private def regrouping : List (Request String String Nat) :=
  [.alloc "a" "first", .alloc "ab" "second", .alloc "ac" "third", .alloc "ad" "fourth",
    .insert ⟨0, 0⟩ 1, .insert ⟨1, 0⟩ 1, .insert ⟨2, 0⟩ 1, .insert ⟨3, 0⟩ 1, .unlink ⟨1, 0⟩,
    .insert ⟨1, 0⟩ 1]

theorem refines_padded_ledger_regrouping :
    8 * 1 < 2 ^ 31 ∧ (∀ request ∈ regrouping, request.Allowed (· = 1)) ∧
      regrouping.countP Request.isInsert < 2 ^ 31 ∧ (Tree.empty false).Fits insert regrouping ∧
      ((Ledger.empty false).play (fun key => padded 1 (ByteKey.bytes key)) regrouping).2.ids =
        [⟨0, 0⟩, ⟨2, 0⟩, ⟨3, 0⟩, ⟨1, 0⟩] ∧
      ∃ replies tree ledger,
        (Ledger.empty false).play (fun key => padded 1 (ByteKey.bytes key)) regrouping =
          (replies, ledger) ∧
        (Tree.empty false).play insert regrouping = .ok (replies, tree) ∧
        tree.Shows (fun key => padded 1 (ByteKey.bytes key)) ledger ∧ ledger.linked.Sorted ∧
          (false = true → (ledger.linked.map Prod.fst).Nodup) := by
  have hlength : 8 * 1 < 2 ^ 31 := by decide
  have hallowed : ∀ request ∈ regrouping, request.Allowed (· = 1) := by
    simp [regrouping, Request.Allowed]
  have hinserts : regrouping.countP Request.isInsert < 2 ^ 31 := by decide
  have hfits : (Tree.empty false).Fits insert regrouping := by decide +kernel
  exact ⟨hlength, hallowed, hinserts, hfits, by decide +kernel,
    refines_padded_ledger hlength false regrouping hallowed hinserts hfits⟩

end ByteTree

end ElasticTree
