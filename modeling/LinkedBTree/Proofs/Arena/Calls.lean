import LinkedBTree.Proofs.Outcome
import LinkedBTree.Proofs.Arena.Lookup

namespace LinkedBTree.Arena

/-! What a call that succeeds has found on its way, and what it comes to. -/

variable {P σ : Type} {arena after : Arena P} {parent child id : NodeId}

theorem checkUnlinked_eq_ok {node : Node P} :
    arena.checkUnlinked id = .ok node ↔
      arena.node? id = some node ∧ node.isLinked = false := by
  unfold checkUnlinked
  rw [bind_eq_ok]
  constructor
  · rintro ⟨found, isRead, rest⟩
    obtain ⟨unlinked, rest⟩ := guard_eq_ok.mp rest
    cases rest
    exact ⟨(read_eq_ok_iff ..).mp isRead, eq_false_of_ne_true unlinked⟩
  · rintro ⟨found, unlinked⟩
    exact ⟨node, read_eq found, guard_eq_ok.mpr ⟨ne_true_of_eq_false unlinked, rfl⟩⟩

theorem appended_eq_ok :
    arena.appended parent child = .ok ((), after) ↔
      arena.checkNotAbove child parent = .ok () ∧
      (∃ parentNode, arena.node? parent = some parentNode) ∧
      (∃ childNode, arena.checkUnlinked child = .ok childNode) ∧
      after = arena.attachLast parent child := by
  unfold appended
  simp only [bind_eq_ok, read_eq_ok_iff]
  constructor
  · rintro ⟨_, apart, parentNode, isLive, childNode, unlinked, done⟩
    exact ⟨apart, ⟨_, isLive⟩, ⟨_, unlinked⟩, (Prod.mk.inj (Except.ok.inj done)).2.symm⟩
  · rintro ⟨apart, ⟨parentNode, isLive⟩, ⟨childNode, unlinked⟩, rfl⟩
    exact ⟨(), apart, parentNode, isLive, childNode, unlinked, rfl⟩

theorem inserted_eq_ok {compare : Comparator σ P} {unique : Bool} {before final : σ}
    {outcome : Bool × Arena P} :
    arena.inserted parent child compare unique before = .ok outcome final ↔
      arena.checkNotAbove child parent = .ok () ∧
      ∃ parentNode childNode payload spot, arena.node? parent = some parentNode ∧
        arena.checkUnlinked child = .ok childNode ∧
        childNode.payload = some payload ∧
        follow (arena.spotStep payload compare unique) arena.visits
          parentNode.firstChild before = .ok spot final ∧
        match spot with
        | .duplicate => outcome = (false, arena)
        | .last => outcome = (true, arena.attachLast parent child)
        | .before sibling => ∃ node, arena.node? sibling = some node ∧
            outcome = (true, arena.attach parent child node.previous (some sibling)) := by
  unfold inserted
  simp only [run_lift_bind_eq_ok, read_eq_ok_iff]
  constructor
  · rintro ⟨_, apart, parentNode, isLive, childNode, unlinked, done⟩
    cases carried : childNode.payload with
    | none =>
        simp only [carried] at done
        cases done
    | some payload =>
        simp only [carried] at done
        obtain ⟨spot, between, spotted, done⟩ := run_bind_eq_ok.mp done
        cases spot with
        | duplicate =>
            obtain ⟨rfl, rfl⟩ := EStateM.Result.ok.inj done
            exact ⟨apart, parentNode, childNode, payload, .duplicate, isLive, unlinked,
              carried, spotted, rfl⟩
        | last =>
            obtain ⟨rfl, rfl⟩ := EStateM.Result.ok.inj done
            exact ⟨apart, parentNode, childNode, payload, .last, isLive, unlinked,
              carried, spotted, rfl⟩
        | before sibling =>
            obtain ⟨node, isSibling, done⟩ := run_lift_bind_eq_ok.mp done
            obtain ⟨rfl, rfl⟩ := EStateM.Result.ok.inj done
            exact ⟨apart, parentNode, childNode, payload, .before sibling, isLive,
              unlinked, carried, spotted, node, (read_eq_ok_iff ..).mp isSibling, rfl⟩
  · rintro ⟨apart, parentNode, childNode, payload, spot, isLive, unlinked, carried, spotted,
      ends⟩
    refine ⟨(), apart, parentNode, isLive, childNode, unlinked, ?_⟩
    simp only [carried]
    refine run_bind_eq_ok.mpr ⟨spot, final, spotted, ?_⟩
    cases spot with
    | duplicate =>
        obtain rfl := ends
        rfl
    | last =>
        obtain rfl := ends
        rfl
    | before sibling =>
        obtain ⟨node, isSibling, rfl⟩ := ends
        exact run_lift_bind_eq_ok.mpr ⟨node, read_eq isSibling, rfl⟩

theorem replaced_eq_ok {old new : NodeId} :
    arena.replaced old new = .ok ((), after) ↔
      old ≠ new ∧ ∃ oldNode parent newNode, arena.node? old = some oldNode ∧
        oldNode.parent = some parent ∧
        arena.checkNotAbove new parent = .ok () ∧
        arena.checkUnlinked new = .ok newNode ∧
        after = (arena.modify old Node.unlinked).place parent new
          oldNode.previous oldNode.next := by
  unfold replaced
  refine guard_eq_ok.trans (and_congr_right fun _ => ?_)
  simp only [bind_eq_ok, read_eq_ok_iff]
  constructor
  · rintro ⟨oldNode, found, done⟩
    cases above : oldNode.parent with
    | none =>
        simp only [above] at done
        cases done
    | some parent =>
        simp only [above, bind_eq_ok] at done
        obtain ⟨_, apart, newNode, unlinked, done⟩ := done
        exact ⟨oldNode, parent, newNode, found, above, apart, unlinked,
          (Prod.mk.inj (Except.ok.inj done)).2.symm⟩
  · rintro ⟨oldNode, parent, newNode, found, above, apart, unlinked, rfl⟩
    refine ⟨oldNode, found, ?_⟩
    simp only [above, bind_eq_ok]
    exact ⟨(), apart, newNode, unlinked, rfl⟩

theorem removed_eq_ok :
    arena.removed parent child = .ok ((), after) ↔
      parent ≠ child ∧ (∃ parentNode, arena.node? parent = some parentNode) ∧
        ∃ childNode, arena.node? child = some childNode ∧
          childNode.parent = some parent ∧
          after = arena.detach parent child childNode.previous childNode.next := by
  unfold removed
  refine guard_eq_ok.trans (and_congr_right fun _ => ?_)
  simp only [bind_eq_ok, read_eq_ok_iff]
  constructor
  · rintro ⟨parentNode, isLive, childNode, found, done⟩
    obtain ⟨above, done⟩ := guard_eq_ok.mp done
    exact ⟨⟨_, isLive⟩, childNode, found, Decidable.not_not.mp above,
      (Prod.mk.inj (Except.ok.inj done)).2.symm⟩
  · rintro ⟨⟨parentNode, isLive⟩, childNode, found, above, rfl⟩
    exact ⟨parentNode, isLive, childNode, found,
      guard_eq_ok.mpr ⟨not_not_intro above, rfl⟩⟩

theorem collapsed_eq_ok {old : Option P} :
    arena.collapsed id = .ok (old, after) ↔
      ∃ node child childNode grandchildren, arena.node? id = some node ∧
        node.childCount = 1 ∧ node.firstChild = some child ∧
        arena.node? child = some childNode ∧
        arena.childList childNode = .ok grandchildren ∧
        old = node.payload ∧
        after = (((arena.adopt id grandchildren).modify id
          ({ · with payload := childNode.payload })).discard child).count .collapses := by
  unfold collapsed
  simp only [bind_eq_ok, read_eq_ok_iff]
  constructor
  · rintro ⟨node, found, done⟩
    obtain ⟨single, done⟩ := guard_eq_ok.mp done
    cases first : node.firstChild with
    | none =>
        simp only [first] at done
        cases done
    | some child =>
        simp only [first, bind_eq_ok, read_eq_ok_iff] at done
        obtain ⟨childNode, isChild, grandchildren, listed, done⟩ := done
        obtain ⟨rfl, rfl⟩ := Prod.mk.inj (Except.ok.inj done)
        exact ⟨node, child, childNode, grandchildren, found, Decidable.not_not.mp single, first,
          isChild, listed, rfl, rfl⟩
  · rintro ⟨node, child, childNode, grandchildren, found, single, first, isChild, listed,
      rfl, rfl⟩
    refine ⟨node, found, guard_eq_ok.mpr ⟨not_not_intro single, ?_⟩⟩
    simp only [first, bind_eq_ok, read_eq_ok_iff]
    exact ⟨childNode, isChild, grandchildren, listed, rfl⟩

theorem released_eq_ok {outcome : List P × Arena P} :
    arena.released id = .ok outcome ↔
      (∃ node, arena.node? id = some node ∧ node.isLinked = false) ∧
        ∃ ids, arena.preorder id = .ok ids ∧ outcome = arena.discardAll ids.reverse := by
  unfold released
  simp only [bind_eq_ok, read_eq_ok_iff]
  constructor
  · rintro ⟨node, found, done⟩
    obtain ⟨unlinked, done⟩ := guard_eq_ok.mp done
    obtain ⟨ids, listed, done⟩ := bind_eq_ok.mp done
    exact ⟨⟨node, found, eq_false_of_ne_true unlinked⟩, ids, listed,
      (Except.ok.inj done).symm⟩
  · rintro ⟨⟨node, found, unlinked⟩, ids, listed, rfl⟩
    exact ⟨node, found, guard_eq_ok.mpr
      ⟨ne_true_of_eq_false unlinked, bind_eq_ok.mpr ⟨ids, listed, rfl⟩⟩⟩

end LinkedBTree.Arena
