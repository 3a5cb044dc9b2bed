import LinkedBTree.Proofs.Arena.Accounting
import LinkedBTree.Proofs.Arena.Numbering
import LinkedBTree.Proofs.Arena.Payloads

namespace LinkedBTree

/-! A finished copy has the form of its template, and stands apart from
whatever the arena held before. -/

variable {P σ : Type}

/-- Subtrees side by side of the same form, whose payloads are related. -/
inductive Likened (related : P → P → Prop) :
    List (Subtree P) → List (Subtree P) → Prop
  | nil : Likened related [] []
  | cons {id copy : NodeId} {payload copied : Option P}
      {children copies rest others : List (Subtree P)} :
      Option.Rel related payload copied → Likened related children copies →
      Likened related rest others →
      Likened related (.node id payload children :: rest)
        (.node copy copied copies :: others)

theorem rel_mono {related others : P → P → Prop} {payload copied : Option P}
    (rel : Option.Rel related payload copied)
    (implies : ∀ payload copied, related payload copied → others payload copied) :
    Option.Rel others payload copied := by
  cases rel with
  | none => exact .none
  | some same => exact .some (implies _ _ same)

theorem Likened.mono {related others : P → P → Prop}
    {templates copies : List (Subtree P)} (likened : Likened related templates copies)
    (implies : ∀ payload copied, related payload copied → others payload copied) :
    Likened others templates copies := by
  induction likened with
  | nil => exact .nil
  | cons payloads _ _ below beside =>
      exact .cons (rel_mono payloads implies) below beside

theorem Likened.append {related : P → P → Prop}
    {templates copies rest others : List (Subtree P)}
    (likened : Likened related templates copies) (beside : Likened related rest others) :
    Likened related (templates ++ rest) (copies ++ others) := by
  induction likened with
  | nil => exact beside
  | cons payloads below _ _ induction => exact .cons payloads below induction

structure Copier.Relates (copy : Copier σ P) (related : σ → P → P → Prop) :
    Prop where
  made : ∀ {payload copied state after},
    copy payload state = .ok copied after → related after payload copied
  kept : ∀ {payload copied state after other image},
    copy payload state = .ok copied after → related state other image →
      related after other image

open Subtree

namespace Arena

section

variable (arena : Arena P)

@[simp] theorem liveCount_attachLast (parent child : NodeId) :
    (arena.attachLast parent child).liveCount = arena.liveCount :=
  unmoved_liveCount.attachLast ..

@[simp] theorem liveCount_filled (into : NodeId) (payload : Option P) :
    (filled into payload arena).liveCount = arena.liveCount := by
  cases payload with
  | none => rfl
  | some payload => exact liveCount_modify ..

@[simp] theorem setting_filled (into : NodeId) (payload : Option P) :
    (filled into payload arena).setting = arena.setting := by
  cases payload <;> rfl

end

variable {related : σ → P → P → Prop} {copy : Copier σ P}
  {target after : Arena P} {kids others : NodeId → List NodeId}
  {templates copies : List (Subtree P)} {into : NodeId}

structure Copied (target after : Arena P) (kids others : NodeId → List NodeId)
    (into : NodeId) (copies : List (Subtree P)) : Prop where
  forest : after.Forest others
  tidy : after.Tidy
  held : ∀ copy ∈ copies, after.Holds others copy
  below : others into = kids into ++ copies.map Subtree.id
  kept : ∀ id payload, target.carried? id = some payload →
    after.carried? id = some payload ∧ (id ≠ into → others id = kids id)
  came : ∀ id payload, after.carried? id = some payload →
    (∃ old, target.carried? id = some old) ∨ ∃ copy ∈ copies, id ∈ copy.ids
  fresh : ∀ copy ∈ copies, ∀ id ∈ copy.ids, target.carried? id = none

theorem copyFrom_related (relates : copy.Relates related) {payload copied : Option P}
    {state final : σ} (done : copyFrom copy payload state = .ok copied final) :
    Option.Rel (related final) payload copied ∧
      ∀ other image, related state other image → related final other image := by
  cases payload with
  | none =>
      obtain ⟨rfl, rfl⟩ := EStateM.Result.ok.inj done
      exact ⟨.none, fun _ _ same => same⟩
  | some payload =>
      simp only [copyFrom] at done
      cases outcome : copy payload state with
      | error error after =>
          rw [outcome] at done
          cases done
      | ok made after =>
          rw [outcome] at done
          obtain ⟨rfl, rfl⟩ := EStateM.Result.ok.inj done
          exact ⟨.some (relates.made outcome),
            fun _ _ same => relates.kept outcome same⟩

theorem carried?_refilled {payload : Option P}
    (bare : target.carried? into = some none) (id : NodeId) :
    (filled into payload target).carried? id =
      if id = into then some payload else target.carried? id := by
  cases payload with
  | none =>
      simp only [filled]
      split
      · rw [‹id = into›, bare]
      · rfl
  | some payload =>
      simp only [filled]
      rw [carried?_modify]
      by_cases same : id = into
      · simp [same, bare]
      · simp [same]

theorem Tidy.filled (tidy : target.Tidy) (into : NodeId) (payload : Option P) :
    (Arena.filled into payload target).Tidy := by
  cases payload with
  | none => exact tidy
  | some payload => exact tidy.modify into _

structure Sprouts (target sprouted : Arena P) (kids : NodeId → List NodeId)
    (fresh : NodeId) (payload : Option P) : Prop where
  forest : sprouted.Forest kids
  tidy : sprouted.Tidy
  dead : target.carried? fresh = none
  numbered : Numbered target sprouted [fresh]
  carried : ∀ id, sprouted.carried? id =
    if id = fresh then some payload else target.carried? id
  setting : sprouted.setting = target.setting
  liveCount : sprouted.liveCount = target.liveCount + 1

namespace Sprouts

variable {sprouted grown : Arena P} {fresh : NodeId} {payload old : Option P}

theorem of_allocate (forest : target.Forest kids) (tidy : target.Tidy)
    (allocated : Arena.allocate none target = .ok fresh grown) :
    Sprouts target grown kids fresh none := by
  obtain ⟨dead, lookup⟩ := node?_allocate allocated
  have unchanged := setting_allocate none target
  rw [allocated, reached_ok] at unchanged
  refine ⟨forest.allocate allocated, tidy.allocate allocated, ?_, .allocate allocated,
    fun id => ?_, unchanged, tidy.liveCount_allocate allocated⟩
  · rw [carried?, dead]
    rfl
  · rw [carried?, lookup]
    split <;> rfl

theorem placed (sprouts : Sprouts target sprouted kids fresh payload) :
    sprouted.carried? fresh = some payload := by
  rw [sprouts.carried, if_pos rfl]

theorem filled (sprouts : Sprouts target sprouted kids fresh none) (payload : Option P) :
    Sprouts target (Arena.filled fresh payload sprouted) kids fresh payload := by
  refine ⟨sprouts.forest.filled fresh payload, sprouts.tidy.filled fresh payload,
    sprouts.dead, sprouts.numbered.filled fresh payload, fun id => ?_, ?_, ?_⟩
  · rw [carried?_refilled sprouts.placed, sprouts.carried]
    split <;> rfl
  · rw [setting_filled, sprouts.setting]
  · rw [liveCount_filled, sprouts.liveCount]

theorem kept (sprouts : Sprouts target sprouted kids fresh payload) {id : NodeId}
    {carried : Option P} (known : target.carried? id = some carried) :
    id ≠ fresh ∧ sprouted.carried? id = some carried := by
  have different : id ≠ fresh := by
    rintro rfl
    cases known.symm.trans sprouts.dead
  exact ⟨different, by rw [sprouts.carried, if_neg different, known]⟩

theorem childless (sprouts : Sprouts target sprouted others fresh payload)
    (forest : target.Forest kids) : kids fresh = [] := by
  apply forest.none_of_dead
  cases found : target.node? fresh with
  | none => rfl
  | some node => cases sprouts.dead.symm.trans (carried?_of_node? found)

theorem attached (sprouts : Sprouts target grown kids fresh none)
    (forest : target.Forest kids) (isLive : target.carried? into = some old)
    (allocated : Arena.allocate none target = .ok fresh grown) :
    Sprouts target (grown.attachLast into fresh)
      (Function.update kids into (kids into ++ [fresh])) fresh none := by
  obtain ⟨parentNode, parentFound, _⟩ := carried?_eq_some.mp isLive
  refine ⟨forest.sprout parentFound allocated, sprouts.tidy.attachLast into fresh,
    sprouts.dead, sprouts.numbered.attachLast into fresh, fun id => ?_, ?_, ?_⟩
  · rw [carried?_attachLast, sprouts.carried]
  · rw [setting_attachLast, sprouts.setting]
  · rw [liveCount_attachLast, sprouts.liveCount]

end Sprouts

namespace Copied

variable {between : Arena P} {middle : NodeId → List NodeId} {rest : List (Subtree P)}
  {old : Option P}

theorem nil (forest : after.Forest kids) (tidy : after.Tidy)
    (same : ∀ id, after.carried? id = target.carried? id) :
    Copied target after kids kids into [] where
  forest := forest
  tidy := tidy
  held := fun _ member => nomatch member
  below := (List.append_nil _).symm
  kept := fun id _ known => ⟨(same id).trans known, fun _ => rfl⟩
  came := fun id _ known => .inl ⟨_, (same id).symm.trans known⟩
  fresh := fun _ member => nomatch member

theorem append (isLive : target.carried? into = some old)
    (first : Copied target between kids middle into copies)
    (second : Copied between after middle others into rest) :
    Copied target after kids others into (copies ++ rest) := by
  refine ⟨second.forest, second.tidy, ?_, ?_, ?_, ?_, ?_⟩
  · intro copy member
    rcases List.mem_append.mp member with earlier | later
    · apply (first.held copy earlier).frame
      intro id inside carried known
      obtain ⟨known, same⟩ := second.kept id carried known
      refine ⟨known, same ?_⟩
      rintro rfl
      cases isLive.symm.trans (first.fresh copy earlier id inside)
    · exact second.held copy later
  · rw [second.below, first.below, List.map_append, List.append_assoc]
  · intro id carried known
    obtain ⟨known, sameFirst⟩ := first.kept id carried known
    obtain ⟨known, sameSecond⟩ := second.kept id carried known
    exact ⟨known, fun different =>
      (sameSecond different).trans (sameFirst different)⟩
  · intro id carried known
    rcases second.came id carried known with ⟨_, known⟩ | ⟨copy, member, inside⟩
    · exact (first.came id _ known).imp_right fun ⟨copy, member, inside⟩ =>
        ⟨copy, List.mem_append_left _ member, inside⟩
    · exact .inr ⟨copy, List.mem_append_right _ member, inside⟩
  · intro copy member id inside
    rcases List.mem_append.mp member with earlier | later
    · exact first.fresh copy earlier id inside
    · cases known : target.carried? id with
      | none => rfl
      | some carried =>
          obtain ⟨known, _⟩ := first.kept id carried known
          cases (second.fresh copy later id inside).symm.trans known

theorem node {sprouted : Arena P} {fresh : NodeId} {payload : Option P}
    (forest : target.Forest kids) (isLive : target.carried? into = some old)
    (sprouts : Sprouts target sprouted
      (Function.update kids into (kids into ++ [fresh])) fresh payload)
    (copied : Copied sprouted after
      (Function.update kids into (kids into ++ [fresh])) others fresh copies) :
    Copied target after kids others into [.node fresh payload copies] := by
  have different := (sprouts.kept isLive).1
  refine ⟨copied.forest, copied.tidy, ?_, ?_, ?_, ?_, ?_⟩
  · intro copy member
    obtain rfl := List.mem_singleton.mp member
    refine holds_node.mpr ⟨(copied.kept fresh payload sprouts.placed).1, ?_, copied.held⟩
    rw [copied.below, Function.update_of_ne different.symm, sprouts.childless forest,
      List.nil_append]
  · rw [(copied.kept into old (sprouts.kept isLive).2).2 different, Function.update_self]
    rfl
  · intro id carried known
    obtain ⟨notFresh, known⟩ := sprouts.kept known
    obtain ⟨known, same⟩ := copied.kept id carried known
    refine ⟨known, fun notInto => ?_⟩
    rw [same notFresh, Function.update_of_ne notInto]
  · intro id carried known
    rcases copied.came id carried known with ⟨_, known⟩ | ⟨copy, member, inside⟩
    · rw [sprouts.carried] at known
      split at known
      · exact .inr ⟨_, List.mem_singleton_self _, by simp [‹id = fresh›]⟩
      · exact .inl ⟨_, known⟩
    · refine .inr ⟨_, List.mem_singleton_self _, ?_⟩
      rw [ids_node, List.mem_cons]
      exact .inr (List.mem_flatMap.mpr ⟨copy, member, inside⟩)
  · intro copy member id inside
    obtain rfl := List.mem_singleton.mp member
    rw [ids_node, List.mem_cons] at inside
    rcases inside with rfl | below
    · exact sprouts.dead
    · obtain ⟨child, isChild, inside⟩ := List.mem_flatMap.mp below
      have gone := copied.fresh child isChild id inside
      rw [sprouts.carried] at gone
      split at gone
      · cases gone
      · exact gone

end Copied

end Arena

end LinkedBTree
