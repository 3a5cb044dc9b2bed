import LinkedBTree.Proofs.Arena.Replica

namespace LinkedBTree.Arena

/-! Copying subtrees to below a node, in an arena that may run full and with a
copier that may fail. -/

variable {P σ : Type}

open Subtree

/-- The copies are finished: they have the form of their templates, and carry what
the copier made of the payloads, each asked for once and in preorder. -/
structure Made (copy : Copier σ P) (related : σ → P → P → Prop)
    (target after : Arena P) (kids others : NodeId → List NodeId) (into : NodeId)
    (templates copies : List (Subtree P)) (state final : σ) : Prop where
  copied : Copied target after kids others into copies
  likened : Likened (related final) templates copies
  related : ∀ payload image, related state payload image → related final payload image
  transcribed : transcribeAll copy (templates.flatMap payloads) state =
    .ok (copies.flatMap payloads) final
  numbered : Numbered target after (copies.flatMap ids)
  setting : after.setting = target.setting
  liveCount : after.liveCount = target.liveCount + (templates.flatMap ids).length

/-- Either the copies are finished and the rest follows, or it is over. Then there
are copies as far as the copier got. -/
inductive Ends (copy : Copier σ P) (related : σ → P → P → Prop) (target : Arena P)
    (kids : NodeId → List NodeId) (into : NodeId) (templates : List (Subtree P))
    (state : σ) (rest : Arena P × σ → EStateM.Result Error (Arena P × σ) Unit) :
    EStateM.Result Error (Arena P × σ) Unit → Prop
  | made {after between others copies}
      (made : Made copy related target after kids others into templates copies state
        between) :
      Ends copy related target kids into templates state rest (rest (after, between))
  | broke {error after between others copies}
      (copied : Copied target after kids others into copies)
      (breaks : Breaks copy (.cause (.arenaExhausted target.capacity)) target.spare
        (templates.flatMap payloads) state (copies.flatMap payloads) error between) :
      Ends copy related target kids into templates state rest
        (.error error (after, between))

/-- A walk copies these templates to below a node first, and then goes on. -/
def Walks (source : Arena P) (copy : Copier σ P) (related : σ → P → P → Prop)
    (templates : List (Subtree P)) : Prop :=
  ∀ ⦃target : Arena P⦄ ⦃kids : NodeId → List NodeId⦄ ⦃into : NodeId⦄ ⦃old : Option P⦄,
    target.Forest kids → target.Tidy → target.carried? into = some old →
    ∀ (state : σ) (spare : Nat) (pending : List (NodeId × NodeId)),
      Ends copy related target kids into templates state
        (exhaust (Copying.visit source copy) spare () pending)
        (exhaust (Copying.visit source copy)
          ((templates.flatMap ids).length + spare) ()
          (templates.map (fun template => (template.id, into)) ++ pending)
          (target, state))

variable {source target after between : Arena P} {copy : Copier σ P}
  {related : σ → P → P → Prop} {kids middle others : NodeId → List NodeId}
  {into : NodeId} {templates copies more images : List (Subtree P)}
  {state last final : σ} {old : Option P}

theorem Copying.run_visit_of_allocate {node : Node P} {children : List NodeId}
    {template fresh : NodeId} {grown : Arena P} (forest : target.Forest kids)
    (isLive : target.contains into = true)
    (found : source.node? template = some node)
    (listed : source.childList node = .ok children)
    (allocated : Arena.allocate none target = .ok fresh grown) (state : σ) :
    visit source copy () (template, into) (target, state) =
      match transcribe copy node.payload state with
      | .ok made final => .ok ((), children.map (·, fresh))
          (filled fresh made (grown.attachLast into fresh), final)
      | .error error final => .error error (grown.attachLast into fresh, final) := by
  rw [run_visit _ _ _ forest isLive, transcribe]
  simp only [allocated, read_eq found, run_fill _ _ _ (contains_hung allocated into), listed]
  cases copyFrom copy node.payload state <;> rfl

theorem Tidy.liveCount_le (tidy : target.Tidy) : target.liveCount ≤ target.capacity :=
  Nat.le_trans (Nat.sub_le ..) tidy.bounded

theorem Tidy.spare_eq_zero {stopped : Arena P} {error : Error} (tidy : target.Tidy)
    (failed : Arena.allocate none target = .error error stopped) : target.spare = 0 := by
  refine Nat.sub_eq_zero_of_le (Nat.le_of_not_lt fun room => ?_)
  obtain ⟨_, _, again⟩ := (tidy.allocate_iff none).mpr room
  cases failed.symm.trans again

theorem length_payloads (templates : List (Subtree P)) :
    (templates.flatMap payloads).length = (templates.flatMap ids).length := by
  simp only [List.length_flatMap, Subtree.length_payloads]

theorem spare_of_grown {number : Nat} (tidy : after.Tidy)
    (setting : after.setting = target.setting)
    (liveCount : after.liveCount = target.liveCount + number) :
    target.spare = number + after.spare := by
  have bounded := tidy.liveCount_le
  unfold spare
  rw [capacity_of_setting setting] at bounded ⊢
  omega

namespace Made

theorem nil (forest : target.Forest kids) (tidy : target.Tidy) (state : σ) :
    Made copy related target target kids kids into [] [] state state where
  copied := .nil forest tidy fun _ => rfl
  likened := .nil
  related := fun _ _ same => same
  transcribed := rfl
  numbered := .refl target
  setting := rfl
  liveCount := rfl

theorem append (isLive : target.carried? into = some old)
    (first : Made copy related target between kids middle into templates copies state
      last)
    (second : Made copy related between after middle others into more images last
      final) :
    Made copy related target after kids others into (templates ++ more)
      (copies ++ images) state final where
  copied := first.copied.append isLive second.copied
  likened := (first.likened.mono second.related).append second.likened
  related payload image same := second.related _ _ (first.related payload image same)
  transcribed := by
    rw [List.flatMap_append, transcribeAll_append_of_ok first.transcribed, run_map,
      second.transcribed, List.flatMap_append]
  numbered := by
    rw [List.flatMap_append]
    exact first.numbered.append second.numbered
  setting := second.setting.trans first.setting
  liveCount := by
    rw [second.liveCount, first.liveCount, List.flatMap_append, List.length_append,
      Nat.add_assoc]

theorem node {sprouted : Arena P} {id fresh : NodeId} {payload image : Option P}
    (relates : copy.Relates related) (forest : target.Forest kids)
    (isLive : target.carried? into = some old)
    (sprouts : Sprouts target sprouted
      (Function.update kids into (kids into ++ [fresh])) fresh image)
    (asked : transcribe copy payload state = .ok image last)
    (below : Made copy related sprouted after
      (Function.update kids into (kids into ++ [fresh])) others fresh templates copies
      last final) :
    Made copy related target after kids others into [.node id payload templates]
      [.node fresh image copies] state final := by
  obtain ⟨payloads, first⟩ := copyFrom_related relates asked
  refine ⟨below.copied.node forest isLive sprouts,
    .cons (rel_mono payloads below.related) below.likened .nil,
    fun _ _ same => below.related _ _ (first _ _ same), ?_, ?_,
    below.setting.trans sprouts.setting, ?_⟩
  · rw [List.flatMap_singleton, List.flatMap_singleton, payloads_node, payloads_node,
      transcribeAll_cons_of_ok asked, run_map, below.transcribed]
  · rw [List.flatMap_singleton, ids_node]
    exact sprouts.numbered.append below.numbered
  · rw [below.liveCount, sprouts.liveCount, List.flatMap_singleton, ids_node,
      List.length_cons]
    omega

end Made

namespace Walks

theorem nil : Walks source copy related [] := by
  intro target kids into old forest tidy isLive state spare pending
  rw [List.flatMap_nil, List.length_nil, Nat.zero_add, List.map_nil, List.nil_append]
  exact .made (.nil forest tidy state)

theorem append (first : Walks source copy related templates)
    (second : Walks source copy related more) :
    Walks source copy related (templates ++ more) := by
  intro target kids into old forest tidy isLive state spare pending
  rw [List.flatMap_append, List.length_append, Nat.add_assoc, List.map_append,
    List.append_assoc]
  have ends := first forest tidy isLive state ((more.flatMap ids).length + spare)
    (more.map (fun template => (template.id, into)) ++ pending)
  generalize exhaust (Copying.visit source copy) _ () _ (target, state) = outcome
    at ends ⊢
  cases ends with
  | @made between last middle copies made =>
      have copied := made.copied
      have room := spare_of_grown copied.tidy made.setting made.liveCount
      have ends := second copied.forest copied.tidy (copied.kept into old isLive).1 last
        spare pending
      generalize exhaust (Copying.visit source copy) _ () _ (between, last) = outcome
        at ends ⊢
      cases ends with
      | made again => exact .made (made.append isLive again)
      | broke beside breaks =>
          refine .broke (copied.append isLive beside) ?_
          rw [capacity_of_setting made.setting] at breaks
          rw [room, ← length_payloads, List.flatMap_append, List.flatMap_append]
          exact breaks.prepend made.transcribed
  | broke copied breaks =>
      refine .broke copied ?_
      rw [List.flatMap_append]
      exact breaks.append _

theorem node {sources : NodeId → List NodeId} {id : NodeId} {payload : Option P}
    (form : source.Forest sources) (relates : copy.Relates related)
    (held : source.Holds sources (.node id payload templates))
    (below : Walks source copy related templates) :
    Walks source copy related [.node id payload templates] := by
  intro target kids into old forest tidy isLive state spare pending
  obtain ⟨carried, listed, _⟩ := holds_node.mp held
  obtain ⟨node, found, rfl⟩ := carried?_eq_some.mp carried
  rw [List.flatMap_singleton, ids_node, List.length_cons, Nat.add_right_comm,
    List.map_singleton, List.singleton_append, id_node, exhaust_cons, run_bind]
  cases allocated : Arena.allocate none target with
  | error error stopped =>
      obtain ⟨stillTidy, rfl⟩ := tidy.allocate_error allocated
      have same : ∀ id, stopped.carried? id = target.carried? id := by
        intro id
        rw [carried?, carried?, node?, node?, node?_allocate_error allocated]
      rw [Copying.run_visit _ _ _ forest (contains_of_carried? isLive)]
      simp only [allocated]
      refine .broke (.nil (forest.allocate_error allocated) stillTidy same) ?_
      rw [tidy.spare_eq_zero allocated, List.flatMap_singleton, payloads_node]
      exact .full
  | ok fresh grown =>
      have sprouts := ((Sprouts.of_allocate forest tidy allocated).attached forest isLive
        allocated).filled
      have room : ∀ image, target.spare =
          (filled fresh image (grown.attachLast into fresh)).spare + 1 := fun image =>
        (spare_of_grown (sprouts image).tidy (sprouts image).setting
          (sprouts image).liveCount).trans (Nat.add_comm ..)
      rw [Copying.run_visit_of_allocate forest (contains_of_carried? isLive) found
        (form.childList_eq found) allocated]
      cases asked : transcribe copy node.payload state with
      | error error last =>
          have bare : Copied _ _ _ _ fresh [] :=
            .nil (sprouts none).forest (sprouts none).tidy fun _ => rfl
          refine .broke (bare.node forest isLive (sprouts none)) ?_
          rw [room none, List.flatMap_singleton, payloads_node, List.flatMap_singleton,
            payloads_node, List.flatMap_nil]
          exact .refused asked
      | ok image last =>
          have ends := below (sprouts image).forest (sprouts image).tidy
            (sprouts image).placed last spare pending
          have isNext : (sources id).map (·, fresh) =
              templates.map (fun template => (template.id, fresh)) := by
            rw [listed, List.map_map]
            rfl
          simp only [isNext]
          generalize exhaust (Copying.visit source copy) _ () _ (_, last) = outcome
            at ends ⊢
          cases ends with
          | made made => exact .made (made.node relates forest isLive (sprouts image) asked)
          | broke copied breaks =>
              refine .broke (copied.node forest isLive (sprouts image)) ?_
              rw [capacity_of_setting (sprouts image).setting] at breaks
              rw [room image, List.flatMap_singleton, payloads_node,
                List.flatMap_singleton, payloads_node]
              exact .later asked breaks

end Walks

private theorem walks_of_each (each : ∀ template ∈ templates,
    Walks source copy related [template]) : Walks source copy related templates := by
  induction templates with
  | nil => exact Walks.nil
  | cons template rest induction =>
      exact Walks.append (each template List.mem_cons_self)
        (induction fun other member => each other (List.mem_cons_of_mem _ member))

/-- The induction follows the templates: what is below a node is copied before what
is beside it. -/
theorem Forest.walks {sources : NodeId → List NodeId} (form : source.Forest sources)
    (relates : copy.Relates related)
    (held : ∀ template ∈ templates, source.Holds sources template) :
    Walks source copy related templates := by
  refine walks_of_each fun template member => ?_
  have heldBelow := held template member
  clear member held
  induction template with
  | node id payload children induction =>
      refine Walks.node form relates heldBelow (walks_of_each fun child isChild => ?_)
      exact induction child isChild ((holds_node.mp heldBelow).2.2 child isChild)

/-- `after` holds what `target` held, as it was, and more apart from it. -/
structure Extended (target after : Arena P) (kids others : NodeId → List NodeId) :
    Prop where
  forest : after.Forest others
  kept : ∀ id payload, target.carried? id = some payload →
    after.carried? id = some payload ∧ others id = kids id
  apart : ∀ id, target.carried? id = none → ∀ child ∈ others id,
    target.carried? child = none

theorem Extended.node?_eq {id : NodeId} {node : Node P}
    (extended : Extended target after kids others) (forest : target.Forest kids)
    (found : target.node? id = some node) : after.node? id = some node := by
  obtain ⟨carried, below⟩ := extended.kept id _ (carried?_of_node? found)
  obtain ⟨again, isFound, samePayload⟩ := carried?_eq_some.mp carried
  have links := forest.links_eq extended.forest found isFound below ?_
  · rw [isFound, links, samePayload]
  rintro parent (member | member)
  · obtain ⟨parentNode, isLive⟩ := forest.parent_live member
    exact (extended.kept parent _ (carried?_of_node? isLive)).2
  · cases known : target.carried? parent with
    | none =>
        cases (carried?_of_node? found).symm.trans
          (extended.apart parent known id member)
    | some payload => exact (extended.kept parent payload known).2

/-- `image` is all that `after` holds beyond what `target` held. -/
structure Replicated (target after : Arena P) (others : NodeId → List NodeId)
    (image : Subtree P) : Prop where
  forest : after.Forest others
  tidy : after.Tidy
  held : after.Holds others image
  top : ∀ node, after.node? image.id = some node → node.parent = none
  fresh : ∀ id ∈ image.ids, target.node? id = none
  lookup : ∀ id, id ∉ image.ids → after.node? id = target.node? id

theorem carried?_eq_none {id : NodeId} :
    target.carried? id = none ↔ target.node? id = none :=
  Option.map_eq_none_iff

theorem Copied.replicated {planted : Arena P} {root : NodeId} {payload : Option P}
    (forest : target.Forest kids)
    (sprouts : Sprouts target planted kids root payload)
    (copied : Copied planted after kids others root copies) :
    Replicated target after others (.node root payload copies) := by
  have below : others root = copies.map Subtree.id := by
    rw [copied.below, sprouts.childless forest, List.nil_append]
  have fresh : ∀ id ∈ (Subtree.node root payload copies).ids,
      target.carried? id = none := by
    intro id member
    rw [ids_node, List.mem_cons] at member
    rcases member with rfl | deeper
    · exact sprouts.dead
    · obtain ⟨copy, isCopy, inside⟩ := List.mem_flatMap.mp deeper
      have dead := copied.fresh copy isCopy id inside
      rw [sprouts.carried] at dead
      split at dead
      · cases dead
      · exact dead
  have held : after.Holds others (.node root payload copies) :=
    holds_node.mpr ⟨(copied.kept root payload sprouts.placed).1, below, copied.held⟩
  have known : ∀ id carried, target.carried? id = some carried →
      after.carried? id = some carried ∧ others id = kids id := by
    intro id carried known
    obtain ⟨different, known⟩ := sprouts.kept known
    obtain ⟨known, same⟩ := copied.kept id carried known
    exact ⟨known, same different⟩
  have came : ∀ id carried, after.carried? id = some carried →
      (∃ old, target.carried? id = some old) ∨
        id ∈ (Subtree.node root payload copies).ids := by
    intro id carried known
    rw [ids_node, List.mem_cons, List.mem_flatMap]
    rcases copied.came id carried known with ⟨_, known⟩ | within
    · rw [sprouts.carried] at known
      split at known
      · exact .inr (.inl ‹_›)
      · exact .inl ⟨_, known⟩
    · exact .inr (.inr within)
  -- Whatever is below a new node is new itself.
  have extended : Extended target after kids others := by
    refine ⟨copied.forest, known, fun id dead child member => ?_⟩
    obtain ⟨node, found⟩ := copied.forest.parent_live member
    rcases came id _ (carried?_of_node? found) with ⟨_, old⟩ | inside
    · cases old.symm.trans dead
    · exact fresh child (held.mem_of_kids inside member)
  refine ⟨copied.forest, copied.tidy, held, fun node found => ?_,
    fun id member => carried?_eq_none.mp (fresh id member), fun id outside => ?_⟩
  · cases above : node.parent with
    | none => rfl
    | some parent =>
        have listed := copied.forest.listed found above
        obtain ⟨parentNode, isLive⟩ := copied.forest.parent_live listed
        rcases came parent _ (carried?_of_node? isLive) with ⟨_, old⟩ | inside
        · rw [(known parent _ old).2] at listed
          obtain ⟨_, isOld, _⟩ := forest.of_mem listed
          cases (carried?_of_node? isOld).symm.trans sprouts.dead
        · rw [ids_node, List.mem_cons] at inside
          rcases inside with rfl | deeper
          · exact absurd listed copied.forest.not_mem_self
          · obtain ⟨copy, isCopy, inside⟩ := List.mem_flatMap.mp deeper
            have isBelow := (copied.held copy isCopy).mem_of_kids inside listed
            cases (copied.fresh copy isCopy root isBelow).symm.trans sprouts.placed
  · cases found : target.node? id with
    | some node => exact extended.node?_eq forest found
    | none =>
        cases again : after.node? id with
        | none => rfl
        | some node =>
            rcases came id _ (carried?_of_node? again) with ⟨_, old⟩ | inside
            · cases old.symm.trans (carried?_eq_none.mpr found)
            · exact absurd inside outside

structure Duplicate (copy : Copier σ P) (related : σ → P → P → Prop)
    (target after : Arena P) (others : NodeId → List NodeId)
    (template image : Subtree P) (state final : σ) : Prop
    extends Replicated target after others image where
  likened : Likened (related final) [template] [image]
  transcribed : transcribeAll copy template.payloads state = .ok image.payloads final
  numbered : Numbered target after image.ids
  setting : after.setting = target.setting
  liveCount : after.liveCount = target.liveCount + template.ids.length

theorem Forest.fillAll_ends {sources : NodeId → List NodeId} {template : Subtree P}
    {node : Node P} {root : NodeId} {grown : Arena P} (form : source.Forest sources)
    (relates : copy.Relates related) (held : source.Holds sources template)
    (found : source.node? template.id = some node) (forest : target.Forest kids)
    (tidy : target.Tidy) (allocated : Arena.allocate none target = .ok root grown)
    (state : σ) :
    (∃ after last others image,
      Copying.fillAll source copy node root (grown, state) = .ok () (after, last) ∧
      image.id = root ∧
      Duplicate copy related target after others template image state last) ∨
    ∃ error after last others image,
      Copying.fillAll source copy node root (grown, state) =
        .error error (after, last) ∧
      image.id = root ∧ Replicated target after others image ∧
      Breaks copy (.cause (.arenaExhausted target.capacity)) target.spare
        template.payloads state image.payloads error last := by
  obtain ⟨id, payload, children⟩ := template
  obtain ⟨carried, below, heldBelow⟩ := holds_node.mp held
  obtain ⟨_, isNode, rfl⟩ := carried?_eq_some.mp carried
  obtain rfl := Option.some.inj (found.symm.trans isNode)
  have planted := Sprouts.of_allocate forest tidy allocated
  have room : target.spare = grown.spare + 1 :=
    (spare_of_grown planted.tidy planted.setting planted.liveCount).trans (Nat.add_comm ..)
  unfold Copying.fillAll
  rw [run_bind, Copying.run_fill _ _ _ (contains_of_carried? planted.placed),
    form.childList_eq isNode, payloads_node]
  cases asked : copyFrom copy node.payload state with
  | error error last =>
      have bare : Copied grown grown kids kids root [] :=
        .nil planted.forest planted.tidy fun _ => rfl
      refine .inr ⟨error, grown, last, kids, _, rfl, rfl, bare.replicated forest planted, ?_⟩
      rw [room, payloads_node, List.flatMap_nil]
      exact .refused asked
  | ok image last =>
      have filled := planted.filled image
      have enough : (children.flatMap ids).length ≤ source.visits := by
        have length := form.length_ids_le held
        rw [ids_node, List.length_cons] at length
        exact Nat.le_trans (Nat.le_succ _) (Nat.le_succ_of_le length)
      obtain ⟨spare, isBound⟩ := Nat.exists_eq_add_of_le enough
      have ends := form.walks relates heldBelow filled.forest filled.tidy filled.placed last
        spare []
      have isNext : (sources id).map (·, root) =
          children.map (fun child => (child.id, root)) ++ [] := by
        rw [below, List.map_map, List.append_nil]
        rfl
      simp only [isNext, isBound]
      generalize exhaust (Copying.visit source copy) _ () _ (_, last) = outcome at ends ⊢
      cases ends with
      | @made after final others copies made =>
          obtain ⟨payloads, first⟩ := copyFrom_related relates asked
          rw [exhaust_nil]
          refine .inl ⟨after, final, others, .node root image copies, rfl, rfl,
            made.copied.replicated forest filled,
            .cons (rel_mono payloads made.related) made.likened .nil, ?_, ?_,
            made.setting.trans filled.setting, ?_⟩
          · rw [payloads_node, transcribeAll_cons_of_ok asked, run_map, made.transcribed,
              payloads_node]
          · rw [ids_node]
            exact filled.numbered.append made.numbered
          · rw [made.liveCount, filled.liveCount, ids_node, List.length_cons]
            omega
      | @broke error after final others copies copied breaks =>
          refine .inr ⟨error, after, final, others, _, rfl, rfl,
            copied.replicated forest filled, ?_⟩
          rw [capacity_of_setting filled.setting] at breaks
          rw [spare_of_grown filled.tidy filled.setting filled.liveCount, Nat.add_comm,
            payloads_node]
          exact .later asked breaks

end LinkedBTree.Arena
