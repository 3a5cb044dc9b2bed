import LinkedBTree.Proofs.Arena.Reproducing

namespace LinkedBTree.Arena

/-! A copy within an arena reads from the arena that it is written to. That makes no
difference, for what is read does not change on the way. -/

variable {P σ : Type}

namespace Copying

/-- Like `fill`, with the children read from the arena as it is by then. -/
def fillHere (copy : Copier σ P) (node : Node P) (into : NodeId) :
    Session σ (Arena P) (List (NodeId × NodeId)) := do
  if let some payload := node.payload then
    let payload ← Session.consult fun _ => copy payload
    let _ ← Session.apply (setPayload into (some payload))
  let children ← (← get).1.childList node
  pure (children.map (·, into))

def visitHere (copy : Copier σ P) (_ : Unit) : NodeId × NodeId →
    Session σ (Arena P) (Unit × List (NodeId × NodeId))
  | (template, parent) => do
      let copied ← Session.apply (allocate none)
      Session.apply (linkLast parent copied)
      pure ((), ← fillHere copy (← (← get).1.read template) copied)

def fillAllHere (copy : Copier σ P) (bound : Nat) (node : Node P) (root : NodeId) :
    Session σ (Arena P) Unit := do
  let pending ← fillHere copy node root
  exhaust (visitHere copy) bound () pending

theorem run_fillHere {target : Arena P} {into : NodeId} (copy : Copier σ P) (node : Node P)
    (isLive : target.contains into = true) (state : σ) :
    fillHere copy node into (target, state) =
      match copyFrom copy node.payload state with
      | .error error state => .error error (target, state)
      | .ok payload state =>
          match (filled into payload target).childList node with
          | .error error => .error error (filled into payload target, state)
          | .ok children =>
              .ok (children.map (·, into)) (filled into payload target, state) := by
  obtain ⟨_, found⟩ := contains_iff.mp isLive
  unfold fillHere
  cases carried : node.payload with
  | none =>
      simp only [copyFrom, filled, run_bind, run_get, run_lift]
      cases target.childList node <;> rfl
  | some payload =>
      simp only [copyFrom, filled, run_bind, run_consult]
      cases copy payload state with
      | error error state => rfl
      | ok copied state =>
          simp only [run_apply, run_setPayload found, run_get, run_lift]
          cases (target.modify into _).childList node <;> rfl

theorem run_visitHere {target : Arena P} {kids : NodeId → List NodeId} {parent : NodeId}
    (copy : Copier σ P) (template : NodeId) (forest : target.Forest kids)
    (isLive : target.contains parent = true) (state : σ) :
    visitHere copy () (template, parent) (target, state) =
      match Arena.allocate none target with
      | .error error target => .error error (target, state)
      | .ok copied target =>
          match (target.attachLast parent copied).read template with
          | .error error => .error error (target.attachLast parent copied, state)
          | .ok node =>
              match fillHere copy node copied
                (target.attachLast parent copied, state) with
              | .error error after => .error error after
              | .ok pending after => .ok ((), pending) after := by
  unfold visitHere
  simp only [run_bind, run_apply (Arena.allocate none)]
  cases allocated : Arena.allocate none target with
  | error error target => rfl
  | ok copied grown =>
      simp only [run_apply, forest.run_linkLast isLive allocated, run_get, run_lift]
      cases (grown.attachLast parent copied).read template with
      | error error => rfl
      | ok node =>
          dsimp only
          cases fillHere copy node copied (grown.attachLast parent copied, state) <;> rfl

end Copying

/-- Copies the subtree of `id`, reading from the arena that it is written to. -/
def copyWithin (arena : Arena P) (id : NodeId) (copy : Copier σ P) (state : σ) :
    CopyOutcome σ P :=
  let failed (error : Error) : Except Error NodeId :=
    .error (.context s!"unable to clone {id}" error)
  match arena.read id with
  | .error error => ⟨.error error, arena, [], state⟩
  | .ok node =>
      match allocate none arena with
      | .error error target => ⟨failed error, target, [], state⟩
      | .ok root target =>
          match Copying.fillAllHere copy arena.visits node root (target, state) with
          | .ok _ (target, state) => ⟨.ok root, target, [], state⟩
          | .error error (target, state) =>
              match release root (target, []) with
              | .ok _ (target, freed) | .error _ (target, freed) =>
                  ⟨failed error, target, freed, state⟩

section

variable {arena current sprouted : Arena P} {kids others : NodeId → List NodeId}
  {copy : Copier σ P} {template into fresh : NodeId} {node : Node P}
  {payload : Option P}

theorem Extended.childList_eq (extended : Extended arena current kids others)
    (forest : arena.Forest kids) (found : arena.node? template = some node) :
    current.childList node = arena.childList node := by
  rw [extended.forest.childList_eq (extended.node?_eq forest found),
    forest.childList_eq found, (extended.kept template _ (carried?_of_node? found)).2]

theorem Extended.sprout (extended : Extended arena current kids others)
    (new : arena.carried? into = none)
    (sprouts : Sprouts current sprouted
      (Function.update others into (others into ++ [fresh])) fresh payload) :
    Extended arena sprouted kids
      (Function.update others into (others into ++ [fresh])) := by
  refine ⟨sprouts.forest, fun id carried known => ?_, fun id dead child member => ?_⟩
  · obtain ⟨stays, same⟩ := extended.kept id carried known
    refine ⟨(sprouts.kept stays).2, ?_⟩
    rw [Function.update_of_ne, same]
    rintro rfl
    cases known.symm.trans new
  · have isOld : child ∈ others id ∨ child = fresh := by
      by_cases same : id = into
      · rw [same, Function.update_self, List.mem_append, List.mem_singleton] at member
        rwa [same]
      · rw [Function.update_of_ne same] at member
        exact .inl member
    rcases isOld with member | rfl
    · exact extended.apart id dead child member
    · cases known : arena.carried? child with
      | none => rfl
      | some carried =>
          cases (extended.kept child carried known).1.symm.trans sprouts.dead

def Overlaid (arena : Arena P) (kids : NodeId → List NodeId) (state : Arena P × σ) :
    Prop :=
  state.1.Tidy ∧ ∃ others, Extended arena state.1 kids others

/-- A template is an old node, and the parent of its copy a new one. -/
def Apart (arena : Arena P) (state : Arena P × σ) (item : NodeId × NodeId) : Prop :=
  (∃ node, arena.node? item.1 = some node) ∧
    (∃ payload, state.1.carried? item.2 = some payload) ∧ arena.carried? item.2 = none

namespace Copying

theorem fillHere_eq {state between : σ} (isLive : current.contains into = true)
    (same : (filled into payload current).childList node = arena.childList node)
    (asked : copyFrom copy node.payload state = .ok payload between) :
    fillHere copy node into (current, state) =
      fill arena copy node into (current, state) := by
  rw [run_fillHere _ _ isLive, run_fill _ _ _ isLive, asked]
  cases listed : arena.childList node <;> simp only [same, listed]

theorem visitHere_eq (forest : arena.Forest kids) {state : Arena P × σ}
    {item : NodeId × NodeId} (overlaid : Overlaid arena kids state)
    (apart : Apart arena state item) :
    visitHere copy () item state = visit arena copy () item state := by
  obtain ⟨current, state⟩ := state
  obtain ⟨template, into⟩ := item
  obtain ⟨tidy, others, extended⟩ := overlaid
  obtain ⟨⟨node, found⟩, ⟨old, isLive⟩, new⟩ := apart
  dsimp only at tidy extended found isLive new
  rw [run_visitHere _ _ extended.forest (contains_of_carried? isLive),
    run_visit _ _ _ extended.forest (contains_of_carried? isLive)]
  cases allocated : Arena.allocate none current with
  | error error stopped => rfl
  | ok fresh grown =>
      have attached := (Sprouts.of_allocate extended.forest tidy allocated).attached
        extended.forest isLive allocated
      have sprouted := extended.sprout new attached
      simp only [read_eq found, read_eq (sprouted.node?_eq forest found)]
      cases asked : copyFrom copy node.payload state with
      | error error after =>
          rw [run_fillHere _ _ (contains_hung allocated into),
            run_fill _ _ _ (contains_hung allocated into), asked]
      | ok payload after =>
          have last := extended.sprout new (attached.filled payload)
          have filled := fillHere_eq (contains_hung allocated into)
            (last.childList_eq forest found) asked
          cases ended : fill arena copy node fresh (grown.attachLast into fresh, state) <;>
            simp only [filled, ended]

theorem visit_stays (forest : arena.Forest kids) {state after : Arena P × σ}
    {item : NodeId × NodeId} {outcome : Unit × List (NodeId × NodeId)}
    (overlaid : Overlaid arena kids state) (apart : Apart arena state item)
    (done : visit arena copy () item state = .ok outcome after) :
    Overlaid arena kids after ∧ (∀ below ∈ outcome.2, Apart arena after below) ∧
      ∀ other, Apart arena state other → Apart arena after other := by
  obtain ⟨current, state⟩ := state
  obtain ⟨template, into⟩ := item
  obtain ⟨tidy, others, extended⟩ := overlaid
  obtain ⟨⟨node, found⟩, ⟨old, isLive⟩, new⟩ := apart
  have parentLive := contains_of_carried? isLive
  obtain ⟨fresh, grown, _, allocated, isNode, _⟩ :=
    of_visit extended.forest parentLive done
  rw [run_visit_of_allocate extended.forest parentLive found (forest.childList_eq found)
    allocated] at done
  cases asked : transcribe copy node.payload state with
  | error error last =>
      rw [asked] at done
      cases done
  | ok payload last =>
      rw [asked] at done
      obtain ⟨rfl, rfl⟩ := EStateM.Result.ok.inj done
      have sprouts := ((Sprouts.of_allocate extended.forest tidy allocated).attached
        extended.forest isLive allocated).filled payload
      have sprouted := extended.sprout new sprouts
      refine ⟨⟨sprouts.tidy, _, sprouted⟩, fun below member => ?_, fun other isApart => ?_⟩
      · obtain ⟨child, isChild, rfl⟩ := List.mem_map.mp member
        obtain ⟨childNode, isBelow, _⟩ := forest.of_mem isChild
        refine ⟨⟨childNode, isBelow⟩, ⟨payload, sprouts.placed⟩, ?_⟩
        cases known : arena.carried? fresh with
        | none => rfl
        | some carried =>
            cases (extended.kept fresh carried known).1.symm.trans sprouts.dead
      · obtain ⟨isTemplate, ⟨carried, known⟩, isNew⟩ := isApart
        exact ⟨isTemplate, ⟨carried, (sprouts.kept known).2⟩, isNew⟩

theorem fillHere_begins {root : NodeId} (forest : arena.Forest kids)
    (found : arena.node? template = some node) (tidy : arena.Tidy)
    (allocated : Arena.allocate none arena = .ok root current) (state : σ) :
    fillHere copy node root (current, state) = fill arena copy node root (current, state) ∧
      ∀ pending between, fill arena copy node root (current, state) = .ok pending between →
        Overlaid arena kids between ∧ ∀ item ∈ pending, Apart arena between item := by
  have planted := Sprouts.of_allocate forest tidy allocated
  have rootLive := contains_of_carried? planted.placed
  have extended : ∀ {payload sprouted}, Sprouts arena sprouted kids root payload →
      Extended arena sprouted kids kids := by
    intro payload sprouted sprouts
    refine ⟨sprouts.forest, fun id carried known => ⟨(sprouts.kept known).2, rfl⟩,
      fun id dead child member => ?_⟩
    rw [forest.none_of_dead (carried?_eq_none.mp dead)] at member
    cases member
  cases asked : copyFrom copy node.payload state with
  | error error after =>
      rw [run_fillHere _ _ rootLive, run_fill _ _ _ rootLive, asked]
      exact ⟨rfl, nofun⟩
  | ok payload after =>
      have filled := planted.filled payload
      have listed := (extended filled).childList_eq forest found
      refine ⟨fillHere_eq rootLive listed asked, fun pending between filling => ?_⟩
      rw [run_fill _ _ _ rootLive, asked, forest.childList_eq found] at filling
      obtain ⟨rfl, rfl⟩ := EStateM.Result.ok.inj filling
      refine ⟨⟨filled.tidy, kids, extended filled⟩, fun item member => ?_⟩
      obtain ⟨child, isChild, rfl⟩ := List.mem_map.mp member
      obtain ⟨childNode, isBelow, _⟩ := forest.of_mem isChild
      exact ⟨⟨childNode, isBelow⟩, ⟨payload, filled.placed⟩, planted.dead⟩

theorem fillAllHere_eq {root : NodeId} (forest : arena.Forest kids)
    (found : arena.node? template = some node) (tidy : arena.Tidy)
    (allocated : Arena.allocate none arena = .ok root current) (state : σ) :
    fillAllHere copy arena.visits node root (current, state) =
      fillAll arena copy node root (current, state) := by
  obtain ⟨same, begins⟩ := @fillHere_begins P σ _ _ _ copy _ _ _ forest found tidy
    allocated state
  unfold fillAllHere fillAll
  rw [run_bind, run_bind, same]
  cases filling : fill arena copy node root (current, state) with
  | error error after => rfl
  | ok pending between =>
      obtain ⟨overlaid, apart⟩ := begins pending between filling
      exact exhaust_congr (fun _ _ _ => visitHere_eq forest)
        (fun _ _ _ _ _ => visit_stays forest) arena.visits () _ _ overlaid apart

end Copying

/-- Within a forest, a copy reads what was there before it. -/
theorem Forest.copyWithin_eq (forest : arena.Forest kids) (tidy : arena.Tidy)
    (id : NodeId) (copy : Copier σ P) (state : σ) :
    arena.copyWithin id copy state = arena.copyInto id arena copy state := by
  unfold copyWithin Arena.copyInto
  cases isRead : arena.read id with
  | error error => rfl
  | ok node =>
      cases allocated : Arena.allocate none arena with
      | error error stopped => rfl
      | ok root grown =>
          have found := (read_eq_ok_iff ..).mp isRead
          have filled : Copying.fillAllHere copy arena.visits node root (grown, state) = _ :=
            Copying.fillAllHere_eq forest found tidy allocated state
          cases ended : Copying.fillAll arena copy node root (grown, state) with
          | ok _ final => simp only [filled, ended]
          | error error final =>
              cases undone : Arena.release root (final.1, []) <;>
                simp only [filled, ended, undone]

end

end LinkedBTree.Arena
