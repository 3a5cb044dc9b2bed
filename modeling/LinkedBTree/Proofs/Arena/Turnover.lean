import LinkedBTree.Proofs.Arena.Changing
import LinkedBTree.Proofs.Arena.History

namespace LinkedBTree

/-! What happens to an arena that is worked on: handles are issued and released
one at a time, and nothing else touches the generation of a slot. -/

variable {P : Type}

inductive ArenaEvent
  | issued (id : NodeId)
  | released (id : NodeId)
  /-- All counters start from zero again. -/
  | reset
  deriving DecidableEq

namespace ArenaEvent

def isIssue : ArenaEvent → Bool
  | issued _ => true
  | released _ | reset => false

def isRelease : ArenaEvent → Bool
  | released _ => true
  | issued _ | reset => false

def frees (index : Nat) : ArenaEvent → Bool
  | released id => id.index == index
  | issued _ | reset => false

end ArenaEvent

namespace Arena

/-- The one arena becomes the other by changes to single nodes, slots and
counters. The events are those that changed slots or reset the counters. -/
inductive Passage : Arena P → List ArenaEvent → Arena P → Prop
  | refl {arena} : Passage arena [] arena
  | modify {arena after log} (id : NodeId) (change : Node P → Node P) :
      Passage (arena.modify id change) log after → Passage arena log after
  | count {arena after log} (counter : Counter) :
      counter ≠ .allocated → counter ≠ .freed →
      Passage (arena.count counter) log after → Passage arena log after
  | issue {arena grown after payload id log} :
      Arena.allocate payload arena = .ok id grown → Passage grown log after →
      Passage arena (.issued id :: log) after
  | refuse {arena stopped after payload error log} :
      Arena.allocate payload arena = .error error stopped →
      Passage stopped log after → Passage arena log after
  | release {arena after id log} :
      arena.contains id = true → Passage (arena.discard id) log after →
      Passage arena (.released id :: log) after
  | reset {arena after log} :
      Passage arena.resetStats log after → Passage arena (.reset :: log) after

theorem Passage.append {arena between after : Arena P} {log later : List ArenaEvent}
    (first : arena.Passage log between) (second : between.Passage later after) :
    arena.Passage (log ++ later) after := by
  induction first with
  | refl => exact second
  | modify id change _ induction => exact .modify id change (induction second)
  | count counter notAllocated notFreed _ induction =>
      exact .count counter notAllocated notFreed (induction second)
  | issue allocated _ induction => exact .issue allocated (induction second)
  | refuse refused _ induction => exact .refuse refused (induction second)
  | release live _ induction => exact .release live (induction second)
  | reset _ induction => exact .reset (induction second)

/-- The one arena becomes the other, and the counters go on. -/
def Reaches (arena after : Arena P) : Prop :=
  ∃ log, arena.Passage log after ∧ .reset ∉ log

namespace Reaches

variable {arena between after : Arena P}

theorem refl (arena : Arena P) : arena.Reaches arena :=
  ⟨[], .refl, List.not_mem_nil⟩

theorem trans (first : arena.Reaches between) (second : between.Reaches after) :
    arena.Reaches after := by
  obtain ⟨log, first, goesOn⟩ := first
  obtain ⟨later, second, stillGoesOn⟩ := second
  exact ⟨log ++ later, first.append second, by simp [goesOn, stillGoesOn]⟩

theorem modify (arena : Arena P) (id : NodeId) (change : Node P → Node P) :
    arena.Reaches (arena.modify id change) :=
  ⟨[], .modify id change .refl, List.not_mem_nil⟩

theorem count (arena : Arena P) {counter : Counter}
    (notAllocated : counter ≠ .allocated) (notFreed : counter ≠ .freed) :
    arena.Reaches (arena.count counter) :=
  ⟨[], .count counter notAllocated notFreed .refl, List.not_mem_nil⟩

theorem allocate (payload : Option P) (arena : Arena P) :
    arena.Reaches (reached (Arena.allocate payload arena)) := by
  cases outcome : Arena.allocate payload arena with
  | ok id grown => exact ⟨[.issued id], .issue outcome .refl, by simp⟩
  | error error stopped => exact ⟨[], .refuse outcome .refl, List.not_mem_nil⟩

theorem discard (arena : Arena P) (id : NodeId) :
    arena.Reaches (arena.discard id) := by
  by_cases live : arena.contains id = true
  · exact ⟨[.released id], .release live .refl, by simp⟩
  · unfold Arena.discard
    rw [if_neg live]
    exact refl arena

theorem stable (arena : Arena P) : Stable arena.Reaches where
  modify reaches id change := reaches.trans (modify _ id change)
  discard reaches id := reaches.trans (discard _ id)
  allocate payload before reaches := reaches.trans (allocate payload before)
  collapses reaches := reaches.trans (count _ (by decide) (by decide))

theorem copyInto {σ : Type} (source : Arena P) (id : NodeId) (target : Arena P)
    (copy : Copier σ P) (state : σ) :
    ∃ log, target.Passage log (source.copyInto id target copy state).target ∧
      .reset ∉ log ∧ ∀ root, (source.copyInto id target copy state).result =
        .ok root → .issued root ∈ log := by
  unfold Arena.copyInto
  cases source.read id with
  | error error => exact ⟨[], .refl, List.not_mem_nil, nofun⟩
  | ok node =>
      simp only
      cases allocated : Arena.allocate none target with
      | error error stopped =>
          exact ⟨[], .refuse allocated .refl, List.not_mem_nil, nofun⟩
      | ok root grown =>
          have fills := (stable grown).fillAll source copy node root (grown, state)
            (refl grown)
          simp only
          cases outcome : Copying.fillAll source copy node root (grown, state) with
          | ok _ after =>
              rw [outcome] at fills
              obtain ⟨log, passage, goesOn⟩ := fills
              refine ⟨.issued root :: log, .issue allocated passage, by simp [goesOn],
                fun other same => ?_⟩
              rw [← Except.ok.inj same]
              exact List.mem_cons_self
          | error error after =>
              rw [outcome, reached_error] at fills
              have unwinds := (stable grown).release root (after.1, []) fills
              simp only
              cases released : Arena.release root (after.1, []) <;>
                rw [released] at unwinds <;>
                obtain ⟨log, passage, goesOn⟩ := unwinds <;>
                exact ⟨.issued root :: log, .issue allocated passage, by simp [goesOn],
                  nofun⟩

end Reaches

def made? (arena : Arena P) : Request P → Option NodeId
  | .allocate payload =>
      match Arena.allocate payload arena with
      | .ok id _ => some id
      | .error _ _ => none
  | .copy id copy state => (arena.copyInto id arena copy state).result.toOption
  | .copyFrom source id copy state =>
      (source.copyInto id arena copy state).result.toOption
  | _ => none

private theorem Reaches.logged {arena : Arena P} {request : Request P}
    (reaches : arena.Reaches (arena.perform request))
    (silent : arena.made? request = none) :
    ∃ log, arena.Passage log (arena.perform request) ∧ .reset ∉ log ∧
      ∀ id, arena.made? request = some id → .issued id ∈ log := by
  obtain ⟨log, passage, goesOn⟩ := reaches
  refine ⟨log, passage, goesOn, fun id made => ?_⟩
  cases silent.symm.trans made

theorem exists_passage (arena : Arena P) (request : Request P) :
    ∃ log, arena.Passage log (arena.perform request) ∧ .reset ∉ log ∧
      ∀ id, arena.made? request = some id → .issued id ∈ log := by
  have copied : ∀ {σ : Type} (source : Arena P) (id : NodeId) (copy : Copier σ P)
      (state : σ), ∃ log,
        arena.Passage log (source.copyInto id arena copy state).target ∧
          .reset ∉ log ∧ ∀ root,
            (source.copyInto id arena copy state).result.toOption = some root →
              .issued root ∈ log := by
    intro σ source id copy state
    obtain ⟨log, passage, goesOn, issued⟩ :=
      Reaches.copyInto source id arena copy state
    refine ⟨log, passage, goesOn, fun root made => issued root ?_⟩
    cases outcome : (source.copyInto id arena copy state).result with
    | error error =>
        rw [outcome] at made
        cases made
    | ok other =>
        rw [outcome] at made
        exact congrArg Except.ok (Option.some.inj made)
  have start := Reaches.refl arena
  have stable := Reaches.stable arena
  cases request with
  | allocate payload =>
      rw [Arena.perform, made?]
      cases outcome : Arena.allocate payload arena with
      | ok id grown =>
          refine ⟨[.issued id], .issue outcome .refl, by simp, fun other same => ?_⟩
          rw [← Option.some.inj same]
          exact List.mem_singleton_self _
      | error error stopped =>
          refine ⟨[], .refuse outcome .refl, by simp, fun id made => ?_⟩
          cases made
  | setPayload id payload => exact (stable.setPayload id payload arena start).logged rfl
  | append parent child => exact (stable.append parent child arena start).logged rfl
  | insert parent child compare state unique =>
      exact (stable.insert parent child compare unique (arena, state) start).logged rfl
  | replace old new => exact (stable.replace old new arena start).logged rfl
  | remove parent child => exact (stable.remove parent child arena start).logged rfl
  | collapse id => exact (stable.collapse id arena start).logged rfl
  | release id => exact (stable.release id (arena, []) start).logged rfl
  | clear id => exact (stable.clear id (arena, []) start).logged rfl
  | copy id copy state => exact copied arena id copy state
  | copyFrom source id copy state => exact copied source id copy state

inductive Operation (P : Type) : Type 1
  | call (request : Request P)
  | resetStats

def operate (arena : Arena P) : Operation P → Arena P
  | .call request => arena.perform request
  | .resetStats => arena.resetStats

inductive Chronicle : Arena P → List (Operation P) → List ArenaEvent → Prop
  | nil {arena} : Chronicle arena [] []
  | call {arena request rest log later} :
      arena.Passage log (arena.perform request) → .reset ∉ log →
      (∀ id, arena.made? request = some id → .issued id ∈ log) →
      Chronicle (arena.perform request) rest later →
      Chronicle arena (.call request :: rest) (log ++ later)
  | resetStats {arena rest later} :
      Chronicle arena.resetStats rest later →
      Chronicle arena (.resetStats :: rest) (.reset :: later)

theorem exists_chronicle (arena : Arena P) (operations : List (Operation P)) :
    ∃ log, arena.Chronicle operations log := by
  induction operations generalizing arena with
  | nil => exact ⟨[], .nil⟩
  | cons operation rest induction =>
      obtain ⟨later, chronicle⟩ := induction (arena.operate operation)
      cases operation with
      | call request =>
          obtain ⟨log, passage, goesOn, issued⟩ := arena.exists_passage request
          exact ⟨log ++ later, .call passage goesOn issued chronicle⟩
      | resetStats => exact ⟨.reset :: later, .resetStats chronicle⟩

theorem Chronicle.passage {arena : Arena P} {operations : List (Operation P)}
    {log : List ArenaEvent} (chronicle : arena.Chronicle operations log) :
    arena.Passage log (operations.foldl operate arena) := by
  induction chronicle with
  | nil => exact .refl
  | call passage _ _ _ induction => exact passage.append induction
  | resetStats _ induction => exact .reset induction

theorem Chronicle.goes_on {arena : Arena P} {operations : List (Operation P)}
    {log : List ArenaEvent} (chronicle : arena.Chronicle operations log)
    (calls : ∀ operation ∈ operations, operation ≠ .resetStats) : .reset ∉ log := by
  induction chronicle with
  | nil => exact List.not_mem_nil
  | call _ goesOn _ _ induction =>
      rw [List.mem_append, not_or]
      exact ⟨goesOn, induction fun operation member =>
        calls operation (by simp [member])⟩
  | resetStats _ _ => exact absurd rfl (calls .resetStats List.mem_cons_self)

end Arena

end LinkedBTree
