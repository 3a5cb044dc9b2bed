import LinkedBTree.Proofs.Arena.Rejection
import LinkedBTree.Proofs.Arena.Turnover

namespace LinkedBTree.Arena

/-! A handle is good for the one node it was issued for: it is accepted until
that node is released, and nothing can be done with it afterwards. -/

variable {P : Type} {arena after : Arena P} {log : List ArenaEvent} {id : NodeId}

/-- The generation that a handle for the slot at `index` has, or will have. -/
def generationAt (arena : Arena P) (index : Nat) : UInt32 :=
  (arena.slots[index]?.map Slot.generation).getD 0

theorem generation_of_contains (live : arena.contains id = true) :
    arena.generationAt id.index = id.generation := by
  obtain ⟨node, found⟩ := contains_iff.mp live
  unfold node? at found
  cases isSlot : arena.slots[id.index]? with
  | none => simp [isSlot] at found
  | some slot =>
      simp only [isSlot, Option.ite_none_right_eq_some] at found
      simpa [generationAt, isSlot] using found.1

@[simp] theorem generationAt_modify (arena : Arena P) (id : NodeId)
    (change : Node P → Node P) (index : Nat) :
    (arena.modify id change).generationAt index = arena.generationAt index := by
  unfold generationAt modify
  simp only [Array.getElem?_modify]
  split
  · rw [Option.map_map]
    congr 2
    funext slot
    simp only [Function.comp_apply]
    split <;> rfl
  · rfl

theorem generationAt_allocate {payload : Option P}
    (allocated : Arena.allocate payload arena = .ok id after) :
    arena.generationAt id.index = id.generation ∧
      ∀ index, after.generationAt index = arena.generationAt index := by
  unfold Arena.allocate at allocated
  split at allocated
  · split at allocated
    · rename_i vacant
      obtain ⟨rfl, rfl⟩ := EStateM.Result.ok.inj allocated
      have inRange := (Array.getElem?_eq_some_iff.mp vacant).1
      refine ⟨by simp [generationAt, vacant], fun index => ?_⟩
      simp only [generationAt, count, Array.getElem?_setIfInBounds]
      split
      · rename_i same
        rw [← same, vacant]
        rfl
      · rfl
    · cases allocated
  · split at allocated
    · obtain ⟨rfl, rfl⟩ := EStateM.Result.ok.inj allocated
      refine ⟨by simp [generationAt], fun index => ?_⟩
      simp only [generationAt, count, Array.getElem?_push]
      split
      · rename_i same
        simp [same]
      · rfl
    · cases allocated

theorem generationAt_discard (live : arena.contains id = true) (index : Nat) :
    (arena.discard id).generationAt index =
      if id.index = index then arena.generationAt index + 1
      else arena.generationAt index := by
  have current := generation_of_contains live
  have inRange := index_lt_of_node? (contains_iff.mp live).choose_spec
  unfold Arena.discard
  rw [if_pos live]
  simp only [generationAt, count, Array.getElem?_setIfInBounds] at current ⊢
  split
  · rename_i same
    rw [← same, current]
    rfl
  · rfl

theorem contains_allocate {payload : Option P} {other : NodeId}
    (allocated : Arena.allocate payload arena = .ok id after) :
    after.contains other = true ↔ other = id ∨ arena.contains other = true := by
  unfold contains
  rw [(node?_allocate allocated).2]
  by_cases same : other = id <;> simp [same]

theorem contains_refused {payload : Option P} {error : Error} {other : NodeId}
    (refused : Arena.allocate payload arena = .error error after) :
    after.contains other = arena.contains other := by
  unfold contains node?
  rw [node?_allocate_error refused]

theorem contains_discard {other : NodeId} :
    (arena.discard id).contains other = true ↔
      other ≠ id ∧ arena.contains other = true := by
  unfold contains
  rw [node?_discard]
  by_cases same : other = id <;> simp [same]

theorem eq_of_contains {other : NodeId} (live : arena.contains id = true)
    (alsoLive : arena.contains other = true) (same : id.index = other.index) :
    id = other :=
  eq_of_index_eq (contains_iff.mp live).choose_spec
    (contains_iff.mp alsoLive).choose_spec same

namespace Passage

theorem generation_eq (passage : arena.Passage log after) (index : Nat) :
    after.generationAt index =
      arena.generationAt index + .ofNat (log.countP (ArenaEvent.frees index)) := by
  induction passage with
  | refl => simp
  | modify id change _ induction => rw [induction, generationAt_modify]
  | count _ _ _ _ induction => exact induction
  | issue allocated _ induction =>
      rw [induction, (generationAt_allocate allocated).2]
      simp [ArenaEvent.frees]
  | refuse refused _ induction =>
      rw [induction, generationAt, node?_allocate_error refused]
      rfl
  | @release arena after id log live _ induction =>
      rw [induction, generationAt_discard live, List.countP_cons]
      by_cases same : id.index = index
      · simp [ArenaEvent.frees, same, UInt32.add_assoc, UInt32.add_comm 1]
      · simp [ArenaEvent.frees, same]
  | reset _ induction =>
      rw [induction]
      simp [ArenaEvent.frees]
      rfl

theorem stays (passage : arena.Passage log after) (live : arena.contains id = true)
    (kept : log.countP (ArenaEvent.frees id.index) = 0) :
    after.contains id = true := by
  induction passage with
  | refl => exact live
  | modify other change _ induction =>
      exact induction (by rwa [contains_modify]) kept
  | count _ _ _ _ induction => exact induction live kept
  | issue allocated _ induction =>
      apply induction ((contains_allocate allocated).mpr (.inr live))
      simpa [ArenaEvent.frees] using kept
  | refuse refused _ induction =>
      exact induction (by rwa [contains_refused refused]) kept
  | @release _ _ other log _ _ induction =>
      have apart : other.index ≠ id.index := by
        intro same
        simp [ArenaEvent.frees, same] at kept
      apply induction
      · refine contains_discard.mpr ⟨?_, live⟩
        rintro rfl
        exact apart rfl
      · simpa [ArenaEvent.frees, apart] using kept
  | reset _ induction =>
      apply induction live
      simpa [ArenaEvent.frees] using kept

theorem released_of_freed (passage : arena.Passage log after)
    (live : arena.contains id = true)
    (freed : log.countP (ArenaEvent.frees id.index) ≠ 0) : .released id ∈ log := by
  induction passage with
  | refl => exact absurd rfl freed
  | modify other change _ induction =>
      exact induction (by rwa [contains_modify]) freed
  | count _ _ _ _ induction => exact induction live freed
  | issue allocated _ induction =>
      apply List.mem_cons_of_mem
      apply induction ((contains_allocate allocated).mpr (.inr live))
      simpa [ArenaEvent.frees] using freed
  | refuse refused _ induction =>
      exact induction (by rwa [contains_refused refused]) freed
  | @release arena _ other log alsoLive _ induction =>
      by_cases same : other.index = id.index
      · rw [eq_of_contains alsoLive live same]
        exact List.mem_cons_self
      · apply List.mem_cons_of_mem
        apply induction
        · refine contains_discard.mpr ⟨?_, live⟩
          rintro rfl
          exact same rfl
        · simpa [ArenaEvent.frees, same] using freed
  | reset _ induction =>
      apply List.mem_cons_of_mem
      apply induction live
      simpa [ArenaEvent.frees] using freed

theorem known (passage : arena.Passage log after) (live : after.contains id = true) :
    arena.contains id = true ∨ .issued id ∈ log := by
  induction passage with
  | refl => exact .inl live
  | modify other change _ induction =>
      rw [← contains_modify]
      exact induction live
  | count _ _ _ _ induction => exact induction live
  | issue allocated _ induction =>
      rcases induction live with before | issued
      · rcases (contains_allocate allocated).mp before with rfl | before
        · exact .inr List.mem_cons_self
        · exact .inl before
      · exact .inr (List.mem_cons_of_mem _ issued)
  | refuse refused _ induction =>
      rw [← contains_refused refused]
      exact induction live
  | release _ _ induction =>
      exact (induction live).imp (fun before => (contains_discard.mp before).2)
        (List.mem_cons_of_mem _)
  | reset _ induction => exact (induction live).imp_right (List.mem_cons_of_mem _)

theorem of_issued {before later : List ArenaEvent}
    (passage : arena.Passage (before ++ .issued id :: later) after) :
    ∃ payload start grown, arena.Passage before start ∧
      Arena.allocate payload start = .ok id grown ∧ grown.Passage later after := by
  generalize whole : before ++ .issued id :: later = log at passage
  induction passage generalizing before with
  | refl => simp at whole
  | modify other change _ induction =>
      obtain ⟨payload, start, grown, first, rest⟩ := induction whole
      exact ⟨payload, start, grown, .modify other change first, rest⟩
  | count counter notAllocated notFreed _ induction =>
      obtain ⟨payload, start, grown, first, rest⟩ := induction whole
      exact ⟨payload, start, grown, .count counter notAllocated notFreed first, rest⟩
  | @issue arena grown _ payload _ _ allocated passage induction =>
      cases before with
      | nil =>
          obtain ⟨same, rfl⟩ := List.cons.inj whole
          cases same
          exact ⟨payload, arena, grown, .refl, allocated, passage⟩
      | cons event before =>
          rw [List.cons_append, List.cons.injEq] at whole
          obtain ⟨rfl, whole⟩ := whole
          obtain ⟨payload, start, grown, first, rest⟩ := induction whole
          exact ⟨payload, start, grown, .issue allocated first, rest⟩
  | refuse refused _ induction =>
      obtain ⟨payload, start, grown, first, rest⟩ := induction whole
      exact ⟨payload, start, grown, .refuse refused first, rest⟩
  | release live _ induction =>
      cases before with
      | nil => cases whole
      | cons event before =>
          rw [List.cons_append, List.cons.injEq] at whole
          obtain ⟨rfl, whole⟩ := whole
          obtain ⟨payload, start, grown, first, rest⟩ := induction whole
          exact ⟨payload, start, grown, .release live first, rest⟩
  | reset _ induction =>
      cases before with
      | nil => cases whole
      | cons event before =>
          rw [List.cons_append, List.cons.injEq] at whole
          obtain ⟨rfl, whole⟩ := whole
          obtain ⟨payload, start, grown, first, rest⟩ := induction whole
          exact ⟨payload, start, grown, .reset first, rest⟩

/-- A generation comes round again after so many releases, and no earlier. -/
theorem untouched (passage : arena.Passage log after)
    (same : after.generationAt id.index = arena.generationAt id.index)
    (few : log.countP (ArenaEvent.frees id.index) < UInt32.size) :
    log.countP (ArenaEvent.frees id.index) = 0 := by
  have counted := passage.generation_eq id.index
  rw [same] at counted
  generalize log.countP (ArenaEvent.frees id.index) = number at *
  have counted := congrArg UInt32.toNat counted
  unfold UInt32.size at few
  have bounded := (arena.generationAt id.index).toNat_lt
  simp only [UInt32.toNat_add, UInt32.toNat_ofNat'] at counted
  omega

theorem contains_iff_not_released (passage : arena.Passage log after)
    (live : arena.contains id = true)
    (few : log.countP (ArenaEvent.frees id.index) < UInt32.size) :
    after.contains id = true ↔ .released id ∉ log := by
  constructor
  · intro stillLive member
    have kept := passage.untouched (by
      rw [generation_of_contains live, generation_of_contains stillLive]) few
    rw [List.countP_eq_zero] at kept
    exact kept _ member (by simp [ArenaEvent.frees])
  · intro notReleased
    apply passage.stays live
    by_contra freed
    exact notReleased (passage.released_of_freed live freed)

end Passage

/-- What the events on the way to `arena` tell about the handles issued. -/
structure Faithful (arena : Arena P) (log : List ArenaEvent) : Prop where
  /-- A handle is good until its node is released, whoever else gets the slot. -/
  accepted : ∀ {before id later}, log = before ++ .issued id :: later →
    later.countP (ArenaEvent.frees id.index) < UInt32.size →
    (arena.contains id = true ↔ .released id ∉ later) ∧
      ((∃ node, arena.read id = .ok node) ↔ .released id ∉ later) ∧
      ∀ payload, (∃ old after, setPayload id payload arena = .ok old after) ↔
        .released id ∉ later
  distinct : ∀ {before first between second later},
    log = before ++ .issued first :: (between ++ .issued second :: later) →
    between.countP (ArenaEvent.frees first.index) < UInt32.size → first ≠ second
  /-- There is no other way to a handle that is good. -/
  known : ∀ {id}, arena.contains id = true → .issued id ∈ log

theorem read_ok_iff :
    (∃ node, arena.read id = .ok node) ↔ arena.contains id = true := by
  simp only [read_eq_ok_iff, contains_iff]

theorem setPayload_ok_iff {payload : Option P} :
    (∃ old after, setPayload id payload arena = .ok old after) ↔
      arena.contains id = true := by
  constructor
  · rintro ⟨old, after, done⟩
    by_contra dead
    rw [run_setPayload_stale (by simpa [contains] using dead)] at done
    cases done
  · intro live
    obtain ⟨node, found⟩ := contains_iff.mp live
    exact ⟨_, _, run_setPayload found payload⟩

theorem contains_of_allocate {payload : Option P}
    (allocated : Arena.allocate payload arena = .ok id after) :
    arena.contains id = false ∧ after.contains id = true := by
  refine ⟨?_, (contains_allocate allocated).mpr (.inl rfl)⟩
  rw [contains, (node?_allocate allocated).1]
  rfl

theorem Passage.distinct {before between later : List ArenaEvent}
    {first second : NodeId}
    (passage : arena.Passage
      (before ++ .issued first :: (between ++ .issued second :: later)) after)
    (few : between.countP (ArenaEvent.frees first.index) < UInt32.size) :
    first ≠ second := by
  obtain ⟨_, _, grown, _, allocated, rest⟩ := passage.of_issued
  obtain ⟨_, middle, _, meantime, again, _⟩ := rest.of_issued
  rintro rfl
  -- The slot got back to the generation it had, so it was not given back at all.
  have same : middle.generationAt first.index = grown.generationAt first.index := by
    rw [(generationAt_allocate again).1, (generationAt_allocate allocated).2,
      (generationAt_allocate allocated).1]
  have kept := meantime.untouched same few
  have live := meantime.stays (contains_of_allocate allocated).2 kept
  rw [(contains_of_allocate again).1] at live
  cases live

theorem Passage.faithful (passage : arena.Passage log after)
    (vacant : ∀ id, arena.node? id = none) : after.Faithful log where
  accepted := by
    rintro before id later rfl few
    obtain ⟨_, _, _, _, allocated, passage⟩ := passage.of_issued
    have accepted := passage.contains_iff_not_released
      (contains_of_allocate allocated).2 few
    exact ⟨accepted, read_ok_iff.trans accepted,
      fun _ => setPayload_ok_iff.trans accepted⟩
  distinct := by
    rintro before first between second later rfl few
    exact passage.distinct few
  known := by
    intro id live
    rcases passage.known live with before | issued
    · rw [contains, vacant id] at before
      cases before
    · exact issued

theorem Forest.operations {kids : NodeId → List NodeId}
    (forest : arena.Forest kids) (operations : List (Operation P)) :
    ∃ others, (operations.foldl operate arena).Forest others := by
  induction operations generalizing arena kids with
  | nil => exact ⟨kids, forest⟩
  | cons operation rest induction =>
      cases operation with
      | call request =>
          obtain ⟨others, forest⟩ := forest.perform request
          exact induction forest
      | resetStats => exact induction (forest.congr fun _ => rfl)

/-- Whatever is asked of an arena, a handle it issued is good for one node only,
no two of them are the same, and a call given one that is no longer good fails
and leaves every node alone. -/
theorem handles_never_alias {capacity : Nat} {start : Arena P}
    (started : withCapacity capacity = .ok start)
    (operations : List (Operation P)) :
    (∃ log, start.Chronicle operations log) ∧
      (∀ log, start.Chronicle operations log →
        (operations.foldl operate start).Faithful log) ∧
      (operations.foldl operate start).Guarded := by
  obtain ⟨vacant, _, _⟩ := vacant_withCapacity started
  obtain ⟨kids, forest⟩ := (forest_withCapacity started).operations operations
  exact ⟨exists_chronicle start operations,
    fun log chronicle => chronicle.passage.faithful vacant, forest.guarded⟩

def twice : List (Operation Nat) :=
  [.call (.allocate (some 5)), .call (.release ⟨0, 0⟩), .call (.allocate none)]

theorem handles_never_alias_twice :
    (withCapacity 1 : Except Error (Arena Nat)) = .ok { capacity := 1 } ∧
      (twice.foldl operate { capacity := 1 }).contains ⟨0, 0⟩ = false ∧
      (twice.foldl operate { capacity := 1 }).contains ⟨0, 1⟩ = true ∧
      (twice.foldl operate { capacity := 1 }).perform (.append ⟨0, 1⟩ ⟨0, 0⟩) =
        twice.foldl operate { capacity := 1 } := by
  have started : (withCapacity 1 : Except Error (Arena Nat)) =
      .ok { capacity := 1 } := rfl
  have chronicle : ({ capacity := 1 } : Arena Nat).Chronicle twice
      ([.issued ⟨0, 0⟩] ++ ([.released ⟨0, 0⟩] ++ ([.issued ⟨0, 1⟩] ++ []))) := by
    refine .call (.issue rfl .refl) (by simp) ?_ <|
      .call (.release rfl .refl) (by simp) ?_ <|
      .call (.issue rfl .refl) (by simp) ?_ .nil
    all_goals
      intro id made
      cases made
    all_goals exact List.mem_singleton_self _
  obtain ⟨_, faithful, guarded⟩ := handles_never_alias started twice
  have accepted := fun before id later =>
    @(faithful _ chronicle).accepted before id later
  have gone := (accepted [] ⟨0, 0⟩ [.released ⟨0, 0⟩, .issued ⟨0, 1⟩] rfl
    (by decide)).1
  have good := (accepted [.issued ⟨0, 0⟩, .released ⟨0, 0⟩] ⟨0, 1⟩ [] rfl
    (by decide)).1
  have gone : (twice.foldl operate { capacity := 1 }).contains ⟨0, 0⟩ = false := by
    simpa using gone
  obtain ⟨same, _⟩ := guarded.refuses (.append ⟨0, 1⟩ ⟨0, 0⟩) ⟨0, 0⟩
    (by simp [Request.handles]) gone
  exact ⟨started, gone, good.mpr (by simp), same⟩

end LinkedBTree.Arena
