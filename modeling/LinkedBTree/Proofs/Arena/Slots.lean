import LinkedBTree.Proofs.Arena.Accounting
import LinkedBTree.Proofs.Arena.Turnover

namespace LinkedBTree.Arena

/-! A slot is taken or waits to be handed out again, and the counters tell how
many are taken. -/

variable {P : Type} {arena after : Arena P} {log : List ArenaEvent}

theorem Tidy.resetStats (tidy : arena.Tidy) : arena.resetStats.Tidy :=
  ⟨tidy.nodup, tidy.vacant, tidy.taken, tidy.bounded⟩

@[simp] theorem liveCount_resetStats (arena : Arena P) :
    arena.resetStats.liveCount = arena.liveCount := rfl

theorem Tidy.liveCount_discard (tidy : arena.Tidy) {id : NodeId}
    (live : arena.contains id = true) :
    (arena.discard id).liveCount + 1 = arena.liveCount := by
  have short := (tidy.discard id).length_free_le
  unfold Arena.discard at short ⊢
  rw [if_pos live] at short ⊢
  simp only [liveCount, Arena.count, Array.size_setIfInBounds,
    List.length_cons] at short ⊢
  omega

theorem Tidy.refused {payload : Option P} {error : Error} (tidy : arena.Tidy)
    (refused : Arena.allocate payload arena = .error error after) :
    after = arena.count .refused := by
  unfold Arena.allocate at refused
  cases free : arena.free with
  | nil =>
      simp only [free] at refused
      split at refused
      · cases refused
      · exact (EStateM.Result.error.inj refused).2.symm
  | cons index rest =>
      obtain ⟨generation, vacant⟩ := tidy.vacant index (by simp [free])
      simp only [free, vacant] at refused
      cases refused

theorem stats_allocate {payload : Option P} {id : NodeId}
    (allocated : Arena.allocate payload arena = .ok id after) :
    after.stats = arena.stats.add .allocated 1 := by
  unfold Arena.allocate at allocated
  split at allocated
  · split at allocated
    · obtain ⟨_, rfl⟩ := EStateM.Result.ok.inj allocated
      rfl
    · cases allocated
  · split at allocated
    · obtain ⟨_, rfl⟩ := EStateM.Result.ok.inj allocated
      rfl
    · cases allocated

theorem stats_discard {id : NodeId} (live : arena.contains id = true) :
    (arena.discard id).stats = arena.stats.add .freed 1 := by
  unfold Arena.discard
  rw [if_pos live]
  rfl

namespace Passage

theorem tidy (passage : arena.Passage log after) (tidy : arena.Tidy) : after.Tidy := by
  induction passage with
  | refl => exact tidy
  | modify id change _ induction => exact induction (tidy.modify id change)
  | count counter _ _ _ induction => exact induction (tidy.count counter)
  | issue allocated _ induction => exact induction (tidy.allocate allocated)
  | refuse refused _ induction => exact induction (tidy.allocate_error refused).1
  | release _ _ induction => exact induction (tidy.discard _)
  | reset _ induction => exact induction tidy.resetStats

theorem capacity_eq (passage : arena.Passage log after) :
    after.capacity = arena.capacity := by
  induction passage with
  | refl => rfl
  | modify _ _ _ induction => exact induction
  | count _ _ _ _ induction => exact induction
  | @issue arena grown _ payload _ _ allocated _ induction =>
      have kept := setting_allocate payload arena
      rw [allocated] at kept
      exact induction.trans (capacity_of_setting kept)
  | @refuse arena stopped _ payload _ _ refused _ induction =>
      have kept := setting_allocate payload arena
      rw [refused] at kept
      exact induction.trans (capacity_of_setting kept)
  | @release arena _ id _ _ _ induction =>
      exact induction.trans (capacity_of_setting (arena.setting_discard id))
  | reset _ induction => exact induction

theorem liveCount_add_releases (passage : arena.Passage log after)
    (tidy : arena.Tidy) :
    after.liveCount + log.countP ArenaEvent.isRelease =
      arena.liveCount + log.countP ArenaEvent.isIssue := by
  induction passage with
  | refl => rfl
  | modify id change _ induction =>
      rw [induction (tidy.modify id change), liveCount_modify]
  | count counter _ _ _ induction => exact induction (tidy.count counter)
  | issue allocated _ induction =>
      have counted := induction (tidy.allocate allocated)
      rw [tidy.liveCount_allocate allocated] at counted
      simp only [List.countP_cons, ArenaEvent.isRelease, ArenaEvent.isIssue,
        Bool.false_eq_true, if_true, if_false]
      omega
  | refuse refused _ induction =>
      rw [induction (tidy.allocate_error refused).1, tidy.refused refused]
      rfl
  | release live _ induction =>
      have counted := induction (tidy.discard _)
      have fewer := tidy.liveCount_discard live
      simp only [List.countP_cons, ArenaEvent.isRelease, ArenaEvent.isIssue,
        Bool.false_eq_true, if_true, if_false]
      omega
  | reset _ induction =>
      simpa [ArenaEvent.isRelease, ArenaEvent.isIssue] using
        induction tidy.resetStats

theorem counters_eq (passage : arena.Passage log after) (tidy : arena.Tidy)
    (goesOn : .reset ∉ log) :
    after.stats.allocated =
        arena.stats.allocated + .ofNat (log.countP ArenaEvent.isIssue) ∧
      after.stats.freed =
        arena.stats.freed + .ofNat (log.countP ArenaEvent.isRelease) := by
  induction passage with
  | refl => simp
  | modify id change _ induction => exact induction (tidy.modify id change) goesOn
  | @count arena after log counter notAllocated notFreed _ induction =>
      have counted := induction (tidy.count counter) goesOn
      have allocated := arena.stats.get_add_of_ne (Ne.symm notAllocated) 1
      have freed := arena.stats.get_add_of_ne (Ne.symm notFreed) 1
      rw [show (arena.count counter).stats.allocated = arena.stats.allocated from
        allocated, show (arena.count counter).stats.freed = arena.stats.freed from
        freed] at counted
      exact counted
  | issue allocated _ induction =>
      have counted := induction (tidy.allocate allocated)
        fun member => goesOn (List.mem_cons_of_mem _ member)
      rw [stats_allocate allocated] at counted
      simp only [List.countP_cons, ArenaEvent.isRelease, ArenaEvent.isIssue]
      simpa [Stats.add, UInt64.add_assoc, UInt64.add_comm 1] using counted
  | refuse refused _ induction =>
      have counted := induction (tidy.allocate_error refused).1 goesOn
      rw [tidy.refused refused] at counted
      exact counted
  | release live _ induction =>
      have counted := induction (tidy.discard _)
        fun member => goesOn (List.mem_cons_of_mem _ member)
      rw [stats_discard live] at counted
      simp only [List.countP_cons, ArenaEvent.isRelease, ArenaEvent.isIssue]
      simpa [Stats.add, UInt64.add_assoc, UInt64.add_comm 1] using counted
  | reset _ _ => exact absurd List.mem_cons_self goesOn

end Passage

/-- Where every slot is, and what that means for allocations. -/
structure Accounted (arena : Arena P) : Prop where
  nodup : arena.free.Nodup
  handedOut : ∀ index ∈ arena.free, index < arena.slots.size
  bounded : arena.slots.size ≤ arena.capacity
  occupied : ∀ index, (arena.slots[index]?.bind Slot.node).isSome ↔
    index < arena.slots.size ∧ index ∉ arena.free
  /-- The number of live nodes is no truncated difference. -/
  enough : arena.free.length ≤ arena.slots.size
  live : arena.liveIds.Nodup ∧ arena.liveIds.length = arena.liveCount ∧
    ∀ id, id ∈ arena.liveIds ↔ arena.contains id = true
  few : arena.liveCount ≤ arena.capacity
  allocates : ∀ payload, (∃ id after, allocate payload arena = .ok id after) ↔
    arena.liveCount < arena.capacity
  refuses : ∀ payload error after, allocate payload arena = .error error after →
    error = .cause (.arenaExhausted arena.capacity) ∧
      after = { arena with stats := arena.stats.add .refused 1 }

theorem mem_liveIds {id : NodeId} :
    id ∈ arena.liveIds ↔ arena.contains id = true := by
  obtain ⟨index, generation⟩ := id
  simp only [liveIds, List.mem_filterMap, Option.map_eq_some_iff, Prod.exists,
    List.mem_zipIdx_iff_getElem?, Array.getElem?_toList, contains, node?,
    NodeId.mk.injEq]
  constructor
  · rintro ⟨slot, index, isSlot, node, isNode, rfl, rfl⟩
    simp [isSlot, isNode]
  · intro isLive
    cases isSlot : arena.slots[index]? with
    | none => simp [isSlot] at isLive
    | some slot =>
        simp only [isSlot] at isLive
        split at isLive
        · obtain ⟨node, isNode⟩ := Option.isSome_iff_exists.mp isLive
          exact ⟨slot, index, isSlot, node, isNode, rfl, ‹_›⟩
        · cases isLive

theorem nodup_liveIds (arena : Arena P) : arena.liveIds.Nodup := by
  have ordered : arena.slots.toList.zipIdx.Pairwise (·.2 < ·.2) := by
    apply List.pairwise_map.mp
    rw [List.zipIdx_map_snd]
    exact List.pairwise_lt_range'
  apply List.pairwise_filterMap.mpr
  apply ordered.imp
  rintro ⟨slot, index⟩ ⟨other, position⟩ before id isId _ isOther rfl
  obtain ⟨_, _, rfl⟩ := Option.map_eq_some_iff.mp isId
  obtain ⟨_, _, same⟩ := Option.map_eq_some_iff.mp isOther
  exact absurd (NodeId.mk.inj same).1 (Nat.ne_of_gt before)

theorem Tidy.liveCount_add (tidy : arena.Tidy) (again : after.Tidy) {more : List NodeId}
    (nodup : more.Nodup) (apart : ∀ id ∈ more, arena.contains id = false)
    (live : ∀ id, after.contains id = true ↔ arena.contains id = true ∨ id ∈ more) :
    after.liveCount = arena.liveCount + more.length := by
  have distinct : (arena.liveIds ++ more).Nodup := by
    refine List.nodup_append.mpr ⟨arena.nodup_liveIds, nodup, ?_⟩
    rintro id member _ isMore rfl
    cases (mem_liveIds.mp member).symm.trans (apart id isMore)
  rw [tidy.liveCount_eq arena.nodup_liveIds fun id => mem_liveIds.symm,
    again.liveCount_eq distinct fun id => by
      rw [live, List.mem_append, mem_liveIds], List.length_append]

theorem Tidy.accounted (tidy : arena.Tidy) : arena.Accounted where
  nodup := tidy.nodup
  handedOut := by
    intro index member
    obtain ⟨_, vacant⟩ := tidy.vacant index member
    exact (Array.getElem?_eq_some_iff.mp vacant).1
  bounded := tidy.bounded
  occupied := by
    intro index
    cases isSlot : arena.slots[index]? with
    | none =>
        have beyond := Array.getElem?_eq_none_iff.mp isSlot
        simp only [Option.bind_none, Option.isSome_none, Bool.false_eq_true, false_iff]
        omega
    | some slot =>
        have inRange := (Array.getElem?_eq_some_iff.mp isSlot).1
        rw [Option.bind_some]
        refine ⟨fun taken => ⟨inRange, fun member => ?_⟩, fun ⟨_, used⟩ =>
          tidy.taken index slot isSlot used⟩
        obtain ⟨_, vacant⟩ := tidy.vacant index member
        rw [Option.some.inj (isSlot.symm.trans vacant)] at taken
        cases taken
  enough := tidy.length_free_le
  live := by
    refine ⟨arena.nodup_liveIds, ?_, fun id => mem_liveIds⟩
    exact (tidy.liveCount_eq arena.nodup_liveIds fun id => mem_liveIds.symm).symm
  few := Nat.le_trans (Nat.sub_le ..) tidy.bounded
  allocates := tidy.allocate_iff
  refuses := by
    intro payload error after refused
    exact ⟨(tidy.allocate_error refused).2, tidy.refused refused⟩

theorem Passage.live_eq (passage : arena.Passage log after) (tidy : arena.Tidy)
    (fresh : arena.liveCount = 0) (zero : arena.stats = {}) (goesOn : .reset ∉ log)
    (few : log.countP ArenaEvent.isIssue < UInt64.size) :
    after.stats.live.toNat = after.liveCount := by
  have counted := passage.liveCount_add_releases tidy
  obtain ⟨allocated, freed⟩ := passage.counters_eq tidy goesOn
  unfold UInt64.size at few
  generalize log.countP ArenaEvent.isIssue = issues at *
  generalize log.countP ArenaEvent.isRelease = releases at *
  have allocated : after.stats.allocated.toNat = issues := by
    simp only [allocated, zero, UInt64.zero_add, UInt64.toNat_ofNat']
    omega
  have freed : after.stats.freed.toNat = releases := by
    simp only [freed, zero, UInt64.zero_add, UInt64.toNat_ofNat']
    omega
  unfold Stats.live
  simp only [UInt64.le_iff_toNat_le, allocated, freed]
  split
  · simp only [UInt64.toNat_zero]
    omega
  · rw [UInt64.toNat_sub_of_le _ _ (by rw [UInt64.le_iff_toNat_le]; omega),
      allocated, freed]
    omega

theorem Tidy.perform (tidy : arena.Tidy) (request : Request P) :
    (arena.perform request).Tidy := by
  obtain ⟨_, passage, _⟩ := arena.exists_passage request
  exact passage.tidy tidy

theorem Tidy.history (tidy : arena.Tidy) (requests : List (Request P)) :
    (requests.foldl Arena.perform arena).Tidy := by
  induction requests generalizing arena with
  | nil => exact tidy
  | cons request rest induction => exact induction (tidy.perform request)

/-- Whatever is asked of an arena, each slot ever handed out either holds a node
or waits to be handed out again, and as long as the counters go on they tell how
many nodes are live. -/
theorem slots_are_accounted_for {capacity : Nat} {start : Arena P}
    (started : withCapacity capacity = .ok start)
    (operations : List (Operation P)) :
    (operations.foldl operate start).Accounted ∧
      (operations.foldl operate start).capacity = capacity ∧
      (∃ log, start.Chronicle operations log) ∧
      ∀ log, start.Chronicle operations log →
        (∀ operation ∈ operations, operation ≠ .resetStats) →
        log.countP ArenaEvent.isIssue < UInt64.size →
        (operations.foldl operate start).stats.live.toNat =
          (operations.foldl operate start).liveCount := by
  obtain ⟨_, tidy, _⟩ := vacant_withCapacity started
  obtain rfl := eq_of_withCapacity started
  obtain ⟨log, chronicle⟩ := exists_chronicle { capacity } operations
  refine ⟨(chronicle.passage.tidy tidy).accounted, chronicle.passage.capacity_eq,
    ⟨log, chronicle⟩, fun other told calls few => ?_⟩
  exact told.passage.live_eq tidy rfl rfl (told.goes_on calls) few

def recycling : List (Operation Nat) :=
  [.call (.allocate (some 5)), .call (.allocate none), .call (.release ⟨0, 0⟩),
    .call (.allocate (some 7)), .call (.allocate none)]

theorem slots_are_accounted_for_recycled :
    (withCapacity 2 : Except Error (Arena Nat)) = .ok { capacity := 2 } ∧
      (recycling.foldl operate { capacity := 2 }).stats.live.toNat =
        (recycling.foldl operate { capacity := 2 }).liveCount := by
  have started : (withCapacity 2 : Except Error (Arena Nat)) =
      .ok { capacity := 2 } := rfl
  have chronicle : ({ capacity := 2 } : Arena Nat).Chronicle recycling
      ([.issued ⟨0, 0⟩] ++ ([.issued ⟨1, 0⟩] ++ ([.released ⟨0, 0⟩] ++
        ([.issued ⟨0, 1⟩] ++ ([] ++ []))))) := by
    refine .call (.issue rfl .refl) (by simp) ?_ <|
      .call (.issue rfl .refl) (by simp) ?_ <|
      .call (.release rfl .refl) (by simp) ?_ <|
      .call (.issue rfl .refl) (by simp) ?_ <|
      .call (@Passage.refuse _ _ _ _ none _ _ rfl .refl) (by simp) ?_ .nil
    all_goals
      intro id made
      cases made
    all_goals exact List.mem_singleton_self _
  obtain ⟨_, _, _, live⟩ := slots_are_accounted_for started recycling
  exact ⟨started, live _ chronicle (by simp [recycling]) (by decide)⟩

end LinkedBTree.Arena
