import LinkedBTree.Proofs.Arena.Allocation
import LinkedBTree.Proofs.Arena.Changing

namespace LinkedBTree.Arena

/-! How many nodes are live, and when there is room for more. -/

variable {P : Type} {arena after : Arena P}

def spare (arena : Arena P) : Nat :=
  arena.capacity - arena.liveCount

/-- What changes of nodes leave alone. -/
def setting (arena : Arena P) : Nat × UInt64 :=
  (arena.capacity, arena.stats.splits)

theorem capacity_of_setting (same : after.setting = arena.setting) :
    after.capacity = arena.capacity :=
  congrArg Prod.fst same

section

variable (arena)

theorem unmoved_setting : Unmoved (setting (P := P)) :=
  fun _ _ _ => rfl

@[simp] theorem setting_modify (id : NodeId) (change : Node P → Node P) :
    (arena.modify id change).setting = arena.setting := rfl

@[simp] theorem setting_attachLast (parent child : NodeId) :
    (arena.attachLast parent child).setting = arena.setting :=
  unmoved_setting.attachLast ..

theorem setting_count {counter : Counter} (different : .splits ≠ counter) :
    (arena.count counter).setting = arena.setting :=
  congrArg (Prod.mk arena.capacity)
    (arena.stats.get_add_of_ne different 1)

@[simp] theorem setting_discard (id : NodeId) :
    (arena.discard id).setting = arena.setting := by
  unfold discard
  split
  · exact setting_count _ (by decide)
  · rfl

@[simp] theorem setting_foldl_discard (ids : List NodeId) :
    (ids.foldl discard arena).setting = arena.setting :=
  foldl_keeps setting_discard ids arena

end

theorem unmoved_liveCount : Unmoved (liveCount (P := P)) :=
  fun arena id change => congrArg (· - arena.free.length) (size_slots_modify arena id change)

@[simp] theorem liveCount_modify (arena : Arena P) (id : NodeId)
    (change : Node P → Node P) :
    (arena.modify id change).liveCount = arena.liveCount :=
  unmoved_liveCount arena id change

theorem setting_allocate (payload : Option P) (arena : Arena P) :
    (reached (allocate payload arena)).setting = arena.setting := by
  unfold allocate
  split
  · split
    · exact setting_count _ (by decide)
    · rfl
  · split
    · exact setting_count _ (by decide)
    · exact setting_count _ (by decide)

theorem stable_setting (arena : Arena P) :
    Stable fun after : Arena P => after.setting = arena.setting where
  modify same _ _ := same
  discard same _ := (setting_discard ..).trans same
  allocate payload before same := (setting_allocate payload before).trans same
  collapses same := (setting_count _ (by decide)).trans same

theorem stable_tidy : Stable (Tidy (P := P)) where
  modify tidy := tidy.modify
  discard tidy := tidy.discard
  allocate payload before tidy := by
    cases done : allocate payload before with
    | ok id after => exact tidy.allocate done
    | error error after => exact (tidy.allocate_error done).1
  collapses tidy := tidy.count _

namespace Tidy

theorem length_free_le (tidy : arena.Tidy) :
    arena.free.length ≤ arena.slots.size := by
  have inRange : arena.free ⊆ List.range arena.slots.size := by
    intro index member
    obtain ⟨_, vacant⟩ := tidy.vacant index member
    exact List.mem_range.mpr (Array.getElem?_eq_some_iff.mp vacant).1
  simpa using tidy.nodup.length_le_of_subset inRange

theorem liveCount_eq (tidy : arena.Tidy) {ids : List NodeId} (nodup : ids.Nodup)
    (live : ∀ id, arena.contains id = true ↔ id ∈ ids) :
    arena.liveCount = ids.length := by
  have apart : (arena.free ++ ids.map NodeId.index).Nodup := by
    refine List.nodup_append.mpr ⟨tidy.nodup, nodup_indexes nodup fun id member =>
      (live id).mpr member, ?_⟩
    rintro index back _ isLive rfl
    obtain ⟨id, member, rfl⟩ := List.mem_map.mp isLive
    obtain ⟨node, found⟩ := contains_iff.mp ((live id).mpr member)
    obtain ⟨generation, vacant⟩ := tidy.vacant _ back
    simp [node?, vacant] at found
  have few : arena.free ++ ids.map NodeId.index ⊆ List.range arena.slots.size := by
    intro index member
    rw [List.mem_range]
    rcases List.mem_append.mp member with back | isLive
    · obtain ⟨_, vacant⟩ := tidy.vacant index back
      exact (Array.getElem?_eq_some_iff.mp vacant).1
    · obtain ⟨id, listed, rfl⟩ := List.mem_map.mp isLive
      obtain ⟨node, found⟩ := contains_iff.mp ((live id).mpr listed)
      exact index_lt_of_node? found
  have enough : List.range arena.slots.size ⊆ arena.free ++ ids.map NodeId.index := by
    intro index inRange
    rw [List.mem_append]
    by_cases back : index ∈ arena.free
    · exact .inl back
    · right
      obtain ⟨slot, isSlot⟩ : ∃ slot, arena.slots[index]? = some slot :=
        ⟨_, Array.getElem?_eq_getElem (List.mem_range.mp inRange)⟩
      obtain ⟨node, isTaken⟩ :=
        Option.isSome_iff_exists.mp (tidy.taken index slot isSlot back)
      refine List.mem_map.mpr ⟨⟨index, slot.generation⟩, (live _).mp
        (contains_iff.mpr ⟨node, ?_⟩), rfl⟩
      simp [node?, isSlot, isTaken]
  have few := apart.length_le_of_subset few
  have enough := List.nodup_range.length_le_of_subset enough
  rw [List.length_append, List.length_map, List.length_range] at enough few
  unfold liveCount
  omega

theorem liveCount_allocate {payload : Option P} {id : NodeId}
    (tidy : arena.Tidy) (done : Arena.allocate payload arena = .ok id after) :
    after.liveCount = arena.liveCount + 1 := by
  have short := tidy.length_free_le
  unfold Arena.allocate at done
  cases free : arena.free with
  | nil =>
      simp only [free] at done
      split at done
      · obtain ⟨rfl, rfl⟩ := EStateM.Result.ok.inj done
        simp [liveCount, Arena.count, free]
      · cases done
  | cons index rest =>
      rw [free, List.length_cons] at short
      simp only [free] at done
      split at done
      · obtain ⟨rfl, rfl⟩ := EStateM.Result.ok.inj done
        simp only [liveCount, Arena.count, Array.size_setIfInBounds, free,
          List.length_cons]
        omega
      · cases done

theorem allocate_iff (tidy : arena.Tidy) (payload : Option P) :
    (∃ id after, Arena.allocate payload arena = .ok id after) ↔
      arena.liveCount < arena.capacity := by
  have bounded := tidy.bounded
  unfold Arena.allocate liveCount
  cases free : arena.free with
  | nil =>
      simp only [List.length_nil, Nat.sub_zero]
      by_cases room : arena.slots.size < arena.capacity
      · rw [if_pos room]
        exact ⟨fun _ => room, fun _ => ⟨_, _, rfl⟩⟩
      · rw [if_neg room]
        exact ⟨nofun, fun isRoom => absurd isRoom room⟩
  | cons index rest =>
      obtain ⟨generation, vacant⟩ := tidy.vacant index (by simp [free])
      have inRange := (Array.getElem?_eq_some_iff.mp vacant).1
      simp only [vacant, List.length_cons]
      exact ⟨fun _ => by omega, fun _ => ⟨_, _, rfl⟩⟩

theorem allocateMany_eq_ok (tidy : arena.Tidy) {number : Nat}
    (room : arena.liveCount + number ≤ arena.capacity) (taken : List NodeId) :
    ∃ leaves after, allocateMany number taken arena = .ok leaves after := by
  induction number generalizing taken arena with
  | zero => exact ⟨_, _, rfl⟩
  | succ number induction =>
      obtain ⟨id, grown, allocated⟩ := (tidy.allocate_iff none).mpr (by omega)
      have count := tidy.liveCount_allocate allocated
      have kept := setting_allocate none arena
      rw [allocated, reached_ok] at kept
      have capacity := capacity_of_setting kept
      rw [run_allocateMany, allocated]
      exact induction (tidy.allocate allocated) (by omega) (id :: taken)

theorem allocateMany_eq_error (tidy : arena.Tidy) {number : Nat}
    (full : arena.capacity < arena.liveCount + number) {taken : List NodeId}
    (blank : arena.Blank taken) :
    ∃ after, allocateMany number taken arena =
      .error (.cause (.arenaExhausted arena.capacity)) after := by
  induction number generalizing taken arena with
  | zero =>
      have bounded := tidy.bounded
      unfold liveCount at full
      omega
  | succ number induction =>
      have kept := setting_allocate none arena
      rw [blank.run_allocateMany]
      cases allocated : Arena.allocate none arena with
      | error error stopped =>
          obtain ⟨_, rfl⟩ := tidy.allocate_error allocated
          exact ⟨_, rfl⟩
      | ok id grown =>
          rw [allocated, reached_ok] at kept
          have count := tidy.liveCount_allocate allocated
          have capacity := capacity_of_setting kept
          dsimp only
          rw [← capacity]
          exact induction (tidy.allocate allocated) (by omega) (blank.cons allocated)

end Tidy

end LinkedBTree.Arena
