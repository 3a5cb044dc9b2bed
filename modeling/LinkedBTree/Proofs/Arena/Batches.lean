import Mathlib.Data.List.Nodup
import LinkedBTree.Proofs.Arena.Handles
import LinkedBTree.Proofs.Arena.Slots

namespace LinkedBTree.Arena

/-! What the counters tell of several nodes taken at once, also where the arena
fills up on the way and all of them go back. -/

variable {P : Type} {arena after : Arena P} {number : Nat} {taken : List NodeId}

theorem stats_allocateMany {leaves : List NodeId}
    (done : allocateMany number taken arena = .ok leaves after) :
    after.stats = arena.stats.add .allocated (.ofNat number) := by
  induction number generalizing taken arena with
  | zero =>
      obtain ⟨_, rfl⟩ := EStateM.Result.ok.inj done
      exact (arena.stats.add_zero _).symm
  | succ number induction =>
      rw [run_allocateMany] at done
      cases first : allocate none arena with
      | error error stopped =>
          simp only [first] at done
          split at done <;> cases done
      | ok id grown =>
          simp only [first] at done
          rw [induction done, stats_allocate first, Stats.add_add, UInt64.add_comm]
          exact congrArg _ (UInt64.ofNat_add number 1).symm

theorem Tidy.foldl_discard_counts {ids : List NodeId} (tidy : arena.Tidy)
    (nodup : ids.Nodup) (live : ∀ id ∈ ids, arena.contains id = true) :
    (ids.foldl Arena.discard arena).liveCount + ids.length = arena.liveCount ∧
      (ids.foldl Arena.discard arena).stats =
        arena.stats.add .freed (.ofNat ids.length) := by
  induction ids generalizing arena with
  | nil => exact ⟨rfl, (arena.stats.add_zero _).symm⟩
  | cons id rest induction =>
      obtain ⟨outside, nodup⟩ := List.nodup_cons.mp nodup
      have isLive := live id List.mem_cons_self
      obtain ⟨fewer, counted⟩ := induction (tidy.discard id) nodup fun other member =>
        contains_discard.mpr ⟨fun same => outside (same ▸ member),
          live other (List.mem_cons_of_mem _ member)⟩
      rw [List.foldl_cons, List.length_cons]
      constructor
      · rw [← tidy.liveCount_discard isLive, ← fewer, Nat.add_assoc]
      · rw [counted, stats_discard isLive, Stats.add_add, UInt64.add_comm]
        exact congrArg _ (UInt64.ofNat_add rest.length 1).symm

/-- All nodes there was room for were taken and given back, and one was refused. -/
structure Unwound (arena after : Arena P) : Prop where
  capacity : after.capacity = arena.capacity
  liveCount : after.liveCount = arena.liveCount
  stats : after.stats = ((arena.stats.add .refused 1).add .allocated
    (.ofNat arena.spare)).add .freed (.ofNat arena.spare)

namespace Unwound

theorem setting (unwound : arena.Unwound after) : after.setting = arena.setting := by
  unfold Arena.setting
  rw [unwound.capacity, unwound.stats]
  rfl

variable {id : NodeId} {change : Node P → Node P}

theorem changed (unwound : (arena.modify id change).Unwound after) :
    arena.Unwound after where
  capacity := unwound.capacity
  liveCount := unwound.liveCount.trans (liveCount_modify ..)
  stats := by
    have counted := unwound.stats
    rw [spare, liveCount_modify] at counted
    exact counted

theorem undone (unwound : arena.Unwound after) :
    arena.Unwound (after.modify id change) :=
  ⟨unwound.capacity, (liveCount_modify ..).trans unwound.liveCount, unwound.stats⟩

end Unwound

private theorem Tidy.allocateMany_counts {error : Error} (tidy : arena.Tidy)
    (blank : arena.Blank taken)
    (failed : allocateMany number taken arena = .error error after) :
    after.liveCount + taken.length = arena.liveCount ∧ after.stats =
      ((arena.stats.add .refused 1).add .allocated (.ofNat arena.spare)).add .freed
        (.ofNat (taken.length + arena.spare)) := by
  induction number generalizing taken arena with
  | zero => cases failed
  | succ number induction =>
      rw [blank.run_allocateMany] at failed
      cases first : Arena.allocate none arena with
      | error cause stopped =>
          simp only [first] at failed
          obtain ⟨_, rfl⟩ := EStateM.Result.error.inj failed
          -- It was refused for want of room, so nothing is spare.
          have full : ¬arena.liveCount < arena.capacity := by
            rw [← tidy.allocate_iff none]
            rintro ⟨_, _, done⟩
            cases first.symm.trans done
          have none : arena.spare = 0 := by
            unfold spare
            omega
          obtain rfl := tidy.refused first
          obtain ⟨fewer, counted⟩ := (tidy.count .refused).foldl_discard_counts
            blank.reverse.nodup fun id member =>
              contains_iff.mpr ⟨_, blank.reverse.empty id member⟩
          rw [List.length_reverse] at fewer counted
          refine ⟨fewer, ?_⟩
          rw [counted, none, Nat.add_zero]
          exact congrArg (Stats.add · _ _) (Stats.add_zero ..).symm
      | ok id grown =>
          -- One node less is spare, and one more is to be given back.
          simp only [first] at failed
          have count := tidy.liveCount_allocate first
          have kept := setting_allocate none arena
          rw [first, reached_ok] at kept
          have room := (tidy.allocate_iff none).mp ⟨id, grown, first⟩
          obtain ⟨fewer, counted⟩ :=
            induction (tidy.allocate first) (blank.cons first) failed
          rw [List.length_cons] at fewer counted
          refine ⟨by omega, ?_⟩
          have one : arena.spare = 1 + grown.spare := by
            unfold spare
            rw [capacity_of_setting kept, count]
            omega
          rw [counted, stats_allocate first, Stats.add_right_comm _ .allocated .refused,
            Stats.add_add, one, UInt64.ofNat_add 1, ← Nat.add_assoc taken.length]
          rfl

theorem Tidy.unwound {error : Error} (tidy : arena.Tidy)
    (failed : allocateMany number [] arena = .error error after) :
    arena.Unwound after := by
  obtain ⟨live, counted⟩ := tidy.allocateMany_counts (.nil arena) failed
  rw [List.length_nil, Nat.zero_add] at counted
  have kept := (stable_setting arena).allocateMany number [] arena rfl
  rw [failed] at kept
  exact ⟨capacity_of_setting kept, live, counted⟩

end LinkedBTree.Arena
