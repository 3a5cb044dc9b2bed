import LinkedBTree.Proofs.Arena.Handles
import LinkedBTree.Proofs.Arena.Halting
import LinkedBTree.Proofs.Maintaining

namespace LinkedBTree.Arena

/-! What holds of an arena whatever is done to it. -/

variable {P : Type}

/-- The links are those of some forest and the slots in order; what the nodes carry may be
anything. -/
structure WellLinked (arena : Arena P) : Prop where
  forest : ∃ kids, arena.Forest kids
  tidy : arena.Tidy

namespace WellLinked

variable {arena after : Arena P}

theorem withCapacity {capacity : Nat} (started : withCapacity capacity = .ok arena) :
    arena.WellLinked :=
  ⟨⟨_, forest_withCapacity started⟩, (vacant_withCapacity started).2.1⟩

theorem perform (linked : arena.WellLinked) (request : Request P) :
    (arena.perform request).WellLinked := by
  obtain ⟨⟨kids, forest⟩, tidy⟩ := linked
  exact ⟨forest.perform request, tidy.perform request⟩

theorem operations (linked : arena.WellLinked) (operations : List (Operation P)) :
    (operations.foldl Arena.operate arena).WellLinked := by
  obtain ⟨⟨kids, forest⟩, tidy⟩ := linked
  obtain ⟨log, chronicle⟩ := arena.exists_chronicle operations
  exact ⟨forest.operations operations, chronicle.passage.tidy tidy⟩

theorem operate (linked : arena.WellLinked) (operation : Operation P) :
    (arena.operate operation).WellLinked :=
  linked.operations [operation]

theorem maintains_remove (parent child : NodeId) :
    Maintains WellLinked (Arena.remove parent child : Action P Unit) :=
  fun _ linked => linked.perform (.remove parent child)

theorem maintains_collapse (id : NodeId) :
    Maintains WellLinked (Arena.collapse id : Action P (Option P)) :=
  fun _ linked => linked.perform (.collapse id)

theorem maintains_release (id : NodeId) :
    Maintains WellLinked (dropping (Arena.release id) : Action P Unit) := by
  intro arena linked
  have kept := linked.perform (.release id)
  rw [Arena.perform] at kept
  unfold dropping
  cases done : Arena.release id (arena, []) <;> rwa [done] at kept

theorem modify_payload (linked : arena.WellLinked) (id : NodeId)
    (payload : Node P → Option P) :
    (arena.modify id fun node => { node with payload := payload node }).WellLinked := by
  obtain ⟨⟨kids, forest⟩, tidy⟩ := linked
  exact ⟨⟨kids, forest.modify_payload id payload⟩, tidy.modify id _⟩

theorem halting (linked : arena.WellLinked) : arena.Halting := by
  obtain ⟨⟨kids, forest⟩, tidy⟩ := linked
  exact forest.halting tidy

theorem length_liveIds (linked : arena.WellLinked) :
    arena.liveIds.length = arena.liveCount :=
  linked.tidy.accounted.live.2.1

end WellLinked

end LinkedBTree.Arena
