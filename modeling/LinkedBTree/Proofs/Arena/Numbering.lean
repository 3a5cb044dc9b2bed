import LinkedBTree.Proofs.Arena.Copying

namespace LinkedBTree.Arena

/-! As long as no slot was given back, handles are issued in the order of their
slots. -/

variable {P : Type} {target between after : Arena P} {ids more : List NodeId}

/-- Fresh slots were taken for `ids`, in this order, unless slots had been given
back. -/
def Numbered (target after : Arena P) (ids : List NodeId) : Prop :=
  target.free = [] → after.free = [] ∧
    after.slots.size = target.slots.size + ids.length ∧
    ids = (List.range' target.slots.size ids.length).map (NodeId.mk · 0)

namespace Numbered

theorem refl (target : Arena P) : Numbered target target [] :=
  fun unused => ⟨unused, rfl, rfl⟩

theorem append (first : Numbered target between ids)
    (second : Numbered between after more) : Numbered target after (ids ++ more) := by
  intro unused
  obtain ⟨unused, size, inOrder⟩ := first unused
  obtain ⟨unused, finalSize, moreInOrder⟩ := second unused
  refine ⟨unused, ?_, ?_⟩
  · rw [finalSize, size, List.length_append, Nat.add_assoc]
  · rw [List.length_append, ← List.range'_append_1, List.map_append, ← inOrder, ← size,
      ← moreInOrder]

theorem allocate {payload : Option P} {id : NodeId}
    (allocated : Arena.allocate payload target = .ok id after) :
    Numbered target after [id] := by
  intro unused
  unfold Arena.allocate at allocated
  simp only [unused] at allocated
  split at allocated
  · obtain ⟨rfl, rfl⟩ := EStateM.Result.ok.inj allocated
    exact ⟨rfl, Array.size_push .., rfl⟩
  · cases allocated

theorem filled (numbered : Numbered target between ids) (into : NodeId)
    (payload : Option P) : Numbered target (Arena.filled into payload between) ids := by
  cases payload with
  | none => exact numbered
  | some payload => simpa [Numbered, Arena.filled, Arena.modify] using numbered

theorem attachLast (numbered : Numbered target between ids) (parent child : NodeId) :
    Numbered target (between.attachLast parent child) ids := by
  unfold Arena.attachLast attach place join joinForward joinBackward
  cases between.lastChild? parent <;>
    simpa [Numbered, Arena.modify] using numbered

theorem ids_eq {capacity : Nat} (numbered : Numbered { capacity } after ids) :
    ids = (List.range ids.length).map (NodeId.mk · 0) := by
  rw [List.range_eq_range']
  exact (numbered rfl).2.2

end Numbered

end LinkedBTree.Arena
