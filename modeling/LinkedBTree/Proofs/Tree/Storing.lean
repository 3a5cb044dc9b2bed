import LinkedBTree.Tree.Store
import LinkedBTree.Proofs.Tree.Splitting
import LinkedBTree.Proofs.Tree.Standing

namespace LinkedBTree.Edit

/-! Storing a value at a place in a leaf: it comes between the entries that
were there, or the arena is full and nothing changes. -/

variable {α : Type}

open Subtree

variable {tree : Tree α} {path : List (Frame α)} {leaf : NodeId}
  {list longer : EntryList α} {element : Nat}

/-- The place of a new entry: not behind the entry that a separator copies. -/
def Fits (path : List (Frame α)) (back : List (Entry α)) : Prop :=
  back = [] → ∀ frame ∈ path, frame.after = []

def Room (tree : Tree α) (list : EntryList α) : Prop :=
  tree.config.Overfull list → tree.arena.liveCount +
    (list.pieces tree.config.chunkSize).length ≤ tree.arena.capacity

private theorem room_setList {id : NodeId} {other : EntryList α} :
    Room (tree.setList id other) list ↔ Room tree list := by
  unfold Room
  rw [Tree.setList, Arena.liveCount_modify]
  rfl

private theorem splitIfFull_room
    (embodies : tree.Embodies (plug path (.node leaf (some longer) [])))
    (room : Room tree longer) :
    ∃ fresh arena, splitIfFull leaf longer.length element tree =
        .ok () { tree with arena } ∧
      tree.config.Supplied longer fresh ∧
      arena.setting = (tree.arena.capacity, tree.arena.stats.splits +
        if tree.config.Overfull longer then 1 else 0) ∧
      ({ tree with arena } : Tree α).Embodies
        (plug path (grown tree.config leaf longer fresh)) := by
  unfold splitIfFull grown
  rw [run_get_bind]
  by_cases long : tree.config.maxValues ≤ longer.length
  · rw [if_pos long]
    by_cases several : 2 ≤ (longer.pieces tree.config.chunkSize).length
    · have full : tree.config.Overfull longer := ⟨long, several⟩
      obtain ⟨fresh, arena, done, length, kept, embodied⟩ :=
        split_several embodies several (room full)
      refine ⟨fresh, arena, ?_, fun _ => length, ?_, ?_⟩
      · rw [run_tryCatch, run_bind_of_ok done]
        rfl
      · rw [kept, if_pos full]
      · rw [if_pos full]
        exact embodied
    · have short : ¬tree.config.Overfull longer := fun full => several full.2
      refine ⟨[], tree.arena, ?_, fun full => absurd full short, ?_, ?_⟩
      · rw [run_tryCatch, run_bind_of_ok (split_few embodies (by omega))]
        rfl
      · rw [if_neg short, UInt64.add_zero]
        rfl
      · rw [if_neg short]
        exact embodies
  · have short : ¬tree.config.Overfull longer := fun full => long full.1
    rw [if_neg long]
    refine ⟨[], tree.arena, rfl, fun full => absurd full short, ?_, ?_⟩
    · rw [if_neg short, UInt64.add_zero]
      rfl
    · rw [if_neg short]
      exact embodies

/-- Taking the new entry out again leaves the list that was there before. -/
private theorem run_retract {front back : List (Entry α)} {entry : Entry α}
    (isList : tree.list leaf = .ok longer)
    (split : longer.entries = front ++ entry :: back) :
    retract leaf front.length tree = .ok () (tree.setList leaf ⟨front ++ back⟩) := by
  unfold retract
  rw [run_get_bind, run_lift_bind isList, run_lift_bind (EntryList.eraseIdx_eq split)]
  rfl

private theorem splitIfFull_refused {front back : List (Entry α)} {entry : Entry α}
    (embodies : tree.Embodies (plug path (.node leaf (some longer) [])))
    (split : longer.entries = front ++ entry :: back) (none : ¬Room tree longer) :
    ∃ arena error, splitIfFull leaf longer.length front.length tree =
        .error error { tree with arena } ∧
      error.root = .arenaExhausted tree.arena.capacity ∧
      tree.arena.Unwound arena ∧
      ({ tree with arena } : Tree α).Embodies
        (plug path (.node leaf (some ⟨front ++ back⟩) [])) := by
  obtain ⟨full, none⟩ := Classical.not_imp.mp none
  obtain ⟨arena, failed, unwound, embodied⟩ :=
    split_refused embodies full.2 (Nat.lt_of_not_le none)
  refine ⟨arena.modify leaf ({ · with payload := some ⟨front ++ back⟩ }),
    .context s!"unable to insert into {leaf}" (.context s!"unable to split {leaf}"
      (.cause (.arenaExhausted tree.arena.capacity))),
    ?_, rfl, unwound.undone, embodied.setList _⟩
  unfold splitIfFull
  rw [run_get_bind, if_pos full.1, run_tryCatch, run_bind, failed]
  dsimp only
  rw [run_bind_of_ok (run_retract embodied.list_eq split)]
  rfl

section

variable {front back : List (Entry α)}

private theorem run_store
    (embodies : tree.Embodies (plug path (.node leaf (some list) [])))
    (split : list.entries = front ++ back) (value : α) :
    store leaf front.length value tree =
      (splitIfFull leaf (⟨front ++ ⟨value, tree.values.size⟩ :: back⟩ :
          EntryList α).length front.length >>= fun _ => do
        modify fun tree => { tree with values := tree.values.push value }
        pure tree.values.size : Edit α Nat)
        (tree.setList leaf ⟨front ++ ⟨value, tree.values.size⟩ :: back⟩) := by
  have inserted : within s!"unable to insert into {leaf}"
      (liftM (list.insertIdx front.length ⟨value, tree.values.size⟩) :
        Edit α (EntryList α)) tree =
      .ok ⟨front ++ ⟨value, tree.values.size⟩ :: back⟩ tree := by
    rw [run_within, EntryList.insertIdx_eq split]
    rfl
  unfold store
  rw [run_get_bind, run_lift_bind embodies.list_eq, run_bind_of_ok inserted,
    run_bind_of_ok (putList_eq ..)]

theorem store_room
    (embodies : tree.Embodies (plug path (.node leaf (some list) [])))
    (split : list.entries = front ++ back) (value : α)
    (room : Room tree ⟨front ++ ⟨value, tree.values.size⟩ :: back⟩) :
    ∃ fresh arena, store leaf front.length value tree =
        .ok tree.values.size
          { tree with arena, values := tree.values.push value } ∧
      tree.config.Supplied
        ⟨front ++ ⟨value, tree.values.size⟩ :: back⟩ fresh ∧
      arena.setting = (tree.arena.capacity, tree.arena.stats.splits +
        if tree.config.Overfull ⟨front ++ ⟨value, tree.values.size⟩ :: back⟩
        then 1 else 0) ∧
      ({ tree with arena, values := tree.values.push value } :
        Tree α).Embodies (plug path (grown tree.config leaf
          ⟨front ++ ⟨value, tree.values.size⟩ :: back⟩ fresh)) := by
  obtain ⟨fresh, arena, done, length, kept, embodied⟩ :=
    @splitIfFull_room _ _ _ _ _ front.length (embodies.setList
      ⟨front ++ ⟨value, tree.values.size⟩ :: back⟩)
      (room_setList.mpr room)
  refine ⟨fresh, arena, ?_, length, kept, embodied⟩
  rw [run_store embodies split, run_bind_of_ok done]
  rfl

theorem store_refused
    (embodies : tree.Embodies (plug path (.node leaf (some list) [])))
    (split : list.entries = front ++ back) (value : α)
    (none : ¬Room tree ⟨front ++ ⟨value, tree.values.size⟩ :: back⟩) :
    ∃ arena error, store leaf front.length value tree =
        .error error { tree with arena } ∧
      error.root = .arenaExhausted tree.arena.capacity ∧
      tree.arena.Unwound arena ∧
      ({ tree with arena } : Tree α).Embodies
        (plug path (.node leaf (some list) [])) := by
  obtain ⟨entries⟩ := list
  subst split
  obtain ⟨arena, error, failed, cause, unwound, embodied⟩ :=
    splitIfFull_refused (embodies.setList
      ⟨front ++ ⟨value, tree.values.size⟩ :: back⟩) rfl (room_setList.not.mpr none)
  refine ⟨arena, error, ?_, cause, unwound.changed, embodied⟩
  rw [run_store embodies rfl, run_bind, failed]
  rfl

end

end LinkedBTree.Edit
