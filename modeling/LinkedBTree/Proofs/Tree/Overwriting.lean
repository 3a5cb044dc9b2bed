import LinkedBTree.Tree.Overwrite
import LinkedBTree.Proofs.Tree.Reshaping
import LinkedBTree.Proofs.Tree.Standing

namespace LinkedBTree.Edit

/-! Overwriting an entry of a leaf: it keeps its index, and a separator that
copies it follows. -/

variable {α : Type}

open Subtree

variable {tree : Tree α} {path : List (Frame α)} {leaf : NodeId}
  {list : EntryList α} {front back : List (Entry α)} {entry : Entry α}

theorem overwrite_makes
    (upright : tree.Upright (plug path (.node leaf (some list) [])))
    (split : list.entries = front ++ entry :: back) (value : α) :
    ∃ arena, overwrite leaf front.length value tree =
        .ok entry.value { tree with
          arena
          values := tree.values.put entry.index
            (some value) } ∧
      arena.setting = tree.arena.setting ∧
      ({ tree with
          arena
          values := tree.values.put entry.index
            (some value) } : Tree α).Embodies
        (overwritten path leaf front ⟨value, entry.index⟩ back) := by
  have known : tree.values.value? entry.index = some entry.value := by
    apply upright.mirrors.stored
    simp [entries_plug, split]
  have isEntry : list.get front.length = .ok entry :=
    (EntryList.get_eq_ok_iff ..).mpr (by simp [split])
  have isSet : list.setValue front.length value =
      .ok (entry.value, ⟨front ++ ⟨value, entry.index⟩ :: back⟩) := by
    unfold EntryList.setValue
    rw [bind_of_ok isEntry, split]
    simp
    rfl
  have stored : putValue entry.index (some value)
      (tree.setList leaf ⟨front ++ ⟨value, entry.index⟩ :: back⟩) =
      .ok (some entry.value)
        { tree.setList leaf ⟨front ++ ⟨value, entry.index⟩ :: back⟩ with
          values := tree.values.put entry.index
            (some value) } :=
    @putValue_eq _ (tree.setList leaf _) _ _ known _
  have changed : ({ tree.setList leaf ⟨front ++ ⟨value, entry.index⟩ :: back⟩ with
      values := tree.values.put entry.index (some value) } :
      Tree α).Embodies (plug path (.node leaf
        (some ⟨front ++ ⟨value, entry.index⟩ :: back⟩) [])) :=
    upright.embodies.setList ⟨front ++ ⟨value, entry.index⟩ :: back⟩
  unfold overwrite overwritten
  rw [run_get_bind, run_lift_bind upright.embodies.list_eq,
    run_lift_bind isEntry, run_lift_bind isSet]
  simp only
  rw [run_bind_of_ok (putList_eq ..), run_bind_of_ok stored]
  by_cases atEnd : back = []
  · obtain ⟨node, isRead, renews⟩ := renewAbove_makes changed
      "unable to update separators after replace" entry.index
      ⟨value, entry.index⟩
    rw [id_node] at isRead
    obtain ⟨arena, renewed, kept, embodied⟩ := renews
    rw [if_pos atEnd]
    refine ⟨arena, ?_, kept, embodied⟩
    rw [if_pos (by simp [atEnd, EntryList.length]), run_get_bind,
      run_lift_bind isRead, run_bind_of_ok renewed]
    rfl
  · rw [if_neg atEnd, Frame.map_refresh_none,
      if_neg (by simpa [EntryList.length] using atEnd)]
    exact ⟨_, rfl, rfl, changed⟩

end LinkedBTree.Edit
