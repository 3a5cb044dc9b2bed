import LinkedBTree.Proofs.Arena.Tips
import LinkedBTree.Proofs.Tree.Standing

namespace LinkedBTree

/-! Reading the leaves of an upright tree from left to right. -/

variable {α : Type}

open Subtree

namespace Subtree

theorem entries_eq_tips (shape : Shape α) :
    shape.entries = shape.tips.flatMap own := by
  induction shape using Subtree.induction with
  | node id payload children induction =>
      by_cases isLeaf : children = []
      · rw [entries, if_pos isLeaf, isLeaf, tips_leaf, List.flatMap_singleton]
      · rw [entries_branch isLeaf, tips_branch isLeaf, List.flatMap_assoc,
          List.flatMap_def, List.flatMap_def]
        exact congrArg List.flatten (List.map_congr_left induction)

theorem Formed.of_tip {shape tip : Shape α} (formed : Formed shape)
    (isTip : tip ∈ shape.tips) :
    ∃ id list, tip = node id (some list) [] ∧ list.entries ≠ [] := by
  induction shape using Subtree.induction with
  | node id payload children induction =>
      by_cases isLeaf : children = []
      · subst isLeaf
        rw [tips_leaf, List.mem_singleton] at isTip
        cases formed with
        | leaf filled => exact ⟨id, _, isTip, filled⟩
        | branch two _ _ => simp at two
      · rw [tips_branch isLeaf] at isTip
        obtain ⟨child, isChild, inside⟩ := List.mem_flatMap.mp isTip
        exact induction child isChild (formed.children_formed child isChild) inside

end Subtree

namespace Tree

variable {tree : Tree α} {shape : Shape α}

theorem list_of_tip {kids : NodeId → List NodeId} {tip : Shape α}
    (held : tree.arena.Holds kids shape) (formed : Formed shape)
    (isTip : tip ∈ shape.tips) : tree.list tip.id = .ok ⟨tip.own⟩ := by
  have carried := held.carried_of_tip isTip
  obtain ⟨id, list, rfl, _⟩ := formed.of_tip isTip
  exact list_eq_ok.mpr carried

theorem Upright.list_of_tip {tip : Shape α} (upright : tree.Upright shape)
    (isTip : tip ∈ shape.tips) : ∃ list, tip.payload = some list := by
  rcases upright.formed with formed | rfl
  · obtain ⟨_, list, rfl, _⟩ := formed.of_tip isTip
    exact ⟨list, rfl⟩
  · rw [tips_leaf, List.mem_singleton] at isTip
    exact ⟨{}, by rw [isTip]; rfl⟩

private theorem foldLeaves_reads {β : Type} (upright : tree.Upright shape)
    (read : NodeId → EntryList α → List β)
    {combine : List β → NodeId → Node (EntryList α) → Except Error (List β)}
    (same : ∀ id node list, node.payload = some list → ∀ seen,
      combine seen id node = .ok ((read id list).reverse ++ seen)) :
    tree.arena.foldLeaves tree.root combine [] =
      .ok (shape.tips.flatMap fun tip => read tip.id ⟨tip.own⟩).reverse := by
  let act (seen : List β) (tip : Shape α) : Except Error (List β) :=
    .ok ((read tip.id ⟨tip.own⟩).reverse ++ seen)
  obtain ⟨isRoot, kids, whole⟩ := upright.embodies
  have acts : ∀ tip ∈ shape.tips, ∀ node, tree.arena.node? tip.id = some node →
      node.payload = tip.payload →
      ∀ seen, combine seen tip.id node = act seen tip := by
    intro tip isTip node _ carried seen
    obtain ⟨list, isList⟩ := upright.list_of_tip isTip
    rw [same tip.id node list (carried.trans isList)]
    simp only [act, own, isList]
    rfl
  have folded := whole.forest.foldLeaves_eq whole.held acts []
  rw [isRoot, foldlM_gathers (fun _ _ _ => rfl), List.append_nil] at folded
  exact folded

theorem inOrder_eq (upright : tree.Upright shape) :
    tree.inOrder = .ok (shape.entries.map Entry.value) := by
  unfold inOrder
  rw [bind_of_ok (foldLeaves_reads upright (fun _ => EntryList.values) ?_)]
  · rw [List.reverse_reverse, entries_eq_tips, List.map_flatMap]
    rfl
  · intro id node list carried seen
    rw [listOf_eq carried]
    rfl

theorem leafPayloads_eq (upright : tree.Upright shape) :
    tree.arena.leafPayloads tree.root = .ok (shape.tips.map fun tip => ⟨tip.own⟩) := by
  unfold Arena.leafPayloads
  rw [bind_of_ok (foldLeaves_reads upright (fun _ list => [list]) ?_)]
  · rw [List.reverse_reverse, List.map_eq_flatMap]
    rfl
  · intro id node list carried seen
    rw [carried]
    rfl

theorem leaves_eq (upright : tree.Upright shape) :
    tree.arena.leaves tree.root = .ok (shape.tips.map Subtree.id) := by
  unfold Arena.leaves
  rw [bind_of_ok (foldLeaves_reads upright (fun id _ => [id]) ?_)]
  · rw [List.reverse_reverse, List.map_eq_flatMap]
    rfl
  · exact fun _ _ _ _ _ => rfl

end Tree

end LinkedBTree
