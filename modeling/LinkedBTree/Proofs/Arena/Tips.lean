import LinkedBTree.Arena.Preorder
import LinkedBTree.Proofs.Arena.Subtree

namespace LinkedBTree

/-! Walks that stop at the leaves of a subtree. -/

namespace Subtree

variable {P : Type}

def tips : Subtree P → List (Subtree P)
  | node id payload children =>
      if children = [] then [node id payload children]
      else children.flatMap tips

theorem tips_leaf (id : NodeId) (payload : Option P) :
    (node id payload []).tips = [node id payload []] := by
  rw [tips, if_pos rfl]

theorem tips_branch {id : NodeId} {payload : Option P}
    {children : List (Subtree P)} (inner : children ≠ []) :
    (node id payload children).tips = children.flatMap tips := by
  rw [tips, if_neg inner]

end Subtree

open Subtree

namespace Arena

variable {P γ : Type} {arena : Arena P} {kids : NodeId → List NodeId} {tree : Subtree P}

theorem Holds.tips_eq (held : arena.Holds kids tree) :
    tree.tips.map Subtree.id = tree.ids.filter fun id => (kids id).isEmpty := by
  induction tree with
  | node id payload children induction =>
      obtain ⟨_, below, inside⟩ := holds_node.mp held
      by_cases isLeaf : children = []
      · subst isLeaf
        rw [tips_leaf, ids_node, List.filter_cons, below]
        rfl
      · have isBranch : ¬(kids id).isEmpty = true := by
          rw [below]
          simpa using isLeaf
        rw [tips_branch isLeaf, ids_node, List.filter_cons, if_neg isBranch,
          List.map_flatMap, List.filter_flatMap, List.flatMap_def, List.flatMap_def]
        exact congrArg List.flatten (List.map_congr_left fun child member =>
          induction child member (inside child member))

theorem Holds.carried_of_tip {tip : Subtree P} (held : arena.Holds kids tree)
    (isTip : tip ∈ tree.tips) : arena.carried? tip.id = some tip.payload := by
  induction tree with
  | node id payload children induction =>
      obtain ⟨carried, _, inside⟩ := holds_node.mp held
      by_cases isLeaf : children = []
      · subst isLeaf
        rw [tips_leaf, List.mem_singleton] at isTip
        subst isTip
        exact carried
      · rw [tips_branch isLeaf] at isTip
        obtain ⟨child, member, isTip⟩ := List.mem_flatMap.mp isTip
        exact induction child member (inside child member) isTip

section

variable {m : Type → Type} [Monad m] [LawfulMonad m] [MonadLiftT (Except Error) m]
  [LawfulMonadLiftT (Except Error) m] {combine : γ → NodeId → Node P → m γ}

private theorem leafVisit_eq {id : NodeId} {node : Node P} (forest : arena.Forest kids)
    (found : arena.node? id = some node) (result : γ) :
    arena.leafVisit combine result id = (fun result => (result, kids id)) <$>
      (if (kids id).isEmpty then liftM (arena.read id) >>= combine result id
        else pure result) := by
  have isRead : arena.read id = pure node := read_eq found
  have isListed : arena.childList node = pure (kids id) := forest.childList_eq found
  unfold leafVisit
  rw [isRead, liftM_pure, pure_bind, pure_bind]
  by_cases isLeaf : kids id = []
  · rw [if_pos ((forest.isLeaf_iff found).mpr isLeaf), isLeaf, List.isEmpty_nil,
      if_pos rfl, map_eq_pure_bind]
  · rw [if_neg fun single => isLeaf ((forest.isLeaf_iff found).mp single),
      if_neg (by simpa using isLeaf), isListed, liftM_pure, pure_bind, map_pure]

variable [MonadExceptOf Error m]

theorem Forest.foldLeaves_filter (forest : arena.Forest kids)
    (held : arena.Holds kids tree) (initial : γ) :
    arena.foldLeaves tree.id combine initial =
      (tree.ids.filter fun id => (kids id).isEmpty).foldlM
        (fun result id => liftM (arena.read id) >>= combine result id) initial := by
  unfold foldLeaves
  rw [List.foldlM_filter]
  refine (forest.listing held).exhaust_eq (fun id member children below result => ?_)
    (Nat.le_succ_of_le (forest.length_ids_le held)) initial
  obtain ⟨node, found⟩ := held.live member
  obtain rfl := Except.ok.inj ((forest.children_eq found).symm.trans below)
  exact leafVisit_eq forest found result

theorem Forest.foldLeaves_eq (forest : arena.Forest kids) (held : arena.Holds kids tree)
    {act : γ → Subtree P → m γ}
    (same : ∀ tip ∈ tree.tips, ∀ node, arena.node? tip.id = some node →
      node.payload = tip.payload → ∀ result,
        combine result tip.id node = act result tip) (initial : γ) :
    arena.foldLeaves tree.id combine initial = tree.tips.foldlM act initial := by
  rw [forest.foldLeaves_filter held, ← held.tips_eq, List.foldlM_map]
  refine foldlM_congr (fun tip isTip result => ?_) initial
  obtain ⟨node, found, isPayload⟩ := carried?_eq_some.mp (held.carried_of_tip isTip)
  have isRead : arena.read tip.id = pure node := read_eq found
  rw [isRead, liftM_pure, pure_bind]
  exact same tip isTip node found isPayload result

end

end Arena

end LinkedBTree
