import Mathlib.Data.List.Perm.Basic
import LinkedBTree.Proofs.Tree.Standing

namespace LinkedBTree

/-! A walk through a whole tree, level by level: how deep it is. -/

variable {P α : Type}

namespace Subtree

def height : Subtree P → Nat
  | node _ _ children => (children.map height).foldr max 0 + 1

theorem height_le_of_mem {child : Subtree P} {children : List (Subtree P)}
    (member : child ∈ children) :
    child.height ≤ (children.map height).foldr max 0 := by
  induction children with
  | nil => cases member
  | cons other rest induction =>
      rw [List.map_cons, List.foldr_cons]
      rcases List.mem_cons.mp member with rfl | later
      · exact Nat.le_max_left _ _
      · exact Nat.le_trans (induction later) (Nat.le_max_right _ _)

/-- Every node with its level, the last child of a node before the others. -/
def levels : Subtree P → Nat → List (NodeId × Nat)
  | node id _ children, level =>
      (id, level) :: (children.map fun child => levels child (level + 1)).reverse.flatten

theorem map_fst_levels_perm (shape : Subtree P) (level : Nat) :
    ((shape.levels level).map Prod.fst).Perm shape.ids := by
  induction shape using Subtree.induction generalizing level with
  | node id payload children induction =>
      rw [levels, ids_node, List.map_cons]
      refine List.Perm.cons id ?_
      rw [List.map_flatten, ← List.map_reverse, List.map_map, ← List.flatMap_def]
      exact ((List.reverse_perm children).flatMap_right _).trans
        (.flatMap_left children fun child member => induction child member (level + 1))

theorem foldl_levels (shape : Subtree P) (level deepest : Nat) :
    (shape.levels (level + 1)).foldl (fun deepest item => max deepest item.2)
      deepest = max deepest (level + shape.height) := by
  induction shape using Subtree.induction generalizing level deepest with
  | node id payload children induction =>
      rw [levels, height, List.foldl_cons]
      -- Children are walked from the last to the first, so the head comes at the end.
      have below : ∀ deepest, level + 1 ≤ deepest →
          (children.map fun child => levels child (level + 2)).reverse.flatten.foldl
            (fun deepest item => max deepest item.2) deepest =
          max deepest (level + 1 + (children.map height).foldr max 0) := by
        induction children with
        | nil =>
            intro deepest deep
            simp [Nat.max_eq_left deep]
        | cons child rest following =>
            intro deepest deep
            rw [List.map_cons, List.reverse_cons, List.flatten_append,
              List.foldl_append, following (fun other member =>
                induction other (by simp [member])) deepest deep]
            simp only [List.flatten_cons, List.flatten_nil, List.append_nil,
              List.map_cons, List.foldr_cons]
            rw [induction child (by simp)]
            omega
      rw [below _ (Nat.le_max_right ..)]
      omega

end Subtree

open Subtree

namespace Tree

variable {tree : Tree α} {shape : Shape α}

theorem levels_listing {kids : NodeId → List NodeId}
    (held : tree.arena.Holds kids shape) (level : Nat) :
    Listing (fun item below => below = (kids item.1).reverse.map (·, item.2 + 1))
      [(shape.id, level)] (shape.levels level) := by
  induction shape using Subtree.induction generalizing level with
  | node id payload children induction =>
      obtain ⟨_, below, held⟩ := Arena.holds_node.mp held
      rw [levels]
      refine .cons rfl ?_
      simp only [id_node]
      rw [List.append_nil, below, ← List.map_reverse, ← List.map_reverse, List.map_map,
        ← List.flatMap_def]
      apply Listing.flatMap
      intro child member
      rw [List.mem_reverse] at member
      exact induction child member (held child member) (level + 1)

theorem depth_eq (embodies : tree.Embodies shape) :
    tree.depth = .ok shape.height := by
  obtain ⟨isRoot, kids, whole⟩ := embodies
  have enough : (shape.levels 1).length ≤ tree.arena.visits := by
    rw [← List.length_map, (shape.map_fst_levels_perm 1).length_eq]
    exact Nat.le_succ_of_le (whole.forest.length_ids_le whole.held)
  have walked : exhaust tree.depthVisit tree.arena.visits 0 [(shape.id, 1)] =
      (shape.levels 1).foldlM
        (fun deepest item => (.ok (max deepest item.2) : Except Error Nat)) 0 := by
    refine (levels_listing whole.held 1).exhaust_eq ?_ enough 0
    rintro ⟨id, level⟩ member _ rfl deepest
    obtain ⟨node, found⟩ := whole.held.live
      ((shape.map_fst_levels_perm 1).subset (List.mem_map_of_mem member))
    rw [depthVisit, bind_of_ok (whole.forest.children_eq found)]
    rfl
  have folded : ∀ (items : List (NodeId × Nat)) (deepest : Nat),
      items.foldlM (fun deepest item =>
        (.ok (max deepest item.2) : Except Error Nat)) deepest =
        .ok (items.foldl (fun deepest item => max deepest item.2) deepest) := by
    intro items
    induction items with
    | nil => exact fun _ => rfl
    | cons item rest induction =>
        intro deepest
        rw [List.foldlM_cons, bind_of_ok rfl, induction, List.foldl_cons]
  unfold depth
  rw [← isRoot, walked, folded, foldl_levels]
  simp

end Tree

end LinkedBTree
