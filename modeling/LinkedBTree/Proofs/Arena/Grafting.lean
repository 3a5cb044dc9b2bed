import LinkedBTree.Proofs.Arena.Tips

namespace LinkedBTree

/-! Where a node becomes a tree of its own, the tree around it stays, and a walk
through the leaves comes to the new ones in place of the old one. -/

variable {P γ : Type}

namespace Subtree

/-- `graft new tree` has `new` where `tree` had the node of that handle. -/
def graft (new : Subtree P) : Subtree P → Subtree P
  | node id payload children =>
      if id = new.id then new else node id payload (children.map (graft new))

variable {new : Subtree P} {id : NodeId} {payload : Option P}
  {children : List (Subtree P)}

theorem graft_of_eq (same : id = new.id) : graft new (node id payload children) = new := by
  rw [graft, if_pos same]

theorem graft_of_ne (different : id ≠ new.id) : graft new (node id payload children) =
    node id payload (children.map (graft new)) := by
  rw [graft, if_neg different]

@[simp] theorem id_graft (tree : Subtree P) : (graft new tree).id = tree.id := by
  obtain ⟨id, payload, children⟩ := tree
  by_cases same : id = new.id
  · rw [graft_of_eq same, id_node, same]
  · rw [graft_of_ne same]
    rfl

end Subtree

open Subtree

namespace Arena

variable {arena after : Arena P} {kids others : NodeId → List NodeId}
  {tree new : Subtree P}

theorem Holds.graft (held : arena.Holds kids tree) (placed : after.Holds others new)
    (kept : ∀ id ∈ tree.ids, id ≠ new.id →
      after.carried? id = arena.carried? id ∧ others id = kids id) :
    after.Holds others (graft new tree) := by
  induction tree with
  | node id payload children induction =>
      by_cases same : id = new.id
      · rw [graft_of_eq same]
        exact placed
      · obtain ⟨carried, below, held⟩ := holds_node.mp held
        obtain ⟨unchanged, stays⟩ := kept id (by simp) same
        rw [graft_of_ne same]
        refine holds_node.mpr ⟨unchanged.trans carried, ?_, fun grafted member => ?_⟩
        · rw [stays, below, List.map_map]
          exact List.map_congr_left fun child _ => (id_graft child).symm
        · obtain ⟨child, isChild, rfl⟩ := List.mem_map.mp member
          refine induction child isChild (held child isChild) fun other inside => ?_
          apply kept
          rw [ids_node]
          exact List.mem_cons_of_mem _ (List.mem_flatMap.mpr ⟨child, isChild, inside⟩)

section

variable {payload : Option P} {act : γ → NodeId → Option P → Except Error γ}

private theorem foldlM_tips_graft (held : arena.Holds kids tree)
    (carried : arena.carried? new.id = some payload) (childless : kids new.id = [])
    (joins : ∀ result, new.tips.foldlM (fun result tip => act result tip.id tip.payload)
      result = act result new.id payload) (result : γ) :
    (graft new tree).tips.foldlM (fun result tip => act result tip.id tip.payload) result =
      tree.tips.foldlM (fun result tip => act result tip.id tip.payload) result := by
  induction tree generalizing result with
  | node id own children induction =>
      obtain ⟨known, below, inside⟩ := holds_node.mp held
      by_cases isNew : id = new.id
      · rw [isNew] at known below
        obtain rfl := Option.some.inj (known.symm.trans carried)
        obtain rfl := List.map_eq_nil_iff.mp (below.symm.trans childless)
        rw [graft_of_eq isNew, joins, tips_leaf, isNew]
        exact (bind_pure _).symm
      rw [graft_of_ne isNew]
      by_cases isLeaf : children = []
      · rw [isLeaf]
        rfl
      rw [tips_branch isLeaf, tips_branch (isLeaf ∘ List.map_eq_nil_iff.mp), List.flatMap_map]
      clear held known below isLeaf
      induction children generalizing result with
      | nil => rfl
      | cons child rest following =>
          rw [List.flatMap_cons, List.flatMap_cons, List.foldlM_append, List.foldlM_append,
            induction child (by simp) (inside child (by simp))]
          refine bind_congr fun result => following ?_ result ?_
          · exact fun child member => induction child (List.mem_cons_of_mem _ member)
          · exact fun child member => inside child (List.mem_cons_of_mem _ member)

/-- A walk that reads payloads alone ends the same if what it reads off the new leaves
joins to what it read off the old one. -/
theorem Forest.foldLeaves_graft (forest : arena.Forest kids) (again : after.Forest others)
    (held : arena.Holds kids tree) (placed : after.Holds others new)
    (kept : ∀ id ∈ tree.ids, id ≠ new.id →
      after.carried? id = arena.carried? id ∧ others id = kids id)
    (carried : arena.carried? new.id = some payload) (childless : kids new.id = [])
    {combine : γ → NodeId → Node P → Except Error γ}
    (reads : ∀ result id node, combine result id node = act result id node.payload)
    (joins : ∀ result, new.tips.foldlM (fun result tip => act result tip.id tip.payload)
      result = act result new.id payload) (initial : γ) :
    after.foldLeaves tree.id combine initial = arena.foldLeaves tree.id combine initial := by
  have same : ∀ {tip : Subtree P} {node}, node.payload = tip.payload → ∀ result,
      combine result tip.id node = act result tip.id tip.payload :=
    fun payload result => payload ▸ reads result _ _
  have walked := again.foldLeaves_eq (held.graft placed kept)
    (fun tip _ node _ payload result => same payload result) initial
  rw [id_graft] at walked
  rw [walked, foldlM_tips_graft held carried childless joins]
  exact (forest.foldLeaves_eq held
    (fun tip _ node _ payload result => same payload result) initial).symm

end

end Arena

end LinkedBTree
