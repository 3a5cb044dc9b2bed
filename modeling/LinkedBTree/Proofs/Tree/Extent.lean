import LinkedBTree.Proofs.Ledger
import LinkedBTree.Proofs.Tree.Confined
import LinkedBTree.Proofs.Tree.Walking

namespace LinkedBTree

/-! How large a tree may be for the values it holds. Every leaf holds one at
least and every branch parts two children, so that values bound leaves, leaves
bound branches, and both bound the depth. -/

variable {α : Type}

namespace ValueTable

variable {table : ValueTable α} {entries : List (Entry α)}

theorem Mirrors.perm_toList (mirrors : table.Mirrors entries) :
    (entries.map fun entry => (entry.index, entry.value)).Perm table.toList := by
  have distinct : (entries.map Entry.index).Nodup := mirrors.distinct
  refine (List.perm_ext_iff_of_nodup ?_ ?_).mpr ?_
  · rw [List.Nodup, List.pairwise_map] at distinct ⊢
    exact distinct.imp fun apart same => apart (congrArg Prod.fst same)
  · exact (List.pairwise_map.mp table.toList_ordered).imp fun before same =>
      Nat.ne_of_lt before (congrArg Prod.fst same)
  · rintro ⟨index, value⟩
    rw [mem_toList, get_eq_ok_iff, ← Option.join_eq_some_iff, List.mem_map]
    constructor
    · rintro ⟨entry, member, same⟩
      obtain ⟨rfl, rfl⟩ := Prod.mk.inj same
      exact mirrors.stored entry member
    · exact fun known => ⟨_, mirrors.mem_of_value? known, rfl⟩

theorem Mirrors.count_eq (mirrors : table.Mirrors entries) :
    table.count = entries.length := by
  rw [← length_toList, ← mirrors.perm_toList.length_eq, List.length_map]

end ValueTable

namespace Subtree

private theorem counts_below {children : List (Shape α)}
    (below : ∀ child ∈ children, child.ids.length < 2 * child.entries.length ∧
      child.height ≤ child.entries.length) :
    (children.flatMap ids).length + children.length ≤
        2 * (children.flatMap entries).length ∧
      (children.map height).foldr max 0 + children.length ≤
        (children.flatMap entries).length + 1 ∧
      children.length ≤ (children.flatMap entries).length := by
  induction children with
  | nil => simp
  | cons child rest induction =>
      obtain ⟨nodes, high⟩ := below child (by simp)
      obtain ⟨nodesBeside, highBeside, filled⟩ :=
        induction fun other member => below other (by simp [member])
      simp only [List.flatMap_cons, List.length_append, List.length_cons,
        List.map_cons, List.foldr_cons]
      omega

/-- A shape has fewer nodes than twice its entries, and no more levels than
entries. -/
theorem Formed.counts {shape : Shape α} (formed : Formed shape) :
    shape.ids.length < 2 * shape.entries.length ∧
      shape.height ≤ shape.entries.length := by
  induction shape using Subtree.induction with
  | node id payload children induction =>
      cases formed with
      | leaf filled =>
          have some := List.length_pos_iff.mpr filled
          rw [ids_node, entries_leaf, height]
          simp only [List.flatMap_nil, List.map_nil, List.foldr_nil,
            List.length_singleton]
          omega
      | branch two below _ =>
          have inner : children ≠ [] := List.length_pos_iff.mp (by omega)
          obtain ⟨nodes, high, _⟩ := counts_below fun child member =>
            induction child member (below child member)
          rw [ids_node, entries_branch inner, height, List.length_cons]
          omega

end Subtree

open Subtree

namespace Tree

/-- How much there may be of a tree, given the values it holds. -/
structure Sized (tree : Tree α) (config : Config) : Prop where
  counted : ∃ values, tree.inOrder = .ok values ∧ values.length = tree.size
  nodes : ∀ id, tree.arena.contains id = true → ∃ list children,
    tree.list id = .ok list ∧ tree.arena.children id = .ok children ∧
      (children = [] → list.length ≤ config.leafLimit) ∧
      (children ≠ [] → 2 ≤ children.length ∧ children.length ≤ config.fanLimit)
  live : tree.arena.liveCount ≤ 2 * max tree.size 1 - 1
  depth : ∃ depth, tree.depth = .ok depth ∧ depth ≤ max tree.size 1
  drained : tree.size = 0 →
    (∀ id, tree.arena.contains id = true ↔ id = tree.root) ∧
      tree.list tree.root = .ok {} ∧ tree.arena.children tree.root = .ok [] ∧
      tree.depth = .ok 1

variable {tree : Tree α} {config : Config} {shape : Shape α}

theorem Upright.size_eq (upright : tree.Upright shape) :
    tree.size = shape.entries.length :=
  upright.mirrors.count_eq

theorem Upright.counts (upright : tree.Upright shape) :
    shape.ids.length ≤ 2 * max tree.size 1 - 1 ∧
      shape.height ≤ max tree.size 1 := by
  rw [upright.size_eq]
  rcases upright.formed with formed | rfl
  · obtain ⟨nodes, high⟩ := formed.counts
    omega
  · simp [height]

theorem Upright.eq_of_drained (upright : tree.Upright shape) (drained : tree.size = 0) :
    shape = .node tree.root (some {}) [] := by
  rw [upright.size_eq, List.length_eq_zero_iff] at drained
  exact upright.formed.resolve_left fun formed => formed.filled drained

theorem Upright.sized (upright : tree.Upright shape) (confined : Confined config shape) :
    tree.Sized config := by
  obtain ⟨_, kids, whole⟩ := upright.embodies
  refine ⟨⟨_, inOrder_eq upright, ?_⟩, fun id isLive => ?_, ?_,
    ⟨_, depth_eq upright.embodies, upright.counts.2⟩, fun drained => ?_⟩
  · rw [List.length_map, upright.size_eq]
  · obtain ⟨path, list, children, rfl⟩ :=
      upright.exists_node ((whole.contains_iff_mem id).mp isLive)
    refine ⟨list, _, upright.embodies.list_eq, upright.embodies.children_eq, ?_, ?_⟩
    · intro isLeaf
      obtain rfl := List.map_eq_nil_iff.mp isLeaf
      exact confined.of_plug.length_le
    · intro inner
      rw [children_node] at inner ⊢
      have inner : children ≠ [] := by simpa using inner
      rw [List.length_map]
      refine ⟨?_, (confined.of_plug.of_inner inner).1⟩
      rcases upright.formed_or_empty with formed | ⟨_, empty⟩
      · exact (formed.of_plug.of_inner inner).1
      · exact absurd (congrArg Subtree.children empty) inner
  · rw [whole.liveCount_eq]
    exact upright.counts.1
  · obtain rfl := upright.eq_of_drained drained
    have lone : tree.Embodies (plug [] (.node tree.root (some {}) [])) :=
      upright.embodies
    refine ⟨fun id => ?_, lone.list_eq, lone.children_eq, ?_⟩
    · rw [whole.contains_iff_mem, ids_node]
      simp
    · rw [depth_eq upright.embodies]
      simp [height]

/-- Leaves, branches, nodes and levels keep within their bounds, whatever is
asked of a tree. -/
theorem sized_after_requests {config : Config} (valid : config.Valid) :
    ∃ start : Tree α, withConfig config = .ok start ∧
      ∀ requests : List (Request α), (requests.foldl perform start).Sized config := by
  obtain ⟨start, created, confined⟩ := @confined_after_requests α config valid
  refine ⟨start, created, fun requests => ?_⟩
  obtain ⟨shape, abides, confined⟩ := confined requests
  exact abides.upright.sized confined

theorem sized_after_requests_ascending :
    ({ maxValues := 2, chunkSize := 1, nodeCapacity := 8 } : Config).Valid ∧
      ∃ start : Tree Nat,
        withConfig { maxValues := 2, chunkSize := 1, nodeCapacity := 8 } =
          .ok start ∧
        ∃ after : Tree Nat, [
          .insert 5 (.answering compare) (), .insert 6 (.answering compare) (),
          .insert 7 (.answering compare) ()].foldl perform start = after ∧
          after.Sized { maxValues := 2, chunkSize := 1, nodeCapacity := 8 } ∧
          after.size = 3 ∧ after.depth = .ok 3 ∧ after.arena.liveCount = 5 := by
  have valid : ({ maxValues := 2, chunkSize := 1, nodeCapacity := 8 } :
      Config).Valid := by
    constructor <;> decide
  obtain ⟨start, created, sized⟩ := @sized_after_requests Nat _ valid
  refine ⟨valid, start, created, _, rfl, sized _, ?_⟩
  obtain rfl := Except.ok.inj created
  refine ⟨?_, ?_, ?_⟩ <;> decide +kernel

end Tree

end LinkedBTree
