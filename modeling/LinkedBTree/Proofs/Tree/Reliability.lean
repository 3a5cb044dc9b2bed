import LinkedBTree.Proofs.Tree.Copyable
import LinkedBTree.Proofs.Tree.Releasing

namespace LinkedBTree.Tree

/-! A call fails only for reasons that lie with its caller, or for want of
nodes. None of the checks a tree makes of itself ever fails. -/

variable {α : Type}

/-- Every reason for which a call can fail. -/
structure Reliable (tree : Tree α) (ids : List NodeId) : Prop where
  reaches : tree.arena.preorder tree.root = .ok ids
  get? : ∀ {σ : Type} (value : α) (compare : Comparator σ α),
    Meets compare.Raises (tree.get? value compare) fun _ => True
  contains : ∀ {σ : Type} (value : α) (compare : Comparator σ α),
    Meets compare.Raises (tree.contains value compare) fun _ => True
  insert : ∀ {σ : Type} (value : α) (compare : Comparator σ α) (state after : σ)
    (error : Error) (last : Tree α),
    Tree.insert value compare (tree, state) = .error error (last, after) →
      compare.Raises error.root after ∨
        error.root = .arenaExhausted tree.arena.capacity
  remove : ∀ {σ : Type} (value : α) (compare : Comparator σ α) (state after : σ)
    (error : Error) (last : Tree α),
    Tree.remove value compare (tree, state) = .error error (last, after) →
      compare.Raises error.root after
  replace : ∀ {σ : Type} (old new : α) (compare : Comparator σ α)
    (state after : σ) (error : Error) (last : Tree α),
    Tree.replace old new compare (tree, state) = .error error (last, after) →
      compare.Raises error.root after ∨ error.root = .nothingToReplace ∨
        error.root = .replacementTooLow ∨ error.root = .replacementTooHigh
  /-- A leaf may be split as long as there are nodes, a branch never. -/
  split : ∀ id ∈ ids, ∃ children, tree.arena.children id = .ok children ∧
    if children = [] then
      ∀ error last, Edit.split id tree = .error error last →
        error.root = .arenaExhausted tree.arena.capacity
    else
      Edit.split id tree = .error (.cause (.notALeaf id children.length)) tree
  copy : ∀ {σ : Type} (copyValue : Copier σ α),
    Meets copyValue.Raises (tree.copy copyValue) fun _ => True
  inOrder : ∃ values, tree.inOrder = .ok values
  depth : ∃ levels, tree.depth = .ok levels
  release : ∀ before, ∃ after, tree.release before = .ok () after

open Subtree

variable {tree : Tree α} {shape : Shape α}

private theorem split_reliable {id : NodeId} (upright : tree.Upright shape)
    (live : id ∈ shape.ids) :
    ∃ children, tree.arena.children id = .ok children ∧
      if children = [] then
        ∀ error last, Edit.split id tree = .error error last →
          error.root = .arenaExhausted tree.arena.capacity
      else
        Edit.split id tree =
          .error (.cause (.notALeaf id children.length)) tree := by
  obtain ⟨path, list, children, rfl⟩ := upright.exists_node live
  obtain ⟨kids, whole⟩ := upright.embodies.2
  obtain ⟨node, found, _, below, _⟩ := whole.node_of_part
  rw [id_node] at found below
  refine ⟨children.map Subtree.id, ?_, ?_⟩
  · rw [whole.forest.children_eq found, below, children_node]
  by_cases isLeaf : children = []
  · obtain rfl := isLeaf
    rw [List.map_nil, if_pos rfl]
    intro error last failed
    rcases split_failed upright failed with
      ⟨_, ⟨_, dead⟩ | ⟨other, again, parts, same, inner, _⟩⟩ | refused
    · exact absurd live dead
    · rw [same] at whole
      obtain ⟨_, _, _, isBelow, _⟩ := whole.node_of_part
      rw [id_node, children_node] at isBelow
      exact absurd (List.map_eq_nil_iff.mp (isBelow.symm.trans below)) inner
    · exact refused.cause
  · rw [if_neg (isLeaf ∘ List.map_eq_nil_iff.mp), List.length_map]
    exact split_branch upright isLeaf

theorem Standing.reliable {config : Config} (standing : tree.Standing shape)
    (abides : tree.Abides config shape) (valid : config.Valid) :
    tree.Reliable shape.ids := by
  have upright := standing.upright
  obtain ⟨isRoot, kids, whole⟩ := standing.embodies
  have isValid : tree.config.Valid := abides.config ▸ valid
  refine ⟨?_, fun value compare => ?_, fun value compare => ?_, ?_, ?_, ?_,
    fun id live => split_reliable upright live,
    fun copyValue => ?_,
    ⟨_, inOrder_eq upright⟩, ⟨_, depth_eq upright.embodies⟩,
    fun _ => ⟨_, upright.release_eq _⟩⟩
  · rw [← isRoot]
    exact whole.forest.preorder_eq whole.held
  · exact (get?_alike upright value compare).meets
      (descend_meets upright value compare false) (fun _ _ _ _ => trivial)
      fun _ _ raised => raised
  · exact (contains_alike upright value compare).meets
      (descend_meets upright value compare false) (fun _ _ _ _ => trivial)
      fun _ _ raised => raised
  · intro σ value compare state after error last failed
    exact (insert_failed upright failed).imp And.right Refused.cause
  · intro σ value compare state after error last failed
    exact (remove_failed upright failed).2
  · intro σ old new compare state after error last failed
    exact (replace_failed upright failed).2
  · have copies := @copy_meets α _ tree shape copyValue (fun _ _ => True) standing
      isValid abides.room fun _ _ _ _ _ => trivial
    exact copies.weaken (fun _ _ => trivial) fun _ _ raised => raised

/-- Whatever a tree went through, its calls fail only for these reasons. -/
theorem reliable_after_requests {config : Config} (valid : config.Valid) :
    ∃ start : Tree α, withConfig config = .ok start ∧
      ∀ requests : List (Request α),
        (∀ request ∈ requests, request.Steady) →
        ∃ ids, (requests.foldl perform start).Reliable ids := by
  obtain ⟨start, created, reaches⟩ := @standing_after_requests α config valid
  refine ⟨start, created, fun requests steady => ?_⟩
  obtain ⟨shape, standing, abides⟩ := reaches requests steady
  exact ⟨shape.ids, standing.reliable abides valid⟩

theorem reliable_after_requests_disordered :
    ({ maxValues := 2, chunkSize := 1, nodeCapacity := 8 } : Config).Valid ∧
      ∃ start : Tree Nat,
        withConfig { maxValues := 2, chunkSize := 1, nodeCapacity := 8 } =
          .ok start ∧
        ∃ ids, ([
          .insert 5 (.answering compare) (),
          .insert 7 (.answering compare) (),
          .insert 6 (.answering fun _ _ => .lt) (),
          .copy (fun value _ => .ok value ()) (),
          .remove 7 (.answering compare) ()
          ].foldl perform start).Reliable ids := by
  have valid : ({ maxValues := 2, chunkSize := 1, nodeCapacity := 8 } :
      Config).Valid := by
    constructor <;> decide
  obtain ⟨start, created, reliable⟩ := @reliable_after_requests Nat _ valid
  refine ⟨valid, start, created, reliable _ fun request member => ?_⟩
  simp only [List.mem_cons, List.not_mem_nil, or_false] at member
  rcases member with rfl | rfl | rfl | rfl | rfl
  · exact ⟨_, Comparator.steady_answering compare⟩
  · exact ⟨_, Comparator.steady_answering compare⟩
  · exact ⟨_, Comparator.steady_answering fun _ _ => .lt⟩
  · trivial
  · exact ⟨_, Comparator.steady_answering compare⟩

end LinkedBTree.Tree
