import Mathlib.Data.List.Flatten
import LinkedBTree.Proofs.Arena.Handles
import LinkedBTree.Proofs.Arena.Slots

namespace LinkedBTree.Arena

/-! Giving subtrees up: which nodes go, in which order their payloads come, and
that nothing else changes. -/

variable {P : Type} {arena after : Arena P} {kids : NodeId → List NodeId}
  {tree : Subtree P} {id parent : NodeId} {gone : List NodeId} {freed : List P}

/-- The nodes named by `gone` have been given up, and no others. -/
structure Released (arena after : Arena P) (gone : List NodeId) : Prop where
  forest : ∃ kids, after.Forest kids
  tidy : after.Tidy
  nodup : gone.Nodup
  live : ∀ id ∈ gone, arena.contains id = true
  closed : ∀ id ∈ gone, after.Closed id
  /-- All other handles are as good as before. -/
  contains_iff : ∀ id, id ∉ gone → after.contains id = arena.contains id
  liveCount : after.liveCount + gone.length = arena.liveCount

theorem Released.of_lookup {edit : NodeId → Node P → Node P} (tidy : arena.Tidy)
    (forest : ∃ kids, after.Forest kids) (again : after.Tidy) (nodup : gone.Nodup)
    (live : ∀ id ∈ gone, arena.contains id = true)
    (lookup : ∀ id, after.node? id =
      if id ∈ gone then none else (arena.node? id).map (edit id)) :
    arena.Released after gone := by
  have dead : ∀ id ∈ gone, after.node? id = none := fun id member => by
    rw [lookup, if_pos member]
  have kept : ∀ id, id ∉ gone → after.contains id = arena.contains id := by
    intro id outside
    rw [contains, lookup, if_neg outside, Option.isSome_map]
    rfl
  refine ⟨forest, again, nodup, live, fun id member => closed_of_dead (dead id member),
    kept, (again.liveCount_add tidy nodup (fun id member => ?_) fun id => ?_).symm⟩
  · rw [contains, dead id member]
    rfl
  · by_cases member : id ∈ gone
    · simp [member, live id member]
    · simp [member, kept id member]

theorem Holds.exists_part (held : arena.Holds kids tree) (member : id ∈ tree.ids) :
    ∃ part : Subtree P, part.id = id ∧ arena.Holds kids part ∧
      part.ids.Sublist tree.ids := by
  induction tree with
  | node root payload children induction =>
      rw [Subtree.ids_node, List.mem_cons] at member
      rcases member with rfl | deeper
      · exact ⟨_, rfl, held, .refl _⟩
      · obtain ⟨child, isChild, inside⟩ := List.mem_flatMap.mp deeper
        obtain ⟨part, isPart, heldPart, within⟩ :=
          induction child isChild ((holds_node.mp held).2.2 child isChild) inside
        refine ⟨part, isPart, heldPart, ?_⟩
        rw [Subtree.ids_node]
        have among := (List.singleton_sublist.mpr isChild).flatMap Subtree.ids
        rw [List.flatMap_singleton] at among
        exact (within.trans among).cons root

theorem Holds.mem_of_transGen (held : arena.Holds kids tree) (forest : arena.Forest kids)
    (path : Relation.TransGen arena.IsParent tree.id id) : id ∈ tree.ids := by
  induction path with
  | single step =>
      obtain ⟨node, found, above⟩ := step
      exact held.mem_of_kids tree.id_mem_ids (forest.listed found above)
  | tail _ step inside =>
      obtain ⟨node, found, above⟩ := step
      exact held.mem_of_kids inside (forest.listed found above)

theorem Forest.sublist_ids (forest : arena.Forest kids) (held : arena.Holds kids tree)
    (member : parent ∈ tree.ids) (path : Relation.TransGen arena.IsParent parent id) :
    [parent, id].Sublist tree.ids := by
  obtain ⟨⟨root, payload, children⟩, rfl, heldPart, within⟩ := held.exists_part member
  have inside := heldPart.mem_of_transGen forest path
  rw [Subtree.ids_node] at within inside
  rcases List.mem_cons.mp inside with rfl | below
  · exact absurd path (forest.acyclic id)
  · exact ((List.singleton_sublist.mpr below).cons_cons root).trans within

theorem Forest.release_of_parent (forest : arena.Forest kids)
    (isParent : arena.IsParent parent id) :
    Arena.release id (arena, freed) = .error (.cause (.stillLinked id)) (arena, freed) := by
  obtain ⟨node, found, above⟩ := isParent
  unfold Arena.release
  rw [run_get_bind, run_lift_bind (read_eq found), forest.isLinked_eq found, above]
  rfl

theorem Forest.release_root (forest : arena.Forest kids) (held : arena.Holds kids tree)
    (orphan : ∀ parent, ¬arena.IsParent parent tree.id) : ∃ after,
      Arena.release tree.id (arena, freed) =
        .ok () (after, freed ++ tree.ids.reverse.filterMap arena.payload?) ∧
      (∀ id, after.node? id = if id ∈ tree.ids then none else arena.node? id) ∧
      ∃ others, after.Forest others := by
  obtain ⟨node, found⟩ := held.live tree.id_mem_ids
  have isTop : node.parent = none := by
    cases above : node.parent with
    | none => rfl
    | some parent => exact absurd ⟨node, found, above⟩ (orphan parent)
  obtain ⟨after, done, _, lookup⟩ := forest.release_eq held found isTop
  refine ⟨after, ?_, lookup, _, forest.of_released held found isTop lookup⟩
  rw [forest.run_release, done]
  rfl

theorem Forest.release_iff (forest : arena.Forest kids) :
    (∃ after, Arena.release id (arena, freed) = .ok () after) ↔
      arena.contains id = true ∧ ∀ parent, ¬arena.IsParent parent id := by
  constructor
  · rintro ⟨after, done⟩
    refine ⟨?_, fun parent isParent => ?_⟩
    · by_contra dead
      cases (release_of_dead (by simpa [contains] using dead) freed).symm.trans done
    · cases (forest.release_of_parent isParent).symm.trans done
  · rintro ⟨live, orphan⟩
    obtain ⟨node, found⟩ := contains_iff.mp live
    obtain ⟨tree, rfl, held⟩ := forest.exists_subtree found
    obtain ⟨_, done, _⟩ := forest.release_root held orphan
    exact ⟨_, done⟩

/-- What comes of giving up subtrees, or everything below a node. -/
structure Frees (arena : Arena P) (kids : NodeId → List NodeId) : Prop where
  listed : ∀ id, arena.contains id = true → arena.children id = .ok (kids id) ∧
    ∃ tree : Subtree P, tree.id = id ∧ arena.Holds kids tree
  release_iff : ∀ id freed, (∃ after, Arena.release id (arena, freed) = .ok () after) ↔
    arena.contains id = true ∧ ∀ parent, ¬arena.IsParent parent id
  stale : ∀ id freed, arena.contains id = false →
    Arena.release id (arena, freed) = .error (.cause (.stale id)) (arena, freed)
  linked : ∀ parent id freed, arena.IsParent parent id →
    Arena.release id (arena, freed) = .error (.cause (.stillLinked id)) (arena, freed)
  release : ∀ tree freed, arena.Holds kids tree →
    (∀ parent, ¬arena.IsParent parent tree.id) → ∃ after,
      Arena.release tree.id (arena, freed) =
        .ok () (after, freed ++ tree.ids.reverse.filterMap arena.payload?) ∧
      arena.Released after tree.ids ∧
      ∀ id, id ∉ tree.ids → after.node? id = arena.node? id
  /-- What stands above a node comes after it. -/
  late : ∀ tree, arena.Holds kids tree → ∀ above below, above ∈ tree.ids →
    Relation.TransGen arena.IsParent above below →
    [below, above].Sublist tree.ids.reverse
  clear : ∀ id payload trees freed, arena.Holds kids (.node id payload trees) → ∃ after,
    Arena.clear id (arena, freed) = .ok () (after, freed ++ (trees.flatMap fun tree =>
      tree.ids.reverse).filterMap arena.payload?) ∧
    arena.Released after (trees.flatMap Subtree.ids) ∧
    after.node? id = (arena.node? id).map Node.childless ∧
    ∀ other, other ∉ trees.flatMap Subtree.ids → other ≠ id →
      after.node? other = arena.node? other

/-- A subtree is given up as a whole, every node after all that is below it, and the
rest of the arena stays as it is. -/
theorem freeing_takes_subtrees (forest : arena.Forest kids) (tidy : arena.Tidy) :
    arena.Frees kids where
  listed id live := by
    obtain ⟨node, found⟩ := contains_iff.mp live
    exact ⟨forest.children_eq found, forest.exists_subtree found⟩
  release_iff _ _ := forest.release_iff
  stale id freed dead := release_of_dead (by simpa [contains] using dead) freed
  linked parent id freed isParent := forest.release_of_parent isParent
  release tree freed held orphan := by
    obtain ⟨after, done, lookup, others⟩ := forest.release_root held orphan
    have again := stable_tidy.release tree.id (arena, freed) tidy
    rw [done] at again
    refine ⟨after, done, .of_lookup tidy others again
      (forest.nodup_ids held) (fun id member => contains_iff.mpr (held.live member))
      (fun id => (lookup id).trans (by rw [Option.map_id'])), fun id outside => ?_⟩
    rw [lookup, if_neg outside]
  late tree held above below member path :=
    (forest.sublist_ids held member path).reverse
  clear id payload trees freed held := by
    have distinct := forest.nodup_ids held
    rw [Subtree.ids_node, List.nodup_cons] at distinct
    obtain ⟨after, done, lookup⟩ := forest.clear_node held freed
    have again := stable_tidy.clear id (arena, freed) tidy
    rw [done] at again
    have live : ∀ other ∈ trees.flatMap Subtree.ids, arena.contains other = true := by
      intro other member
      refine contains_iff.mpr (held.live ?_)
      rw [Subtree.ids_node]
      exact List.mem_cons_of_mem _ member
    refine ⟨after, done, .of_lookup tidy (forest.of_cleared held lookup) again distinct.2
      live lookup, ?_, fun other outside different => ?_⟩
    · rw [lookup, if_neg distinct.1]
      simp only [if_true]
    · rw [lookup, if_neg outside]
      simp [different]

def family : List (Request Nat) :=
  [.allocate (some 5), .allocate (some 1), .allocate none, .allocate (some 3),
    .append ⟨0, 0⟩ ⟨1, 0⟩, .append ⟨0, 0⟩ ⟨2, 0⟩, .append ⟨1, 0⟩ ⟨3, 0⟩]

theorem freeing_takes_subtrees_family :
    ∃ (arena : Arena Nat) (kids : NodeId → List NodeId),
      family.foldl perform ({ capacity := 9 } : Arena Nat) = arena ∧
      arena.Forest kids ∧ arena.Tidy ∧ arena.Frees kids ∧
      (∃ after, Arena.release ⟨0, 0⟩ (arena, []) = .ok () (after, [3, 1, 5]) ∧
        after.liveCount + 4 = arena.liveCount) ∧
      ∃ after, Arena.clear ⟨0, 0⟩ (arena, []) = .ok () (after, [3, 1]) ∧
        after.liveCount + 3 = arena.liveCount := by
  have started : (withCapacity 9 : Except Error (Arena Nat)) =
      .ok { capacity := 9 } := rfl
  obtain ⟨kids, forest⟩ := (forest_withCapacity started).history family
  have tidy := (vacant_withCapacity started).2.1.history family
  have frees := freeing_takes_subtrees forest tidy
  obtain ⟨_, ⟨root, payload, trees⟩, rfl, held⟩ := frees.listed ⟨0, 0⟩ (by decide +kernel)
  have listed : (family.foldl perform ({ capacity := 9 } : Arena Nat)).preorder ⟨0, 0⟩ =
      .ok [⟨0, 0⟩, ⟨1, 0⟩, ⟨3, 0⟩, ⟨2, 0⟩] := by decide +kernel
  have order := Except.ok.inj ((forest.preorder_eq held).symm.trans listed)
  have isTop : ((family.foldl perform ({ capacity := 9 } : Arena Nat)).node?
      ⟨0, 0⟩).bind Node.parent = none := by decide +kernel
  have whole : (reached (Arena.release ⟨0, 0⟩
      (family.foldl perform ({ capacity := 9 } : Arena Nat), []))).2 = [3, 1, 5] := by
    decide +kernel
  have rest : (reached (Arena.clear ⟨0, 0⟩
      (family.foldl perform ({ capacity := 9 } : Arena Nat), []))).2 = [3, 1] := by
    decide +kernel
  obtain ⟨after, released, gone, _⟩ := frees.release _ [] held (by
    rintro parent ⟨node, found, above⟩
    rw [Subtree.id_node] at found
    rw [found, Option.bind_some, above] at isTop
    cases isTop)
  obtain ⟨emptied, cleared, left, _⟩ := frees.clear _ _ _ [] held
  have fewer := gone.liveCount
  have few := left.liveCount
  rw [order] at fewer
  rw [Subtree.ids_node] at order
  rw [(List.cons.inj order).2] at few
  rw [Subtree.id_node] at released
  rw [released, reached_ok] at whole
  rw [cleared, reached_ok] at rest
  refine ⟨_, kids, rfl, forest, tidy, frees, ⟨after, ?_, fewer⟩, emptied, ?_, few⟩
  · exact released.trans (congrArg (EStateM.Result.ok () <| Prod.mk after ·) whole)
  · exact cleared.trans (congrArg (EStateM.Result.ok () <| Prod.mk emptied ·) rest)

end LinkedBTree.Arena
