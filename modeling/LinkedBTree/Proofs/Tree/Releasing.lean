import LinkedBTree.Tree.Release
import LinkedBTree.Proofs.Arena.Traversing
import LinkedBTree.Proofs.Tree.Extent
import LinkedBTree.Proofs.Tree.Leaves
import LinkedBTree.Proofs.Tree.Reachable

namespace LinkedBTree.Tree

/-! What a tree hands over when it is given up. Branches hold copies of what the
leaves below them hold; their lists are emptied before anything goes. -/

variable {α : Type} {tree : Tree α} {shape : Shape α} {kids : NodeId → List NodeId}
  {arena : Arena (EntryList α)}

open Subtree

def stripped (node : Node (EntryList α)) : Node (EntryList α) :=
  if node.isLeaf then node else { node with payload := some {} }

theorem stripped_stripped (node : Node (EntryList α)) :
    stripped (stripped node) = stripped node := by
  by_cases isLeaf : node.isLeaf = true
  · simp [stripped, isLeaf]
  · have still : ¬({ node with payload := some {} } : Node (EntryList α)).isLeaf = true :=
      isLeaf
    simp [stripped, isLeaf, still]

theorem bare_stripped (node : Node (EntryList α)) : (stripped node).bare = node.bare := by
  unfold stripped
  split <;> rfl

def strip (arena : Arena (EntryList α)) (id : NodeId) : Arena (EntryList α) :=
  if (arena.node? id).any (!·.isLeaf) then
    arena.modify id ({ · with payload := some {} })
  else
    arena

theorem node?_strip (arena : Arena (EntryList α)) (top id : NodeId) :
    (strip arena top).node? id =
      (arena.node? id).map fun node => if id = top then stripped node else node := by
  unfold strip
  by_cases isTop : id = top
  · subst isTop
    cases found : arena.node? id with
    | none => simp [found]
    | some node => by_cases isLeaf : node.isLeaf = true <;>
        simp [found, isLeaf, stripped, Arena.node?_modify]
  · simp only [isTop, if_false, Option.map_id']
    split
    · exact Arena.node?_modify_of_ne _ isTop _
    · rfl

theorem node?_strips (arena : Arena (EntryList α)) (ids : List NodeId)
    (id : NodeId) : (ids.foldl strip arena).node? id =
      (arena.node? id).map fun node => if id ∈ ids then stripped node else node := by
  induction ids generalizing arena with
  | nil => simp
  | cons top rest induction =>
      rw [List.foldl_cons, induction, node?_strip, Option.map_map]
      congr 1
      funext node
      by_cases isTop : id = top <;> by_cases later : id ∈ rest <;>
        simp [isTop, later, stripped_stripped]

theorem run_forgetSeparators {ids : List NodeId}
    (live : ∀ id ∈ ids, arena.contains id = true) :
    ids.forM forgetSeparators arena = .ok () (ids.foldl strip arena) := by
  induction ids generalizing arena with
  | nil => rfl
  | cons top rest induction =>
      obtain ⟨node, found⟩ := Arena.contains_iff.mp (live top List.mem_cons_self)
      have step : forgetSeparators top arena = .ok () (strip arena top) := by
        unfold forgetSeparators strip
        rw [run_get_bind, run_lift_bind (Arena.read_eq found), found]
        by_cases isLeaf : node.isLeaf = true <;> simp [isLeaf]
      rw [run_forM_cons, step, List.foldl_cons]
      refine induction fun id member => ?_
      rw [Arena.contains, node?_strip, Option.isSome_map]
      exact live id (List.mem_cons_of_mem _ member)

theorem forest_strips (forest : arena.Forest kids) (ids : List NodeId) :
    (ids.foldl strip arena).Forest kids := by
  refine forest.of_same_links fun id => ?_
  rw [node?_strips, Option.map_map]
  congr 1
  funext node
  by_cases member : id ∈ ids <;> simp [member, bare_stripped]

theorem release_of_forest (forest : tree.arena.Forest kids) {node : Node (EntryList α)}
    (found : tree.arena.node? tree.root = some node) (isTop : node.parent = none) :
    ∃ lists, tree.arena.leafPayloads tree.root = .ok lists ∧ ∀ values,
      tree.release values = .ok () (values ++ lists.reverse.flatMap EntryList.values) := by
  obtain ⟨shape, isRoot, held⟩ := forest.exists_subtree found
  have again := forest_strips forest shape.ids
  have isNode : (shape.ids.foldl strip tree.arena).node? tree.root =
      some (stripped node) := by
    rw [node?_strips, found, Option.map_some, if_pos (isRoot ▸ id_mem_ids shape)]
  obtain ⟨twin, isTwin, alsoHeld⟩ := again.exists_subtree isNode
  have stillTop : (stripped node).parent = none :=
    (congrArg Node.parent (bare_stripped node)).trans isTop
  obtain ⟨last, released, _⟩ := again.release_eq alsoHeld (isTwin ▸ isNode) stillTop
  rw [isTwin, held.ids_eq alsoHeld (isTwin.trans isRoot.symm)] at released
  have gone := again.run_release tree.root []
  rw [released] at gone
  have forgotten := run_forgetSeparators fun id member =>
    Arena.contains_iff.mpr (held.live member)
  refine ⟨_, isRoot ▸ forest.leafPayloads_filter held, fun values => ?_⟩
  unfold release surrender
  rw [run_get_bind, ← isRoot, run_lift_bind (forest.preorder_eq held), run_bind, run_apply,
    forgotten]
  dsimp only
  rw [run_within, isRoot, gone]
  apply congrArg (EStateM.Result.ok () <| values ++ ·)
  rw [List.nil_append, ← List.filterMap_reverse, ← List.filter_reverse, List.filterMap_filter,
    List.filterMap_eq_flatMap_toList, List.filterMap_eq_flatMap_toList, List.flatMap_assoc,
    List.flatMap_assoc]
  -- A branch gives an empty list to the one side, and nothing to the other.
  refine List.flatMap_congr fun id member => ?_
  have inside := List.mem_reverse.mp member
  obtain ⟨node, found⟩ := held.live inside
  rw [Arena.payload?, node?_strips, found, Option.map_some, if_pos inside,
    Option.bind_some]
  by_cases isLeaf : kids id = []
  · rw [isLeaf, stripped, if_pos ((forest.isLeaf_iff found).mpr isLeaf), Arena.payload?,
      found]
    rfl
  · rw [stripped, if_neg fun single => isLeaf ((forest.isLeaf_iff found).mp single),
      if_neg (by simpa using isLeaf)]
    rfl

/-- What else is in the lists of branches, and in the values array, is no matter. -/
theorem release_congr {other : Tree α} (forest : tree.arena.Forest kids)
    {node : Node (EntryList α)} (found : tree.arena.node? tree.root = some node)
    (isTop : node.parent = none) (lists : NodeId → Option (EntryList α))
    (isRoot : other.root = tree.root)
    (nodes : ∀ id, other.arena.node? id = (tree.arena.node? id).map fun node =>
      if node.isLeaf then node else { node with payload := lists id }) :
    other.release = tree.release := by
  have again : other.arena.Forest kids := by
    refine forest.of_same_links fun id => ?_
    rw [nodes, Option.map_map]
    congr 1
    funext node
    by_cases isLeaf : node.isLeaf = true <;> simp [isLeaf, Node.bare]
  have isNode := nodes tree.root
  rw [found, Option.map_some, ← isRoot] at isNode
  have stillTop : (if node.isLeaf then node
      else { node with payload := lists other.root }).parent = none := by
    by_cases isLeaf : node.isLeaf = true <;> simp [isLeaf, isTop]
  obtain ⟨handed, isRead, done⟩ := release_of_forest forest found isTop
  obtain ⟨again, alsoRead, alsoDone⟩ := release_of_forest again isNode stillTop
  have same : other.arena.leafPayloads tree.root = tree.arena.leafPayloads tree.root := by
    refine forest.leafPayloads_congr ‹_› (Arena.contains_iff.mpr ⟨_, found⟩)
      (Arena.contains_iff.mpr ⟨_, isRoot ▸ isNode⟩) fun id isLeaf => ?_
    rw [Arena.payload?, Arena.payload?, nodes]
    cases known : tree.arena.node? id with
    | none => rfl
    | some leaf => rw [Option.map_some, if_pos ((forest.isLeaf_iff known).mpr isLeaf)]
  rw [isRoot, same, isRead] at alsoRead
  funext values
  rw [done, alsoDone, Except.ok.inj alsoRead]

/-- What comes of giving up a tree. -/
structure HandsOver (tree : Tree α) : Prop where
  /-- The lists of the leaves, the last first, and no value beside them. -/
  release : ∃ (leaves : List NodeId) (lists : List (EntryList α)),
    tree.arena.leaves tree.root = .ok leaves ∧
    leaves.map tree.list = lists.map .ok ∧ ∀ values,
    tree.release values = .ok () (values ++ lists.reverse.flatMap EntryList.values)
  /-- Every value of the values array, as often as it is in there. -/
  perm : ∀ values, tree.release [] = .ok () values →
    values.Perm (tree.values.toList.map Prod.snd)
  /-- Lists of branches and the values array might as well be others. -/
  blind : ∀ (other : Tree α) (lists : NodeId → Option (EntryList α)),
    other.root = tree.root →
    (∀ id, other.arena.node? id = (tree.arena.node? id).map fun node =>
      if node.isLeaf then node else { node with payload := lists id }) →
    other.release = tree.release

theorem Upright.release_eq (upright : tree.Upright shape) (values : List α) :
    tree.release values = .ok () (values ++
      (shape.tips.map fun tip => (⟨tip.own⟩ : EntryList α)).reverse.flatMap
        EntryList.values) := by
  obtain ⟨isRoot, kids, whole⟩ := upright.embodies
  obtain ⟨node, found⟩ := whole.held.live (id_mem_ids shape)
  obtain ⟨lists, isRead, done⟩ :=
    release_of_forest whole.forest (isRoot ▸ found) (whole.top node found)
  rw [leafPayloads_eq upright] at isRead
  rw [done, Except.ok.inj isRead]

theorem Upright.handsOver (upright : tree.Upright shape) : tree.HandsOver := by
  obtain ⟨isRoot, kids, whole⟩ := upright.embodies
  obtain ⟨node, found⟩ := whole.held.live (id_mem_ids shape)
  refine ⟨⟨_, _, leaves_eq upright, ?_, upright.release_eq⟩, ?_, fun other lists =>
    release_congr whole.forest (isRoot ▸ found) (whole.top node found) lists⟩
  · rw [List.map_map, List.map_map]
    refine List.map_congr_left fun tip isTip => ?_
    obtain ⟨list, isList⟩ := upright.list_of_tip isTip
    have carried := whole.held.carried_of_tip isTip
    rw [isList] at carried
    rw [Function.comp_apply, list_eq_ok.mpr carried, Function.comp_apply, own, isList]
    rfl
  · intro values done
    obtain ⟨_, rfl⟩ := EStateM.Result.ok.inj ((upright.release_eq []).symm.trans done)
    have stored := upright.mirrors.perm_toList.map Prod.snd
    rw [entries_eq_tips, List.map_map, List.map_flatMap] at stored
    refine ((List.reverse_perm _).flatMap_right _).trans ?_
    rw [List.flatMap_map]
    exact stored

/-- Given up, a tree hands over every value once, as its leaf held it, whatever it went
through. -/
theorem release_hands_over {config : Config} (valid : config.Valid) :
    ∃ start : Tree α, withConfig config = .ok start ∧
      ∀ requests : List (Request α), (requests.foldl perform start).HandsOver := by
  obtain ⟨start, created, shape, abides⟩ := @abides_withConfig α config valid
  refine ⟨start, created, fun requests => ?_⟩
  obtain ⟨final, abides⟩ := abides.history requests
  exact abides.upright.handsOver

theorem release_hands_over_disordered :
    ({ maxValues := 2, chunkSize := 1, nodeCapacity := 8 } : Config).Valid ∧
      ∃ start : Tree Nat,
        withConfig { maxValues := 2, chunkSize := 1, nodeCapacity := 8 } =
          .ok start ∧
        ∃ after : Tree Nat, [
          .insert 5 (.answering compare) (), .insert 6 (.answering compare) (),
          .insert 7 (.answering compare) (),
          .insert 8 (.answering fun _ _ => .lt) (), .remove 6 (.answering compare) ()
          ].foldl perform start = after ∧
          after.HandsOver ∧ after.release [] = .ok () [7, 5, 8] := by
  have valid : ({ maxValues := 2, chunkSize := 1, nodeCapacity := 8 } :
      Config).Valid := by
    constructor <;> decide
  obtain ⟨start, created, handsOver⟩ := @release_hands_over Nat _ valid
  refine ⟨valid, start, created, _, rfl, handsOver _, ?_⟩
  obtain rfl := Except.ok.inj created
  decide +kernel

end LinkedBTree.Tree
