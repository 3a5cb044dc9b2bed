import LinkedBTree.Proofs.Pieces
import LinkedBTree.Proofs.Arena.Grafting
import LinkedBTree.Proofs.Tree.Chunks
import LinkedBTree.Proofs.Tree.Splitting

namespace LinkedBTree

/-! A split portions the list of a leaf out to fresh leaves below it. -/

variable {α : Type}

open Subtree

namespace Arena.Spread

variable {arena after : Arena (EntryList α)} {kids : NodeId → List NodeId} {id : NodeId}
  {leaves : List NodeId} {lists : List (EntryList α)}
  (spread : arena.Spread after kids id leaves lists)
include spread

theorem node?_branch : after.node? id = (arena.node? id).map fun node =>
    { node with
      payload := some (EntryList.separators lists)
      firstChild := leaves.head?
      lastChild := leaves.getLast?
      childCount := leaves.length } := by
  obtain ⟨node, found⟩ := spread.live
  have carried : after.carried? id =
      (arena.carried? id).map fun _ => some (EntryList.separators lists) := by
    rw [spread.branch, carried?_of_node? found, Option.map_some]
  refine @node?_eq_map _ _ _ _ (fun node => { node with
    firstChild := leaves.head?
    lastChild := leaves.getLast?
    childCount := leaves.length }) _ carried fun old new known isNew => ?_
  have links := spread.was.links_eq_of_beside spread.forest known isNew ?_
  · rw [Function.update_self] at links
    exact links
  · intro parent isChild
    refine Function.update_of_ne ?_ ..
    rintro rfl
    exact isChild.elim spread.was.not_mem_self spread.forest.not_mem_self

theorem node?_leaf {position : Nat} {leaf : NodeId} {list : EntryList α}
    (isLeaf : leaves[position]? = some leaf) (isList : lists[position]? = some list) :
    after.node? leaf = some
      { payload := some list
        parent := some id
        previous := (leaves.take position).getLast?
        next := leaves[position + 1]? } := by
  have isChild : (Function.update kids id leaves id)[position]? = some leaf := by
    rw [Function.update_self]
    exact isLeaf
  obtain ⟨node, found, parent, previous, next⟩ := spread.forest.child_at isChild
  rw [Function.update_self] at previous next
  have member := List.mem_of_getElem? isLeaf
  have carried := spread.leaf (leaf, list) (List.mem_of_getElem?
    (List.getElem?_zip_eq_some.mpr ⟨isLeaf, isList⟩))
  rw [carried?_of_node? found, Option.some.injEq] at carried
  have below : Function.update kids id leaves leaf = [] := by
    rw [Function.update_of_ne fun same : leaf = id => spread.not_mem (same ▸ member)]
    exact spread.was.none_of_dead (spread.dead leaf member)
  have first := spread.forest.firstChild found
  have last := spread.forest.lastChild found
  have count := spread.forest.childCount found
  rw [below] at first last count
  rw [found]
  obtain ⟨_, _, _, _, _, _, _⟩ := node
  simp only at carried parent previous next first last count
  subst carried parent previous next first last count
  rfl

theorem node?_other {other : NodeId} (different : other ≠ id) (outside : other ∉ leaves) :
    after.node? other = arena.node? other := by
  have carried : after.carried? other = (arena.carried? other).map fun payload => payload := by
    rw [spread.others other different outside, Option.map_id']
  have same := @node?_eq_map _ _ _ _ (fun node => node) _ carried ?_
  · rwa [Option.map_id'] at same
  intro old new known found
  refine spread.was.links_eq spread.forest known found
    (Function.update_of_ne different ..) fun parent isChild => ?_
  refine Function.update_of_ne ?_ ..
  rintro rfl
  rw [spread.childless, Function.update_self] at isChild
  exact isChild.elim List.not_mem_nil outside

end Arena.Spread

namespace Tree

/-- Leaf `id` is a branch now, over `leaves`, which hold what it held. -/
structure Portioned (tree last : Tree α) (id : NodeId) (list own : EntryList α)
    (leaves : List NodeId) (lists : List (EntryList α)) : Prop where
  same : last = { tree with arena := last.arena }
  portions : list.Portions tree.config.chunkSize lists
  length : leaves.length = lists.length
  fresh : leaves.Nodup ∧ ∀ leaf ∈ leaves, tree.arena.node? leaf = none
  separators : own.entries.map some = lists.dropLast.map EntryList.last?
  children : last.arena.children id = .ok leaves
  branch : last.arena.node? id = (tree.arena.node? id).map fun node =>
    { node with
      payload := some own
      firstChild := leaves.head?
      lastChild := leaves.getLast?
      childCount := leaves.length }
  leaf : ∀ position leaf portion, leaves[position]? = some leaf →
    lists[position]? = some portion → last.arena.node? leaf = some
      { payload := some portion
        parent := some id
        previous := (leaves.take position).getLast?
        next := leaves[position + 1]? }
  others : ∀ other, other ≠ id → other ∉ leaves →
    last.arena.node? other = tree.arena.node? other
  inOrder : last.inOrder = tree.inOrder
  stats : last.arena.stats = { tree.arena.stats with
    allocated := tree.arena.stats.allocated + .ofNat lists.length
    splits := tree.arena.stats.splits + 1 }

section

variable {tree : Tree α} {arena : Arena (EntryList α)} {kids : NodeId → List NodeId}
  {id : NodeId} {list : EntryList α} {leaves : List NodeId} {lists : List (EntryList α)}

private theorem inOrder_spread (rooted : tree.arena.contains tree.root = true)
    (spread : tree.arena.Spread arena kids id leaves lists)
    (carried : tree.arena.carried? id = some (some list))
    (whole : lists.flatMap EntryList.entries = list.entries) (some : lists ≠ []) :
    ({ tree with arena } : Tree α).inOrder = tree.inOrder := by
  obtain ⟨root, found⟩ := Arena.contains_iff.mp rooted
  obtain ⟨shape, isRoot, held⟩ := spread.was.exists_subtree found
  let act (seen : List α) (id : NodeId) (payload : Option (EntryList α)) :
      Except Error (List α) := do
    pure ((← listOf id { payload }).values.reverse ++ seen)
  have kept : ∀ other ∈ shape.ids, other ≠ id → arena.carried? other =
      tree.arena.carried? other ∧ Function.update kids id leaves other = kids other := by
    intro other inside different
    obtain ⟨node, found⟩ := held.live inside
    refine ⟨spread.others other different ?_, Function.update_of_ne different ..⟩
    exact spread.not_mem_of_carried (Arena.carried?_of_node? found)
  have joins : ∀ seen, (Subtree.spread id leaves lists).tips.foldlM
      (fun seen tip => act seen tip.id tip.payload) seen =
        act seen id (Option.some list) := by
    intro seen
    have reads : (leavesOf leaves lists).map (fun tip => tip.own.map Entry.value) =
        lists.map EntryList.values := map_leavesOf spread.same fun _ _ => rfl
    have values : lists.flatMap EntryList.values = list.values := by
      rw [EntryList.values, ← whole, List.map_flatMap]
      rfl
    rw [tips_spread spread.same some, foldlM_gathers fun tip member seen => ?_,
      List.flatMap_def, reads, ← List.flatMap_def, values]
    · rfl
    · obtain ⟨pair, _, rfl⟩ := List.mem_map.mp member
      rfl
  have walked : arena.foldLeaves shape.id (fun seen id node => act seen id node.payload) [] =
      tree.arena.foldLeaves shape.id (fun seen id node => act seen id node.payload) [] :=
    spread.was.foldLeaves_graft spread.forest held spread.holds kept carried
      spread.childless (fun _ _ _ => rfl) joins []
  rw [isRoot] at walked
  exact congrArg (· >>= fun seen => pure seen.reverse) walked

variable (forest : tree.arena.Forest kids) (tidy : tree.arena.Tidy)
  {node : Node (EntryList α)} (found : tree.arena.node? id = some node)
  (childless : kids id = []) (carried : node.payload = some list)
include forest tidy found childless carried

private theorem split_portions (positive : 0 < tree.config.chunkSize)
    (rooted : tree.arena.contains tree.root = true)
    (several : 2 ≤ (list.pieces tree.config.chunkSize).length)
    (room : tree.arena.liveCount + (list.pieces tree.config.chunkSize).length ≤
      tree.arena.capacity) :
    ∃ last own leaves lists, Edit.split id tree = .ok true last ∧
      tree.Portioned last id list own leaves lists := by
  obtain ⟨leaves, arena, done, spread, _, stats⟩ :=
    Edit.split_spreads forest tidy found childless carried several room
  have portions := EntryList.portions_pieces positive list
  have known := Arena.carried?_of_node? found
  rw [carried] at known
  obtain ⟨isNode, isBranch, _⟩ := Arena.carried?_eq_some.mp spread.branch
  refine ⟨_, _, leaves, _, done, rfl, portions, spread.same, ⟨spread.nodup, spread.dead⟩,
    separators_present filled_pieces, ?_, spread.node?_branch,
    fun _ _ _ => spread.node?_leaf, fun _ => spread.node?_other, ?_, stats⟩
  · have below := spread.forest.children_eq isBranch
    rwa [Function.update_self] at below
  · refine inOrder_spread rooted spread known portions.whole ?_
    exact List.ne_nil_of_length_pos (Nat.lt_of_lt_of_le Nat.two_pos several)

private theorem split_exhausted
    (several : 2 ≤ (list.pieces tree.config.chunkSize).length)
    (full : tree.arena.capacity < tree.arena.liveCount +
      (list.pieces tree.config.chunkSize).length) :
    ∃ error last, Edit.split id tree = .error error last ∧
      error.root = .arenaExhausted tree.arena.capacity ∧
      ∀ other, last.arena.node? other = tree.arena.node? other := by
  obtain ⟨arena, failed⟩ := tidy.allocateMany_eq_error full (.nil tree.arena)
  obtain ⟨same, _⟩ := Arena.allocateMany_error tidy (.nil tree.arena) failed
  refine ⟨.context s!"unable to split {id}" (.cause (.arenaExhausted tree.arena.capacity)),
    { tree with arena }, ?_, rfl, fun other => ?_⟩
  · rw [Edit.run_split forest tidy found childless carried,
      if_neg (by omega)]
    simp only [failed]
  · rw [same, if_neg List.not_mem_nil]

end

/-- A leaf that is split shares its list out in portions, in order, and nothing else
changes. It takes a node for each portion. -/
theorem splits_portion_lists {tree : Tree α} {kids : NodeId → List NodeId} {leaf : NodeId}
    {list : EntryList α} (forest : tree.arena.Forest kids) (tidy : tree.arena.Tidy)
    (rooted : tree.arena.contains tree.root = true)
    (isLeaf : tree.arena.children leaf = .ok []) (isList : tree.list leaf = .ok list)
    (positive : 0 < tree.config.chunkSize) :
    (list.length ≤ tree.config.chunkSize → Edit.split leaf tree = .ok false tree) ∧
      (tree.config.chunkSize < list.length →
        (list.length ⌈/⌉ tree.config.chunkSize ≤ tree.arena.spare →
          ∃ last own leaves lists, Edit.split leaf tree = .ok true last ∧
            tree.Portioned last leaf list own leaves lists) ∧
        (tree.arena.spare < list.length ⌈/⌉ tree.config.chunkSize →
          ∃ error last, Edit.split leaf tree = .error error last ∧
            error.root = .arenaExhausted tree.arena.capacity ∧
            error.root.category = .allocation ∧
            ∀ other, last.arena.node? other = tree.arena.node? other)) := by
  obtain ⟨node, found, carried⟩ := Arena.carried?_eq_some.mp (list_eq_ok.mp isList)
  have childless : kids leaf = [] :=
    Except.ok.inj ((forest.children_eq found).symm.trans isLeaf)
  have long := EntryList.two_le_length_pieces positive list
  rw [← EntryList.length_pieces positive]
  unfold Arena.spare
  refine ⟨fun short => ?_, fun longer => ⟨fun room => ?_, fun full => ?_⟩⟩
  · rw [Edit.run_split forest tidy found childless carried,
      if_pos (Nat.lt_of_not_le (long.not.mpr (Nat.not_lt_of_le short)))]
  · have several := long.mpr longer
    exact split_portions forest tidy found childless carried positive rooted several
      (by omega)
  · obtain ⟨error, last, failed, cause, nodes⟩ := split_exhausted forest tidy found
      childless carried (long.mpr longer) (by omega)
    exact ⟨error, last, failed, cause, by rw [cause]; rfl, nodes⟩

def three : EntryList Nat :=
  ⟨[⟨5, 0⟩, ⟨7, 1⟩, ⟨9, 2⟩]⟩

def lone : Tree Nat where
  arena :=
    { slots := #[⟨0, some { payload := some three }⟩]
      capacity := 4
      stats := { allocated := 1 } }
  root := ⟨0, 0⟩
  values := .ofEntries #[some 5, some 7, some 9]
  config := { maxValues := 3, chunkSize := 2, nodeCapacity := 4 }

theorem splits_portion_lists_uneven :
    lone.arena.Forest (fun _ => []) ∧ lone.arena.Tidy ∧
      lone.arena.contains lone.root = true ∧ lone.arena.children lone.root = .ok [] ∧
      lone.list lone.root = .ok three ∧
      ∃ last own leaves lists, Edit.split lone.root lone = .ok true last ∧
        lone.Portioned last lone.root three own leaves lists := by
  have started : (Arena.withCapacity 4 : Except Error (Arena (EntryList Nat))) =
      .ok { capacity := 4 } := rfl
  have allocated : Arena.allocate (some three) ({ capacity := 4 } :
      Arena (EntryList Nat)) = .ok lone.root lone.arena := rfl
  have forest := (Arena.forest_withCapacity started).allocate allocated
  have tidy := (Arena.vacant_withCapacity started).2.1.allocate allocated
  have isLeaf : lone.arena.children lone.root = .ok [] := rfl
  have isList : lone.list lone.root = .ok three := rfl
  obtain ⟨_, several⟩ := splits_portion_lists forest tidy rfl isLeaf isList (by decide)
  exact ⟨forest, tidy, rfl, isLeaf, isList, (several (by decide)).1 (by decide)⟩

end Tree

end LinkedBTree
