import LinkedBTree.Proofs.Tree.Calls
import LinkedBTree.Proofs.Tree.Places
import LinkedBTree.Proofs.Tree.Reachable

namespace LinkedBTree

/-! What comes before and after: beside a leaf are the leaves next to it in order, and an
entry is replaced between the entries next to it. -/

variable {α β σ : Type}

open Subtree

namespace Side

def adjacent? : Side → List β → Nat → Option β
  | left, _, 0 => none
  | left, items, position + 1 => items[position]?
  | right, items, position => items[position + 1]?

theorem end?_among (side : Side) (before after : List β) (item : β) :
    side.end? (side.among before after) =
      side.adjacent? (before ++ item :: after) before.length := by
  cases side with
  | left =>
      rcases List.eq_nil_or_concat before with rfl | ⟨front, last, rfl⟩
      · rfl
      · simp [end?, among, adjacent?]
  | right =>
      rw [adjacent?, List.getElem?_append_right (Nat.le_succ _)]
      simp [end?, among, List.head?_eq_getElem?]

theorem adjacent?_map {γ : Type} (side : Side) (read : β → γ) (items : List β)
    (position : Nat) :
    side.adjacent? (items.map read) position = (side.adjacent? items position).map read := by
  cases side with
  | left => cases position <;> simp [adjacent?]
  | right => simp [adjacent?]

theorem adjacent?_eq_none_iff {items : List β} {position : Nat}
    (inRange : position < items.length) :
    (left.adjacent? items position = none ↔ position = 0) ∧
      (right.adjacent? items position = none ↔ position + 1 = items.length) := by
  constructor
  · cases position with
    | zero => simp [adjacent?]
    | succ position =>
        simp only [adjacent?, List.getElem?_eq_none_iff]
        omega
  · simp only [adjacent?, List.getElem?_eq_none_iff]
    omega

end Side

namespace Tree

/-- The entry at `element` of `leaf` is the one at `position` in the order of the leaves,
and stands between the values next to it. -/
structure Flanked (tree : Tree α) (leaf : NodeId) (element : Nat) (values : List α)
    (position : Nat) : Prop where
  inOrder : tree.inOrder = .ok values
  inRange : position < values.length
  placed : ∃ (leaves : List (NodeId × EntryList α)) (place : Place leaves leaf element),
    tree.Bears leaves ∧ place.before.length = position ∧
      place.list.value? element = values[position]?
  neighbours_eq : tree.neighbours leaf element =
    .ok (Side.left.adjacent? values position, Side.right.adjacent? values position)
  first_iff : Side.left.adjacent? values position = none ↔ position = 0
  last_iff : Side.right.adjacent? values position = none ↔ position + 1 = values.length

section

variable {tree : Tree α} {path : List (Frame α)} {leaf : NodeId}
  {front back : List (Entry α)} {entry : Entry α}

private theorem adjacent?_values (side : Side) :
    (side.end? (side.among (leftOf path ++ front) (back ++ rightOf path))).map Entry.value =
      side.adjacent? ((plug path (.node leaf (some ⟨front ++ entry :: back⟩) [])).entries.map
        Entry.value) (leftOf path ++ front).length := by
  rw [Side.adjacent?_map, entries_plug, entries_leaf, Side.end?_among _ _ _ entry]
  simp

theorem Upright.flanked
    (upright : tree.Upright (plug path (.node leaf (some ⟨front ++ entry :: back⟩) []))) :
    tree.Flanked leaf front.length
      ((plug path (.node leaf (some ⟨front ++ entry :: back⟩) [])).entries.map Entry.value)
      (leftOf path ++ front).length := by
  have inRange : (leftOf path ++ front).length <
      ((plug path (.node leaf (some ⟨front ++ entry :: back⟩) [])).entries.map
        Entry.value).length := by
    rw [entries_plug, entries_leaf]
    simp
  obtain ⟨first, last⟩ := Side.adjacent?_eq_none_iff inRange
  refine ⟨inOrder_eq upright, inRange,
    ⟨_, placeIn path leaf front (entry :: back), upright.bears, by rw [before_placeIn], ?_⟩,
    ?_, first, last⟩
  · rw [entries_plug, entries_leaf, EntryList.value?, EntryList.entry?, List.getElem?_map]
    simp [placeIn]
  · rw [neighbours_eq rfl (upright.formed_of_filled (by simp)) upright.embodies,
      ← adjacent?_values, ← adjacent?_values]
    rfl

end

theorem leafBeside_adjacent {tree : Tree α} {kids : NodeId → List NodeId}
    {top : Node (EntryList α)} (forest : tree.arena.Forest kids)
    (found : tree.arena.node? tree.root = some top) (unlinked : top.isLinked = false) :
    ∃ leaves, tree.arena.leaves tree.root = .ok leaves ∧
      ∀ (side : Side) (position : Nat) (leaf : NodeId), leaves[position]? = some leaf →
        tree.leafBeside side leaf = .ok (side.adjacent? leaves position) := by
  obtain ⟨shape, isRoot, held⟩ := forest.exists_subtree found
  refine ⟨shape.tips.map Subtree.id, ?_, fun side position leaf isLeaf => ?_⟩
  · rw [← isRoot, forest.leaves_filter held, held.tips_eq]
  · obtain ⟨inRange, isHere⟩ := List.getElem?_eq_some_iff.mp isLeaf
    have isTop : ∀ node, tree.arena.node? shape.id = some node → node.parent = none := by
      intro node isNode
      rw [isRoot] at isNode
      obtain rfl := Option.some.inj (isNode.symm.trans found)
      rw [forest.isLinked_eq found] at unlinked
      exact Option.isNone_iff_eq_none.mp (Option.isSome_eq_false_iff.mp unlinked)
    have split := (List.take_append_drop position (shape.tips.map Subtree.id)).symm
    rw [List.drop_eq_getElem_cons inRange, isHere] at split
    rw [leafBeside_eq forest held isTop split side, Side.end?_among _ _ _ leaf, ← split,
      List.length_take_of_le (Nat.le_of_lt inRange)]

theorem Upright.replace_flanked {tree : Tree α} {shape : Shape α}
    (upright : tree.Upright shape) {old : α} {compare : Comparator σ α} {state after : σ}
    {leaf : NodeId} {element : Nat}
    (located : tree.locateInLeaf old compare state = .ok (some (leaf, element)) after) :
    ∃ values position, tree.Flanked leaf element values position ∧
      ∀ new, replace old new compare (tree, state) =
        (Session.consult (fun _ => checkBetween new compare
            (Side.left.adjacent? values position)
            (Side.right.adjacent? values position)) >>= fun _ =>
          Session.apply (Edit.overwrite leaf element new)) (tree, after) := by
  obtain ⟨path, children, front, entry, back, rfl, descended⟩ :=
    descended_of_located upright located
  obtain rfl := (upright.landed descended).found
  refine ⟨_, _, upright.flanked, fun new => ?_⟩
  rw [replace_asks upright descended, ← adjacent?_values, ← adjacent?_values]
  rfl

/-- Beside a leaf are the leaves next to it under the root, on whatever levels they are;
and in a tree that has come about by calls, a replaced entry is compared with the values
next to it in order, which are missing at the ends only. -/
theorem neighbours_adjoin :
    (∀ (tree : Tree α) (kids : NodeId → List NodeId) (top : Node (EntryList α)),
      tree.arena.Forest kids → tree.arena.node? tree.root = some top →
      top.isLinked = false →
      ∃ leaves, tree.arena.leaves tree.root = .ok leaves ∧
        ∀ (side : Side) (position : Nat) (leaf : NodeId), leaves[position]? = some leaf →
          tree.leafBeside side leaf = .ok (side.adjacent? leaves position)) ∧
    ∀ config : Config, config.Valid → ∃ start : Tree α, withConfig config = .ok start ∧
      ∀ (requests : List (Request α)) (tree : Tree α),
        requests.foldl perform start = tree →
        ∀ {σ : Type} (old : α) (compare : Comparator σ α) (state after : σ)
          (leaf : NodeId) (element : Nat),
          tree.locateInLeaf old compare state = .ok (some (leaf, element)) after →
          ∃ values position, tree.Flanked leaf element values position ∧
            ∀ new, replace old new compare (tree, state) =
              (Session.consult (fun _ => checkBetween new compare
                  (Side.left.adjacent? values position)
                  (Side.right.adjacent? values position)) >>= fun _ =>
                Session.apply (Edit.overwrite leaf element new)) (tree, after) := by
  refine ⟨fun tree kids top forest found unlinked =>
    leafBeside_adjacent forest found unlinked, fun config valid => ?_⟩
  obtain ⟨start, created, shape, abides⟩ := @abides_withConfig α _ valid
  refine ⟨start, created, fun requests tree isTree _ old compare state after leaf element
    located => ?_⟩
  obtain ⟨final, abides⟩ := abides.history requests
  rw [isTree] at abides
  exact abides.upright.replace_flanked located

/-- The first leaf stands one level above the two that come after it. -/
theorem neighbours_adjoin_uneven :
    ∃ (start tree : Tree Nat) (kids : NodeId → List NodeId) (top : Node (EntryList Nat)),
      withConfig { maxValues := 2, chunkSize := 1, nodeCapacity := 8 } = .ok start ∧
      [Request.insert 5 (.answering compare) (), .insert 6 (.answering compare) (),
        .insert 7 (.answering compare) ()].foldl perform start = tree ∧
      tree.arena.Forest kids ∧ tree.arena.node? tree.root = some top ∧
      top.isLinked = false ∧ tree.arena.leaves tree.root = .ok [⟨1, 0⟩, ⟨3, 0⟩, ⟨4, 0⟩] ∧
      tree.leafBeside .right ⟨1, 0⟩ = .ok (some ⟨3, 0⟩) ∧
      tree.leafBeside .left ⟨3, 0⟩ = .ok (some ⟨1, 0⟩) ∧
      tree.locateInLeaf 6 (.answering compare) () = .ok (some (⟨3, 0⟩, 0)) () ∧
      ∃ position, tree.Flanked ⟨3, 0⟩ 0 [5, 6, 7] position := by
  have valid : ({ maxValues := 2, chunkSize := 1, nodeCapacity := 8 } :
      Config).Valid := by
    constructor <;> decide
  obtain ⟨start, created, shape, abides⟩ := @abides_withConfig Nat _ valid
  obtain ⟨tree, isTree⟩ : ∃ tree, [Request.insert 5 (.answering compare) (),
      .insert 6 (.answering compare) (), .insert 7 (.answering compare) ()].foldl
        perform start = tree := ⟨_, rfl⟩
  obtain ⟨_, later⟩ := abides.history [.insert 5 (.answering compare) (),
    .insert 6 (.answering compare) (), .insert 7 (.answering compare) ()]
  rw [isTree] at later
  obtain ⟨isRoot, kids, whole⟩ := later.upright.embodies
  obtain ⟨beside, between⟩ := @neighbours_adjoin Nat
  obtain ⟨again, recreated, between⟩ := between _ valid
  obtain rfl := Except.ok.inj (created.symm.trans recreated)
  have flanked := between _ tree isTree 6 (.answering compare) () () ⟨3, 0⟩ 0
  obtain rfl := Except.ok.inj created
  obtain ⟨top, found⟩ := whole.held.live (id_mem_ids _)
  have unlinked : top.isLinked = false := by
    rw [whole.forest.isLinked_eq found, whole.top top found]
    rfl
  rw [isRoot] at found
  have isLeaves : tree.arena.leaves tree.root = .ok [⟨1, 0⟩, ⟨3, 0⟩, ⟨4, 0⟩] := by
    rw [← isTree]
    decide +kernel
  have located : tree.locateInLeaf 6 (.answering compare) () =
      .ok (some (⟨3, 0⟩, 0)) () := by
    rw [← isTree]
    decide +kernel
  have inOrder : tree.inOrder = .ok [5, 6, 7] := by
    rw [← isTree]
    decide +kernel
  obtain ⟨leaves, listed, adjacent⟩ := beside tree kids top whole.forest found unlinked
  obtain rfl := Except.ok.inj (listed.symm.trans isLeaves)
  obtain ⟨values, position, stands, _⟩ := flanked located
  obtain rfl := Except.ok.inj (stands.inOrder.symm.trans inOrder)
  exact ⟨_, tree, kids, top, created, isTree, whole.forest, found, unlinked, isLeaves,
    adjacent .right 0 _ rfl, adjacent .left 1 _ rfl, located, position, stands⟩

end Tree

end LinkedBTree
