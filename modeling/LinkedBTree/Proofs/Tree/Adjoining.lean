import LinkedBTree.Proofs.Arena.Tips
import LinkedBTree.Proofs.Tree.Halting

namespace LinkedBTree

/-! The leaf beside a leaf is the one next to it in the order of the leaves, on whatever
levels the two are. -/

variable {α β γ : Type}

open Subtree

theorem flatMap_eq_append_cons {read : β → List γ} {items : List β} {before after : List γ}
    {found : γ} (split : items.flatMap read = before ++ found :: after) :
    ∃ left item right front back, items = left ++ item :: right ∧
      read item = front ++ found :: back ∧ before = left.flatMap read ++ front ∧
      after = back ++ right.flatMap read := by
  induction items generalizing before with
  | nil => cases before <;> cases split
  | cons item rest induction =>
      rw [List.flatMap_cons, List.append_eq_append_iff] at split
      rcases split with ⟨more, rfl, split⟩ | ⟨more, isRead, split⟩
      · obtain ⟨left, other, right, front, back, rfl, isRead, rfl, rfl⟩ := induction split
        exact ⟨item :: left, other, right, front, back, rfl, isRead, by simp, rfl⟩
      · cases more with
        | nil =>
            obtain ⟨left, other, right, front, back, rfl, isOther, none, rfl⟩ :=
              @induction [] split.symm
            refine ⟨item :: left, other, right, front, back, rfl, isOther, ?_, rfl⟩
            rw [List.flatMap_cons, List.append_assoc, ← none, isRead]
            simp
        | cons first back =>
            obtain ⟨rfl, rfl⟩ := List.cons.inj split
            exact ⟨[], item, rest, before, back, rfl, isRead, by simp, rfl⟩

namespace Side

variable {side : Side}

/-- The end of a list that faces the other side. -/
def end? : Side → List β → Option β
  | left => List.getLast?
  | right => List.head?

theorem end?_map {γ : Type} (side : Side) (read : β → γ) (list : List β) :
    side.end? (list.map read) = (side.end? list).map read := by
  cases side with
  | left => exact List.getLast?_map ..
  | right => exact List.head?_map ..

theorem end?_eq_none_iff {list : List β} :
    side.end? list = none ↔ list = [] := by
  cases side with
  | left => exact List.getLast?_eq_none_iff
  | right => exact List.head?_eq_none_iff

theorem end?_flatMap {γ : Type} {read : β → List γ} {list : List β} {item : β}
    (isEnd : side.end? list = some item) (filled : read item ≠ []) :
    side.end? (list.flatMap read) = side.end? (read item) := by
  cases side with
  | left =>
      obtain ⟨before, rfl⟩ := List.getLast?_eq_some_iff.mp isEnd
      have last := List.getLast?_eq_some_getLast filled
      simp [end?, List.getLast?_append, last]
  | right =>
      obtain ⟨after, rfl⟩ := List.head?_eq_some_iff.mp isEnd
      have first := List.head?_eq_some_head filled
      simp [end?, List.head?_append, first]

theorem mem_of_end? {list : List β} {item : β} (isEnd : side.end? list = some item) :
    item ∈ list := by
  cases side with
  | left => exact List.mem_of_getLast? isEnd
  | right => exact List.mem_of_head? isEnd

/-- The one of two lists on this side of what stands between them. -/
def among : Side → List β → List β → List β
  | left, before, _ => before
  | right, _, after => after

theorem among_map (side : Side) (read : β → γ) (before after : List β) :
    side.among (before.map read) (after.map read) = (side.among before after).map read := by
  cases side <;> rfl

theorem among_flatMap (side : Side) (read : β → List γ) (before after : List β) :
    side.among (before.flatMap read) (after.flatMap read) =
      (side.among before after).flatMap read := by
  cases side <;> rfl

theorem mem_of_among {before after : List β} {item other : β}
    (member : item ∈ side.among before after) : item ∈ before ++ other :: after := by
  cases side with
  | left => exact List.mem_append_left _ member
  | right => exact List.mem_append_right _ (List.mem_cons_of_mem _ member)

theorem end?_among_append (side : Side) (before front back after : List β) :
    side.end? (side.among (before ++ front) (back ++ after)) =
      (side.end? (side.among front back)).or (side.end? (side.among before after)) := by
  cases side with
  | left => exact List.getLast?_append
  | right => exact List.head?_append

end Side

namespace Tree

variable {tree : Tree α} {kids : NodeId → List NodeId} {side : Side}

/-- From this node the climb comes out beside `beyond`, or at the top if it is none. -/
def Adjoins (tree : Tree α) (side : Side) (start : NodeId) (beyond : Option NodeId) : Prop :=
  ∃ rounds turned, Loops (stateless (tree.turnStep side)) start () rounds (.ok turned ()) ∧
    match turned with
    | none => beyond = none
    | some sibling => ∃ path leaf,
        Loops (stateless (tree.edgeStep side)) sibling () path (.ok leaf ()) ∧
          beyond = some leaf

theorem edge_loops (forest : tree.arena.Forest kids) {part : Shape α}
    (held : tree.arena.Holds kids part) (side : Side) :
    ∃ path leaf, Loops (stateless (tree.edgeStep side)) part.id () path (.ok leaf ()) ∧
      side.end? (part.tips.map Subtree.id) = some leaf := by
  induction part using Subtree.induction with
  | node id payload children induction =>
      obtain ⟨carried, below, inside⟩ := Arena.holds_node.mp held
      obtain ⟨node, found, _⟩ := Arena.carried?_eq_some.mp carried
      have nearest : side.nearest node = (side.end? children).map Subtree.id := by
        rw [← Side.end?_map, ← below]
        cases side with
        | left => exact forest.lastChild found
        | right => exact forest.firstChild found
      have stepped : tree.edgeStep side id = .ok
          (match side.end? children with
          | some child => .inl child.id
          | none => .inr id) := by
        unfold edgeStep
        rw [bind_of_ok (Arena.read_eq found), nearest]
        cases side.end? children <;> rfl
      cases isEnd : side.end? children with
      | none =>
          rw [isEnd] at stepped
          obtain rfl := Side.end?_eq_none_iff.mp isEnd
          refine ⟨[id], id, .answers (liftM_eq_ok.mpr stepped), ?_⟩
          rw [tips_leaf]
          cases side <;> rfl
      | some child =>
          rw [isEnd] at stepped
          have member := Side.mem_of_end? isEnd
          obtain ⟨path, leaf, loops, isLeaf⟩ :=
            induction child member (inside child member)
          refine ⟨id :: path, leaf, .goesOn (liftM_eq_ok.mpr stepped) loops, ?_⟩
          rw [tips_branch (List.ne_nil_of_mem member), List.map_flatMap,
            Side.end?_flatMap isEnd (List.ne_nil_of_mem (Side.mem_of_end? isLeaf)), isLeaf]

/-- From a child the climb comes out beside the nearest leaf under a sibling on this
side; where there is no sibling it goes on from the parent. -/
theorem Adjoins.child (forest : tree.arena.Forest kids) {id : NodeId}
    {left right : List (Shape α)} {child : Shape α} {beyond : Option NodeId}
    (below : kids id = left.map Subtree.id ++ child.id :: right.map Subtree.id)
    (held : ∀ part ∈ side.among left right, tree.arena.Holds kids part)
    (adjoins : tree.Adjoins side id beyond) :
    tree.Adjoins side child.id
      ((side.end? ((side.among left right).flatMap fun part => part.tips.map Subtree.id)).or
        beyond) := by
  obtain ⟨node, found, isParent, previous, next⟩ := forest.child below
  have sibling : side.sibling node = (side.end? (side.among left right)).map Subtree.id := by
    rw [← Side.end?_map]
    cases side with
    | left => exact previous
    | right => exact next
  have stepped : tree.turnStep side child.id = .ok
      (match side.end? (side.among left right) with
      | some sibling => .inr (some sibling.id)
      | none => .inl id) := by
    unfold turnStep
    rw [bind_of_ok (Arena.read_eq found)]
    simp only [sibling, isParent]
    cases side.end? (side.among left right) <;> rfl
  cases isEnd : side.end? (side.among left right) with
  | none =>
      rw [isEnd] at stepped
      obtain ⟨rounds, turned, loops, beside⟩ := adjoins
      rw [Side.end?_eq_none_iff.mp isEnd]
      refine ⟨child.id :: rounds, turned, .goesOn (liftM_eq_ok.mpr stepped) loops, ?_⟩
      cases side <;> exact beside
  | some sibling =>
      rw [isEnd] at stepped
      obtain ⟨path, leaf, loops, isLeaf⟩ :=
        edge_loops forest (held sibling (Side.mem_of_end? isEnd)) side
      refine ⟨_, _, .answers (liftM_eq_ok.mpr stepped), path, leaf, loops, ?_⟩
      rw [Side.end?_flatMap isEnd (List.ne_nil_of_mem (Side.mem_of_end? isLeaf)), isLeaf,
        Option.some_or]

/-- From a leaf of a subtree the climb comes out beside the leaf next to it there, and
beyond the last one wherever it does from the top of the subtree. -/
theorem Adjoins.leaf (forest : tree.arena.Forest kids) {part : Shape α}
    (held : tree.arena.Holds kids part) {beyond : Option NodeId}
    (adjoins : tree.Adjoins side part.id beyond) {before after : List NodeId} {leaf : NodeId}
    (split : part.tips.map Subtree.id = before ++ leaf :: after) :
    tree.Adjoins side leaf ((side.end? (side.among before after)).or beyond) := by
  induction part using Subtree.induction generalizing beyond before after with
  | node id payload children induction =>
      obtain ⟨_, below, inside⟩ := Arena.holds_node.mp held
      by_cases isLeaf : children = []
      · subst isLeaf
        rw [tips_leaf, List.map_singleton] at split
        cases before with
        | nil =>
            obtain ⟨rfl, rfl⟩ := List.cons.inj split
            cases side <;> exact adjoins
        | cons _ _ => simp at split
      · rw [tips_branch isLeaf, List.map_flatMap] at split
        obtain ⟨left, child, right, front, back, rfl, isChild, rfl, rfl⟩ :=
          flatMap_eq_append_cons split
        rw [List.map_append, List.map_cons] at below
        have outer := adjoins.child forest below fun part member =>
          inside part (Side.mem_of_among member)
        rw [Side.end?_among_append, Option.or_assoc, Side.among_flatMap]
        exact induction child (by simp) (inside child (by simp)) outer isChild

theorem edgeLeaf_eq_ok (forest : tree.arena.Forest kids) {part : Shape α}
    (held : tree.arena.Holds kids part) (side : Side) :
    ∃ leaf, tree.edgeLeaf side part.id = .ok leaf ∧
      side.end? (part.tips.map Subtree.id) = some leaf := by
  obtain ⟨path, leaf, loops, isLeaf⟩ := edge_loops forest held side
  exact ⟨leaf, liftM_eq_ok.mp (((halting forest).edge side part.id).eq_of_loops loops), isLeaf⟩

theorem Adjoins.top (forest : tree.arena.Forest kids) {id : NodeId}
    {node : Node (EntryList α)} (found : tree.arena.node? id = some node)
    (isTop : node.parent = none) (side : Side) : tree.Adjoins side id none := by
  obtain ⟨previous, next⟩ := forest.alone found isTop
  have sibling : side.sibling node = none := by
    cases side with
    | left => exact previous
    | right => exact next
  have stepped : tree.turnStep side id = .ok (.inr none) := by
    unfold turnStep
    rw [bind_of_ok (Arena.read_eq found)]
    simp only [sibling, isTop]
    rfl
  exact ⟨[id], none, .answers (liftM_eq_ok.mpr stepped), rfl⟩

theorem leafBeside_eq (forest : tree.arena.Forest kids) {shape : Shape α}
    (held : tree.arena.Holds kids shape)
    (top : ∀ node, tree.arena.node? shape.id = some node → node.parent = none)
    {before after : List NodeId} {leaf : NodeId}
    (split : shape.tips.map Subtree.id = before ++ leaf :: after) (side : Side) :
    tree.leafBeside side leaf = .ok (side.end? (side.among before after)) := by
  obtain ⟨node, found⟩ := held.live shape.id_mem_ids
  obtain ⟨rounds, turned, loops, beside⟩ :=
    (Adjoins.top forest found (top node found) side).leaf forest held split
  have isTurned := liftM_eq_ok.mp (((halting forest).turn side leaf).eq_of_loops loops)
  rw [Option.or_none] at beside
  unfold leafBeside
  rw [bind_of_ok isTurned]
  cases turned with
  | none =>
      rw [show side.end? (side.among before after) = none from beside]
      rfl
  | some sibling =>
      obtain ⟨path, beyond, loops, isBeyond⟩ := beside
      have isEdge := liftM_eq_ok.mp (((halting forest).edge side sibling).eq_of_loops loops)
      simp only [isBeyond]
      rw [bind_of_ok isEdge]
      rfl

end Tree

end LinkedBTree
