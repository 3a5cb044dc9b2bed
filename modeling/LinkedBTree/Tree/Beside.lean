import LinkedBTree.Tree.Basic

namespace LinkedBTree

/-! The leaf beside a leaf, and the value on its near edge. -/

inductive Side
  | left
  | right
  deriving DecidableEq, Repr

namespace Side

variable {P α : Type}

def sibling : Side → Node P → Option NodeId
  | left => Node.previous
  | right => Node.next

/-- The child nearest to someone who comes from the other side. -/
def nearest : Side → Node P → Option NodeId
  | left => Node.lastChild
  | right => Node.firstChild

def edge? : Side → EntryList α → Option (Entry α)
  | left => EntryList.last?
  | right => EntryList.first?

end Side

namespace Tree

variable {α : Type}

def turnStep (tree : Tree α) (side : Side) (current : NodeId) :
    Except Error (NodeId ⊕ Option NodeId) := do
  let node ← tree.arena.read current
  match side.sibling node, node.parent with
  | some sibling, _ => pure (.inr (some sibling))
  | none, some parent => pure (.inl parent)
  | none, none => pure (.inr none)

/-- Climbs from `leaf` to the first node with a sibling on this side, and gives
the sibling. -/
def turn (tree : Tree α) (side : Side) (leaf : NodeId) :
    Except Error (Option NodeId) :=
  follow (tree.turnStep side) tree.arena.visits leaf

def edgeStep (tree : Tree α) (side : Side) (current : NodeId) :
    Except Error (NodeId ⊕ NodeId) := do
  match side.nearest (← tree.arena.read current) with
  | some child => pure (.inl child)
  | none => pure (.inr current)

/-- Descends from `top` along the edge that faces the other side. -/
def edgeLeaf (tree : Tree α) (side : Side) (top : NodeId) :
    Except Error NodeId :=
  follow (tree.edgeStep side) tree.arena.visits top

def leafBeside (tree : Tree α) (side : Side) (leaf : NodeId) :
    Except Error (Option NodeId) := do
  match ← tree.turn side leaf with
  | some sibling => pure (some (← tree.edgeLeaf side sibling))
  | none => pure none

/-- The value just beyond the edge of `leaf`. -/
def valueBeside (tree : Tree α) (side : Side) (leaf : NodeId) :
    Except Error (Option α) := do
  match ← tree.leafBeside side leaf with
  | some neighbour =>
      pure ((side.edge? (← tree.list neighbour)).map Entry.value)
  | none => pure none

end Tree

end LinkedBTree
