import LinkedBTree.Walk
import LinkedBTree.Arena.Basic

namespace LinkedBTree.Arena

/-! Reading child lists by following sibling links. -/

variable {P : Type}

/-- One step along a child list, with the children seen so far. -/
def siblingStep (arena : Arena P) :
    List NodeId × Option NodeId →
      Except Error ((List NodeId × Option NodeId) ⊕ List NodeId)
  | (seen, none) => pure (.inr seen.reverse)
  | (seen, some child) => do
      pure (.inl (child :: seen, (← arena.read child).next))

def childList (arena : Arena P) (node : Node P) :
    Except Error (List NodeId) := do
  let children ← follow arena.siblingStep arena.visits ([], node.firstChild)
  if children.length = node.childCount then
    pure children
  else
    raise (.childCountMismatch children.length node.childCount)

def children (arena : Arena P) (id : NodeId) : Except Error (List NodeId) := do
  arena.childList (← arena.read id)

def hop (arena : Arena P) (link : Node P → Option NodeId) (broken : Cause) :
    (distance : Nat) → (cursor : Option NodeId) → Except Error NodeId
  | _, none => raise broken
  | 0, some id => pure id
  | distance + 1, some id => do
      arena.hop link broken distance (link (← arena.read id))

/-- The child at `position`, reached from the nearer end. -/
def childAt (arena : Arena P) (id : NodeId) (position : Nat) :
    Except Error NodeId := do
  let node ← arena.read id
  if node.childCount ≤ position then
    raise (.childOutOfRange position id node.childCount)
  else if position < node.childCount / 2 then
    arena.hop Node.next (.childListEndsEarly id) position node.firstChild
  else
    arena.hop Node.previous (.childListEndsEarly id)
      (node.childCount - 1 - position) node.lastChild

end LinkedBTree.Arena
