import LinkedBTree.Comparator
import LinkedBTree.Tree.Basic

namespace LinkedBTree

/-! Checking a tree from the root down: order, limits, shape, and agreement
with the values array. -/

/-- What the branches above allow a subtree to hold. -/
structure Limits (α : Type) where
  /-- Everything sorts after this value. -/
  lower : Option α := none
  /-- The separator that the subtree has to end on. -/
  upper : Option (Entry α) := none

/-- What the leaves seen so far add up to. -/
structure Tally where
  /-- Which values array entries a leaf has claimed. -/
  claimed : Array Bool
  values : Nat := 0

namespace Tree

variable {α σ : Type}

def checkSorted (id : NodeId) (compare : Comparator σ α) :
    (entries : List (Entry α)) → (position : Nat) → EStateM Error σ Unit
  | first :: second :: rest, position => do
      if (← compare first.value second.value) ≠ .lt then
        raise (.outOfOrder id (position + 1))
      checkSorted id compare (second :: rest) (position + 1)
  | _, _ => pure ()

/-- A branch has to stay within its limits; a leaf has to reach the upper one
too. -/
def checkLimits (id : NodeId) (compare : Comparator σ α)
    (list : EntryList α) (limits : Limits α) (isLeaf : Bool) :
    EStateM Error σ Unit := do
  if let (some lower, some first) := (limits.lower, list.first?) then
    if (← compare first.value lower) ≠ .gt then
      raise (.belowRange id)
  if let (some upper, some last) := (limits.upper, list.last?) then
    match ← compare last.value upper.value with
    | .gt => raise (.aboveRange id)
    | .lt => if isLeaf then raise (.shortOfSeparator id)
    | .eq => pure ()

/-- Checks that a leaf entry is its own live values array entry, and claims
that one. -/
def claim (tree : Tree α) (id : NodeId) (compare : Comparator σ α)
    (tally : Tally) (entry : Entry α) : EStateM Error σ Tally := do
  let some stored := tree.values.value? entry.index
    | raise (.deadEntry id entry.index)
  if (← compare entry.value stored) ≠ .eq then
    raise (.entryDiffers id entry.index)
  if tally.claimed[entry.index]? = some true then
    raise (.entryClaimedTwice entry.index)
  pure
    { claimed := tally.claimed.setIfInBounds entry.index true
      values := tally.values + 1 }

def checkLeaf (tree : Tree α) (id : NodeId) (compare : Comparator σ α)
    (tally : Tally) (list : EntryList α) (limits : Limits α) :
    EStateM Error σ Tally := do
  if list.isEmpty ∧ id ≠ tree.root then
    raise (.emptyLeaf id)
  checkLimits id compare list limits true
  if let some upper := limits.upper then
    if list.last?.map Entry.index ≠ some upper.index then
      raise (.otherEntryThanSeparator id)
  list.entries.foldlM (tree.claim id compare) tally

/-- The limits of each child, given the separators that part them. -/
def childLimits (limits : Limits α) :
    List NodeId → List (Entry α) → List (NodeId × Limits α)
  | [], _ => []
  | child :: children, [] =>
      (child, limits) :: childLimits limits children []
  | child :: children, separator :: separators =>
      (child, { limits with upper := some separator }) ::
        childLimits { limits with lower := some separator.value }
          children separators

def checkParent (tree : Tree α) (parent child : NodeId) :
    Except Error Unit := do
  if (← tree.arena.read child).parent ≠ some parent then
    raise (.strayChild child parent)

def checkBranch (tree : Tree α) (id : NodeId) (compare : Comparator σ α)
    (node : Node (EntryList α)) (list : EntryList α) (limits : Limits α) :
    EStateM Error σ (List (NodeId × Limits α)) := do
  let children ← tree.arena.childList node
  if children.length ≠ list.length + 1 then
    raise (.separatorMismatch id children.length list.length)
  checkLimits id compare list limits false
  liftM (children.reverse.forM (tree.checkParent id))
  pure (childLimits limits children list.entries)

def validateVisit (tree : Tree α) (compare : Comparator σ α)
    (tally : Tally) :
    NodeId × Limits α →
      EStateM Error σ (Tally × List (NodeId × Limits α))
  | (id, limits) => do
      let node ← tree.arena.read id
      let list ← listOf id node
      checkSorted id compare list.entries 0
      if node.isLeaf then
        pure (← tree.checkLeaf id compare tally list limits, [])
      else
        pure (tally, ← tree.checkBranch id compare node list limits)

def validate (tree : Tree α) (compare : Comparator σ α) :
    EStateM Error σ Unit := do
  let tally ← exhaust (tree.validateVisit compare) tree.arena.visits
    { claimed := Array.replicate tree.values.size false }
    [(tree.root, {})]
  if tally.values ≠ tree.size then
    raise (.valueCountMismatch tally.values tree.size)

end Tree

end LinkedBTree
