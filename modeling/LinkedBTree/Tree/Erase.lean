import LinkedBTree.Arena.Links
import LinkedBTree.Arena.Release
import LinkedBTree.Tree.Locate
import LinkedBTree.Tree.Edit

namespace LinkedBTree

/-! Removing a value. A leaf left empty goes, together with the separator next
to it, and a branch left with one child takes that child's place. -/

namespace Edit

variable {α : Type}

/-- Takes the empty `leaf` out of its branch with the separator bounding it,
and gives the branch. The last child has no separator of its own: the one
before it goes, and is given too, as the branch now ends there. -/
def dropLeaf (leaf : NodeId) : Edit α (NodeId × Option (Entry α)) := do
  let tree ← get
  let some parent := (← tree.arena.read leaf).parent | raise (.noParent leaf)
  let siblings ← tree.arena.children parent
  let some position := siblings.idxOf? leaf | raise (.notListed leaf parent)
  let isLast := position + 1 = siblings.length
  let list ← tree.list parent
  if isLast ∧ position = 0 then
    raise (.singleSubNode parent)
  let (separator, list) ← list.eraseIdx
    (if isLast then position - 1 else position)
  putList parent list
  inArena (Arena.remove parent leaf)
  inArena (Arena.dropping (Arena.release leaf))
  pure (parent, if isLast then some separator else none)

/-- Follows up on `leaf` having lost its only entry, stored under `index`. -/
def settleEmptied (leaf : NodeId) (index : Nat) : Edit α Unit := do
  let (parent, newLast) ←
    within "unable to unlink emptied leaf" (dropLeaf leaf)
  if let some entry := newLast then
    within "unable to update separators after remove"
      (renewSeparators (some parent) index entry)
  if (← (← get).arena.read parent).childCount = 1 then
    let _ ← within s!"unable to collapse {parent}"
      (inArena (Arena.collapse parent))

/-- Follows up on `leaf` having lost its last entry, stored under `index`, and
ending on `entry` now. -/
def settleShortened (leaf : NodeId) (index : Nat) (entry : Entry α) :
    Edit α Unit := do
  let node ← (← get).arena.read leaf
  within "unable to update separators after remove"
    (renewSeparators node.parent index entry)

/-- Removes the entry at `element` of `leaf`, and gives its value. -/
def erase (leaf : NodeId) (element : Nat) : Edit α α := do
  let tree ← get
  let (removed, list) ← (← tree.list leaf).eraseIdx element
  putList leaf list
  let previous ← putValue removed.index none
  if previous.isNone then
    raise (.storedEntryEmpty removed.index)
  if list.isEmpty ∧ leaf ≠ tree.root then
    settleEmptied leaf removed.index
  else if element = list.length then
    if let some entry := list.last? then
      settleShortened leaf removed.index entry
  pure removed.value

end Edit

namespace Tree

variable {α σ : Type}

/-- Removes the stored value equal to `value`, if there is one. -/
def remove (value : α) (compare : Comparator σ α) :
    Session σ (Tree α) (Option α) := do
  match ← Session.consult (·.locateInLeaf value compare) with
  | some (leaf, element) =>
      pure (some (← Session.apply (Edit.erase leaf element)))
  | none => pure none

end Tree

end LinkedBTree
