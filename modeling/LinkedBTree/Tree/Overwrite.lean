import LinkedBTree.EntryList.Cursor
import LinkedBTree.Tree.Locate
import LinkedBTree.Tree.Beside
import LinkedBTree.Tree.Edit

namespace LinkedBTree

/-! Replacing a value by one that fits between the same neighbours. -/

namespace Tree

variable {α σ : Type}

/-- The values just before and just after an entry of a leaf. -/
def neighbours (tree : Tree α) (leaf : NodeId) (element : Nat) :
    Except Error (Option α × Option α) := do
  let list ← tree.list leaf
  let current ← list.cursor element
  let before ← match current.previous? with
    | some previous => pure (some previous.entry.value)
    | none => tree.valueBeside .left leaf
  let after ← match current.next? with
    | some next => pure (some next.entry.value)
    | none => tree.valueBeside .right leaf
  pure (before, after)

/-- Refuses `value` unless it sorts strictly between the neighbours. -/
def checkFits (tree : Tree α) (leaf : NodeId) (element : Nat) (value : α)
    (compare : Comparator σ α) : EStateM Error σ Unit := do
  let (before, after) ← tree.neighbours leaf element
  if let some before := before then
    if (← compare value before) ≠ .gt then
      raise .replacementTooLow
  if let some after := after then
    if (← compare value after) ≠ .lt then
      raise .replacementTooHigh

end Tree

namespace Edit

variable {α : Type}

/-- Overwrites the value at `element` of `leaf` and every copy of it, and gives
the one that was there. -/
def overwrite (leaf : NodeId) (element : Nat) (value : α) : Edit α α := do
  let list ← (← get).list leaf
  let current ← list.get element
  let (replaced, list) ← list.setValue element value
  putList leaf list
  let _ ← putValue current.index (some value)
  if element + 1 = list.length then
    let node ← (← get).arena.read leaf
    within "unable to update separators after replace"
      (renewSeparators node.parent current.index ⟨value, current.index⟩)
  pure replaced

end Edit

namespace Tree

variable {α σ : Type}

/-- Lets `new` take the place of the stored value equal to `old`, and gives
that value. -/
def replace (old new : α) (compare : Comparator σ α) : Session σ (Tree α) α := do
  match ← Session.consult (·.locateInLeaf old compare) with
  | some (leaf, element) =>
      Session.consult (·.checkFits leaf element new compare)
      Session.apply (Edit.overwrite leaf element new)
  | none => raise .nothingToReplace

end Tree

end LinkedBTree
