import LinkedBTree.Tree.Locate
import LinkedBTree.Tree.Split

namespace LinkedBTree

/-! Inserting a value. -/

inductive InsertResult (α : Type)
  | inserted (index : Nat)
  /-- An equal value is stored already; the new one is handed back. -/
  | existing (stored rejected : α)
  deriving DecidableEq, Repr

namespace Edit

variable {α : Type}

/-- Takes the entry at `element` of `leaf` out again. -/
def retract (leaf : NodeId) (element : Nat) : Edit α Unit := do
  let (_, list) ← (← (← get).list leaf).eraseIdx element
  putList leaf list

/-- Splits `leaf` if its list, now of this length, has become too long. If that
fails, the entry at `element`, which is new, goes again. -/
def splitIfFull (leaf : NodeId) (length element : Nat) : Edit α Unit := do
  if (← get).config.maxValues ≤ length then
    tryCatch (do let _ ← split leaf) fun error => do
      retract leaf element
      throw (.context s!"unable to insert into {leaf}" error)

/-- Stores `value` in `leaf` at `element` and at the end of the values array.
Gives its index there. -/
def store (leaf : NodeId) (element : Nat) (value : α) : Edit α Nat := do
  let tree ← get
  let index := tree.values.size
  let list ← tree.list leaf
  let longer ← within s!"unable to insert into {leaf}"
    (list.insertIdx element ⟨value, index⟩)
  putList leaf longer
  splitIfFull leaf longer.length element
  modify fun tree => { tree with values := tree.values.push value }
  pure index

end Edit

namespace Tree

variable {α σ : Type}

/-- Inserts `value` unless an equal one is stored. -/
def insert (value : α) (compare : Comparator σ α) :
    Session σ (Tree α) (InsertResult α) := do
  match ← Session.consult (·.locate value compare) with
  | .found node element =>
      let stored ← Session.consult
        fun tree => tree.storedValue node element "insert"
      pure (.existing stored value)
  | .gap leaf element =>
      pure (.inserted (← Session.apply (Edit.store leaf element value)))

end Tree

end LinkedBTree
