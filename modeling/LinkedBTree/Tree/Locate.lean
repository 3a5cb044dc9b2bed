import LinkedBTree.Comparator
import LinkedBTree.Tree.Basic

namespace LinkedBTree

/-! Finding the place of a value: one node at a time, from the root down. -/

/-- How a value compares with the list of one node. -/
inductive Match
  | exact (element : Nat)
  /-- `element` is the first one greater than the value, and `child` the child
  before it; a leaf has no child to go on to. -/
  | descend (child : Option NodeId) (element : Nat)
  deriving DecidableEq, Repr

/-- Where the descent from the root ends. -/
inductive Location
  /-- Some node, a branch perhaps, holds the value. -/
  | found (node : NodeId) (element : Nat)
  /-- The value is absent and belongs into this leaf. -/
  | gap (leaf : NodeId) (element : Nat)
  deriving DecidableEq, Repr

def Location.node : Location → NodeId
  | found node _ | gap node _ => node

def Location.element : Location → Nat
  | found _ element | gap _ element => element

def Location.isFound : Location → Bool
  | found _ _ => true
  | gap _ _ => false

namespace Tree

variable {α σ : Type}

def nextSibling (tree : Tree α) :
    Option NodeId → Except Error (Option NodeId)
  | none => pure none
  | some id => do pure (← tree.arena.read id).next

/-- Compares `value` with `entries`, the rest of the list of `id` from
`position` on; `child` stands before them. -/
def matchEntries (tree : Tree α) (id : NodeId) (value : α)
    (compare : Comparator σ α) :
    (entries : List (Entry α)) → (position : Nat) →
      (child : Option NodeId) → EStateM Error σ Match
  | [], position, child => pure (.descend child position)
  | entry :: rest, position, child => do
      match ← within s!"unable to compare against element {position} of {id}"
        (compare value entry.value) with
      | .eq => pure (.exact position)
      | .lt => pure (.descend child position)
      | .gt =>
          tree.matchEntries id value compare rest (position + 1)
            (← tree.nextSibling child)

def matchIn (tree : Tree α) (id : NodeId) (node : Node (EntryList α))
    (value : α) (compare : Comparator σ α) : EStateM Error σ Match := do
  let list ← listOf id node
  if node.childCount ≠ 0 ∧ node.childCount ≠ list.length + 1 then
    raise (.separatorMismatch id node.childCount list.length)
  tree.matchEntries id value compare list.entries 0 node.firstChild

/-- Compares `value` with the list of one node. Child `i` precedes separator
`i`. -/
def matchNode (tree : Tree α) (id : NodeId) (value : α)
    (compare : Comparator σ α) : EStateM Error σ Match := do
  tree.matchIn id (← tree.arena.read id) value compare

def locateStep (tree : Tree α) (value : α) (compare : Comparator σ α)
    (current : NodeId) : EStateM Error σ (NodeId ⊕ Location) := do
  match ← tree.matchNode current value compare with
  | .exact element => pure (.inr (.found current element))
  | .descend (some child) _ => pure (.inl child)
  | .descend none element => pure (.inr (.gap current element))

/-- Descends to the first node that holds `value`, or to the leaf it belongs
into. -/
def locate (tree : Tree α) (value : α) (compare : Comparator σ α) :
    EStateM Error σ Location :=
  follow (tree.locateStep value compare) tree.arena.visits tree.root

def leafStep (tree : Tree α) (value : α) (compare : Comparator σ α)
    (current : NodeId) :
    EStateM Error σ (NodeId ⊕ Option (NodeId × Nat)) := do
  let node ← tree.arena.read current
  match ← tree.matchIn current node value compare with
  | .exact element =>
      if node.isLeaf then
        pure (.inr (some (current, element)))
      else
        let child ←
          within s!"unable to follow separator {element} of {current}"
            (tree.arena.childAt current element)
        pure (.inl child)
  | .descend (some child) _ => pure (.inl child)
  | .descend none _ => pure (.inr none)

/-- Descends to the leaf that holds `value`, past any separator equal to it. -/
def locateInLeaf (tree : Tree α) (value : α) (compare : Comparator σ α) :
    EStateM Error σ (Option (NodeId × Nat)) :=
  follow (tree.leafStep value compare) tree.arena.visits tree.root

/-- The value at a place that the descent found during some activity. -/
def storedValue (tree : Tree α) (id : NodeId) (element : Nat)
    (activity : String) : Except Error α := do
  match (← tree.list id).value? element with
  | some value => pure value
  | none => raise (.elementLost id element activity)

def get? (tree : Tree α) (value : α) (compare : Comparator σ α) :
    EStateM Error σ (Option α) := do
  match ← tree.locate value compare with
  | .found node element =>
      pure (some (← tree.storedValue node element "lookup"))
  | .gap _ _ => pure none

def contains (tree : Tree α) (value : α) (compare : Comparator σ α) :
    EStateM Error σ Bool := do
  pure (← tree.locate value compare).isFound

end Tree

end LinkedBTree
