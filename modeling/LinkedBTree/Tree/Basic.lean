import LinkedBTree.EntryList.Basic
import LinkedBTree.ValueTable
import LinkedBTree.Arena.Preorder

namespace LinkedBTree

/-! An ordered collection of values. The leaves hold the values; a branch holds
separators, a copy of the last entry below each of its children but the last.
The values array holds every value once more, by order of arrival. -/

structure Tree (α : Type) where
  arena : Arena (EntryList α)
  /-- The same node for as long as the tree lives. -/
  root : NodeId
  values : ValueTable α
  config : Config

namespace Tree

variable {α : Type}

def withConfig (config : Config) : Except Error (Tree α) := do
  config.check
  let arena ← Arena.withCapacity config.nodeCapacity
  match Arena.allocate (some {}) arena with
  | .ok root arena => pure { arena, root, values := {}, config }
  | .error error _ => throw (.context "unable to create root node" error)

def ofMaxValues (maxValues : Nat) : Except Error (Tree α) :=
  withConfig { maxValues }

def listOf (id : NodeId) (node : Node (EntryList α)) :
    Except Error (EntryList α) :=
  match node.payload with
  | some list => pure list
  | none => raise (.noValueList id)

def list (tree : Tree α) (id : NodeId) : Except Error (EntryList α) := do
  listOf id (← tree.arena.read id)

def setList (tree : Tree α) (id : NodeId) (list : EntryList α) : Tree α :=
  { tree with
    arena := tree.arena.modify id ({ · with payload := some list }) }

def valueAt (tree : Tree α) (index : Nat) : Except Error (Option α) :=
  tree.values.get index

def size (tree : Tree α) : Nat :=
  tree.values.count

def isEmpty (tree : Tree α) : Bool :=
  tree.size == 0

def inOrder (tree : Tree α) : Except Error (List α) := do
  let seen ← tree.arena.foldLeaves (m := Except Error) tree.root
    (fun seen id node => do
      pure ((← listOf id node).values.reverse ++ seen)) []
  pure seen.reverse

def depthVisit (tree : Tree α) (deepest : Nat) :
    NodeId × Nat → Except Error (Nat × List (NodeId × Nat))
  | (id, level) => do
      let children ← tree.arena.children id
      pure (max deepest level, children.reverse.map (·, level + 1))

def depth (tree : Tree α) : Except Error Nat :=
  exhaust tree.depthVisit tree.arena.visits 0 [(tree.root, 1)]

structure Row (α : Type) where
  id : NodeId
  parent : Option NodeId
  list : Option (EntryList α)
  children : List NodeId
  deriving DecidableEq

/-- Every node of the tree, each before its children. -/
def dump (tree : Tree α) : Except Error (List (Row α)) := do
  let ids ← tree.arena.preorder tree.root
  ids.mapM fun id => do
    let node ← tree.arena.read id
    pure ⟨id, node.parent, node.payload, ← tree.arena.childList node⟩

end Tree

end LinkedBTree
