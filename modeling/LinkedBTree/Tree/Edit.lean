import LinkedBTree.Session
import LinkedBTree.Tree.Basic

namespace LinkedBTree

/-! Changing a tree. An edit that fails part way keeps what it changed so
far. -/

/-- Changes a tree, and looks at nothing else. -/
abbrev Edit (α : Type) : Type → Type :=
  EStateM Error (Tree α)

namespace Edit

variable {α β : Type}

def inArena (change : Arena.Action (EntryList α) β) : Edit α β :=
  fun tree =>
    match change tree.arena with
    | .ok answer arena => .ok answer { tree with arena }
    | .error error arena => .error error { tree with arena }

def putList (id : NodeId) (list : EntryList α) : Edit α Unit :=
  modify (·.setList id list)

/-- Overwrites an entry of the values array, and gives what was there. -/
def putValue (index : Nat) (value : Option α) : Edit α (Option α) := do
  let (previous, values) ← (← get).values.set index value
  modify ({ · with values })
  pure previous

def renewStep (index : Nat) (entry : Entry α) :
    Option NodeId → Edit α (Option NodeId ⊕ Unit)
  | none => pure (.inr ())
  | some id => do
      let node ← (← get).arena.read id
      let list ← Tree.listOf id node
      if let some position := list.positionOf? index then
        let (_, list) ← list.set position entry
        putList id list
      pure (.inl node.parent)

/-- From `start` up to the top, lets `entry` take the place of every separator
stored under `index`. -/
def renewSeparators (start : Option NodeId) (index : Nat)
    (entry : Entry α) : Edit α Unit := do
  follow (renewStep index entry) (← get).arena.visits start

end Edit

end LinkedBTree
