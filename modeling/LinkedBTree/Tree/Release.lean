import LinkedBTree.Arena.Release
import LinkedBTree.Tree.Basic

namespace LinkedBTree.Tree

/-! Giving up a whole tree. -/

variable {α : Type}

def forgetSeparators (id : NodeId) : Arena.Action (EntryList α) Unit := do
  let node ← (← get).read id
  if !node.isLeaf then
    Arena.alter id ({ · with payload := some {} })

/-- Gives up the nodes of the tree with root `root`, and hands over the lists
of its leaves. -/
def surrender (root : NodeId) : Arena.Handover (EntryList α) Unit := do
  let ids ← (← get).1.preorder root
  Session.apply (ids.forM forgetSeparators)
  within "unable to free tree nodes" (Arena.release root)

/-- Gives up every node, and hands over each value once, as its leaf held it.
The copies that branches and the values array hold are left out. -/
def release (tree : Tree α) : EStateM Error (List α) Unit := fun values =>
  match surrender tree.root (tree.arena, []) with
  | .ok _ (_, lists) => .ok () (values ++ lists.flatMap EntryList.values)
  | .error error (_, lists) =>
      .error error (values ++ lists.flatMap EntryList.values)

end LinkedBTree.Tree
