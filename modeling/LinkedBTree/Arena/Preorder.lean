import LinkedBTree.Arena.Children

namespace LinkedBTree.Arena

/-! Walks over whole subtrees. They keep a list of what is pending, so depth
costs no call stack. -/

variable {P : Type}

def preorderVisit (arena : Arena P) (seen : List NodeId) (current : NodeId) :
    Except Error (List NodeId × List NodeId) := do
  pure (current :: seen, ← arena.children current)

/-- All nodes from `id` down, each before its children. -/
def preorder (arena : Arena P) (id : NodeId) : Except Error (List NodeId) := do
  let seen ← exhaust arena.preorderVisit arena.visits [] [id]
  pure seen.reverse

section

variable {m : Type → Type} [Monad m] [MonadExceptOf Error m]
  [MonadLiftT (Except Error) m] {γ : Type}

def leafVisit (arena : Arena P) (combine : γ → NodeId → Node P → m γ)
    (result : γ) (current : NodeId) : m (γ × List NodeId) := do
  let node ← liftM (arena.read current)
  if node.isLeaf then
    pure (← combine result current node, [])
  else
    pure (result, ← liftM (arena.childList node))

def foldLeaves (arena : Arena P) (id : NodeId)
    (combine : γ → NodeId → Node P → m γ) (initial : γ) : m γ :=
  exhaust (arena.leafVisit combine) arena.visits initial [id]

end

def forLeaves {σ : Type} (arena : Arena P) (id : NodeId)
    (act : NodeId → Node P → EStateM Error σ Unit) : EStateM Error σ Unit :=
  arena.foldLeaves id (fun _ => act) ()

def leaves (arena : Arena P) (id : NodeId) : Except Error (List NodeId) := do
  let seen ← arena.foldLeaves (m := Except Error) id
    (fun seen leaf _ => pure (leaf :: seen)) []
  pure seen.reverse

/-- Payloads of the leaves; a leaf without one is passed over. -/
def leafPayloads (arena : Arena P) (id : NodeId) : Except Error (List P) := do
  let seen ← arena.foldLeaves (m := Except Error) id
    (fun seen _ node => pure (node.payload.toList ++ seen)) []
  pure seen.reverse

end LinkedBTree.Arena
