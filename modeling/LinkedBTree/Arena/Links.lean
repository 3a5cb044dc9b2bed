import LinkedBTree.Comparator
import LinkedBTree.Session
import LinkedBTree.Arena.Children

namespace LinkedBTree.Arena

/-! Editing child lists. A node that an operation has looked at stays live until
it is done and is changed outright; the others it comes across on the way are
looked up again for each change. -/

variable {P σ : Type}

def climbStep (arena : Arena P) (node current : NodeId) :
    Except Error (NodeId ⊕ Unit) := do
  if current = node then
    raise (.ownDescendant node)
  match (← arena.read current).parent with
  | some parent => pure (.inl parent)
  | none => pure (.inr ())

/-- Refuses if `node` is `of` or stands above it. -/
def checkNotAbove (arena : Arena P) (node of : NodeId) : Except Error Unit :=
  follow (arena.climbStep node) arena.visits of

def checkUnlinked (arena : Arena P) (id : NodeId) : Except Error (Node P) := do
  let node ← arena.read id
  if node.isLinked then
    raise (.alreadyLinked id)
  pure node

/-- Lets `next` follow on `previous` under `parent`. Without a `previous` it
comes first. -/
def linkForward (parent : NodeId) (previous next : Option NodeId) :
    Action P Unit :=
  match previous with
  | some id => write id ({ · with next })
  | none => alter parent ({ · with firstChild := next })

/-- Lets `next` point back at `previous` under `parent`. Without a `next` the
children end there. -/
def linkBackward (parent : NodeId) (previous next : Option NodeId) :
    Action P Unit :=
  match next with
  | some id => write id ({ · with previous })
  | none => alter parent ({ · with lastChild := previous })

def addToCount (parent : NodeId) : Action P Unit :=
  alter parent fun node => { node with childCount := node.childCount + 1 }

def lastChild? (arena : Arena P) (parent : NodeId) : Option NodeId :=
  (arena.node? parent).bind Node.lastChild

/-- Hangs `child` behind all children of `parent`, which is live. -/
def linkChild (parent child : NodeId) : Action P Unit := do
  let previous := (← get).lastChild? parent
  let _ ← (← get).checkUnlinked child
  alter child ({ · with parent := some parent, previous })
  linkForward parent previous (some child)
  alter parent ({ · with lastChild := some child })
  addToCount parent

def linkLast (parent child : NodeId) : Action P Unit := do
  let _ ← (← get).read parent
  linkChild parent child

def append (parent child : NodeId) : Action P Unit := do
  (← get).checkNotAbove child parent
  linkLast parent child

/-- Where an ordered insertion puts a node. -/
inductive Spot
  | before (sibling : NodeId)
  | last
  | duplicate
  deriving DecidableEq, Repr

def spotStep (arena : Arena P) (payload : P) (compare : Comparator σ P)
    (unique : Bool) :
    Option NodeId → EStateM Error σ (Option NodeId ⊕ Spot)
  | none => pure (.inr .last)
  | some sibling => do
      let node ← arena.read sibling
      let some other := node.payload
        | raise (.siblingWithoutPayload sibling)
      match ← compare payload other with
      | .lt => pure (.inr (.before sibling))
      | .eq => pure (if unique then .inr .duplicate else .inl node.next)
      | .gt => pure (.inl node.next)

def linkBefore (parent child sibling : NodeId) : Action P Unit := do
  let previous := (← (← get).read sibling).previous
  alter child
    ({ · with parent := some parent, previous, next := some sibling })
  write sibling ({ · with previous := some child })
  linkForward parent previous (some child)
  addToCount parent

/-- Inserts `child` among the children of `parent`, before the first one that
its payload compares less against. If `unique`, an equal one ends the search
and nothing is inserted. Tells whether something was. -/
def insert (parent child : NodeId) (compare : Comparator σ P)
    (unique : Bool) : Session σ (Arena P) Bool := do
  let arena := (← get).1
  arena.checkNotAbove child parent
  let parentNode ← arena.read parent
  let childNode ← arena.checkUnlinked child
  let some payload := childNode.payload | raise (.nothingToOrderBy child)
  match ← Session.consult fun arena =>
      follow (arena.spotStep payload compare unique) arena.visits
        parentNode.firstChild with
  | .duplicate => pure false
  | .last =>
      Session.apply (linkChild parent child)
      pure true
  | .before sibling =>
      Session.apply (linkBefore parent child sibling)
      pure true

/-- Puts `new` in the place of `old`, which comes out unlinked. -/
def replace (old new : NodeId) : Action P Unit := do
  if old = new then
    raise (.replacedByItself old)
  let some parent := (← (← get).read old).parent | raise (.noParent old)
  (← get).checkNotAbove new parent
  let _ ← (← get).read parent
  let oldNode ← (← get).read old
  if oldNode.parent ≠ some parent then
    raise (.movedMeanwhile old)
  let _ ← (← get).checkUnlinked new
  let { previous, next, .. } := oldNode
  alter new ({ · with parent := some parent, previous, next })
  alter old Node.unlinked
  linkForward parent previous (some new)
  linkBackward parent (some new) next

/-- Takes `child` out from under `parent`; it keeps its own subtree. -/
def remove (parent child : NodeId) : Action P Unit := do
  if parent = child then
    raise (.notAChild child parent)
  let _ ← (← get).read parent
  let childNode ← (← get).read child
  if childNode.parent ≠ some parent then
    raise (.notAChild child parent)
  let { previous, next, .. } := childNode
  alter child Node.unlinked
  linkForward parent previous next
  linkBackward parent previous next
  alter parent fun node => { node with childCount := node.childCount - 1 }

/-- Lets `id` take over the payload and the children of its only child, which
is given up. Gives the payload `id` had before. -/
def collapse (id : NodeId) : Action P (Option P) := do
  let node ← (← get).read id
  if node.childCount ≠ 1 then
    raise (.notAnOnlyParent id node.childCount)
  let some child := node.firstChild | raise (.countedButNotLinked id)
  let childNode ← (← get).read child
  let grandchildren ← (← get).childList childNode
  alter child fun node => { node.childless.unlinked with payload := none }
  grandchildren.forM (write · ({ · with parent := some id }))
  alter id fun node =>
    { node with
      firstChild := grandchildren.head?
      lastChild := grandchildren.getLast?
      childCount := grandchildren.length
      payload := childNode.payload }
  let _ ← take child
  tick .collapses
  pure node.payload

end LinkedBTree.Arena
