import LinkedBTree.Arena.Links
import LinkedBTree.Arena.Release

namespace LinkedBTree.Arena

/-! What the calls come to while the links are sound: some checks, and then a
single edit, which nothing can stop. -/

variable {P σ β : Type}

def joinForward (arena : Arena P) (parent : NodeId)
    (previous next : Option NodeId) : Arena P :=
  match previous with
  | some id => arena.modify id ({ · with next })
  | none => arena.modify parent ({ · with firstChild := next })

def joinBackward (arena : Arena P) (parent : NodeId)
    (previous next : Option NodeId) : Arena P :=
  match next with
  | some id => arena.modify id ({ · with previous })
  | none => arena.modify parent ({ · with lastChild := previous })

/-- Makes `previous` and `next` neighbours under `parent`. An absent one stands
for the end of the child list. -/
def join (arena : Arena P) (parent : NodeId) (previous next : Option NodeId) :
    Arena P :=
  (arena.joinForward parent previous next).joinBackward parent previous next

def place (arena : Arena P) (parent child : NodeId)
    (previous next : Option NodeId) : Arena P :=
  ((arena.join parent previous (some child)).join parent (some child) next).modify
    child ({ · with parent := some parent })

def attach (arena : Arena P) (parent child : NodeId)
    (previous next : Option NodeId) : Arena P :=
  (arena.place parent child previous next).modify parent fun node =>
    { node with childCount := node.childCount + 1 }

def detach (arena : Arena P) (parent child : NodeId)
    (previous next : Option NodeId) : Arena P :=
  ((arena.modify child Node.unlinked).join parent previous next).modify parent
    fun node => { node with childCount := node.childCount - 1 }

def attachLast (arena : Arena P) (parent child : NodeId) : Arena P :=
  arena.attach parent child (arena.lastChild? parent) none

def adopt (arena : Arena P) (id : NodeId) (children : List NodeId) :
    Arena P :=
  (children.foldl
    (fun arena child => arena.modify child ({ · with parent := some id }))
    arena).modify id fun node =>
      { node with
        firstChild := children.head?
        lastChild := children.getLast?
        childCount := children.length }

def discardAll (arena : Arena P) (ids : List NodeId) : List P × Arena P :=
  (ids.filterMap fun id => (arena.node? id).bind Node.payload,
    ids.foldl discard arena)

def appended (arena : Arena P) (parent child : NodeId) :
    Except Error (Unit × Arena P) := do
  arena.checkNotAbove child parent
  let _ ← arena.read parent
  let _ ← arena.checkUnlinked child
  pure ((), arena.attachLast parent child)

def inserted (arena : Arena P) (parent child : NodeId)
    (compare : Comparator σ P) (unique : Bool) :
    EStateM Error σ (Bool × Arena P) := do
  arena.checkNotAbove child parent
  let parentNode ← arena.read parent
  let childNode ← arena.checkUnlinked child
  let some payload := childNode.payload | raise (.nothingToOrderBy child)
  match ← follow (arena.spotStep payload compare unique) arena.visits
    parentNode.firstChild with
  | .duplicate => pure (false, arena)
  | .last => pure (true, arena.attachLast parent child)
  | .before sibling =>
      let node ← arena.read sibling
      pure (true, arena.attach parent child node.previous (some sibling))

def replaced (arena : Arena P) (old new : NodeId) :
    Except Error (Unit × Arena P) := do
  if old = new then
    raise (.replacedByItself old)
  let oldNode ← arena.read old
  let some parent := oldNode.parent | raise (.noParent old)
  arena.checkNotAbove new parent
  let _ ← arena.checkUnlinked new
  pure ((), (arena.modify old Node.unlinked).place parent new
    oldNode.previous oldNode.next)

def removed (arena : Arena P) (parent child : NodeId) :
    Except Error (Unit × Arena P) := do
  if parent = child then
    raise (.notAChild child parent)
  let _ ← arena.read parent
  let childNode ← arena.read child
  if childNode.parent ≠ some parent then
    raise (.notAChild child parent)
  pure ((), arena.detach parent child childNode.previous childNode.next)

def collapsed (arena : Arena P) (id : NodeId) :
    Except Error (Option P × Arena P) := do
  let node ← arena.read id
  if node.childCount ≠ 1 then
    raise (.notAnOnlyParent id node.childCount)
  let some child := node.firstChild | raise (.countedButNotLinked id)
  let childNode ← arena.read child
  let grandchildren ← arena.childList childNode
  let merged := (arena.adopt id grandchildren).modify id
    ({ · with payload := childNode.payload })
  pure (node.payload, (merged.discard child).count .collapses)

def released (arena : Arena P) (id : NodeId) :
    Except Error (List P × Arena P) := do
  if (← arena.read id).isLinked then
    raise (.stillLinked id)
  pure (arena.discardAll (← arena.preorder id).reverse)

/-- What a call has done that came to `outcome`. -/
def enact (arena : Arena P) :
    Except Error (β × Arena P) → EStateM.Result Error (Arena P) β
  | .ok (result, after) => .ok result after
  | .error error => .error error arena

def enactBeside (arena : Arena P) :
    EStateM.Result Error σ (β × Arena P) →
      EStateM.Result Error (Arena P × σ) β
  | .ok (result, after) state => .ok result (after, state)
  | .error error state => .error error (arena, state)

def enactHanding (arena : Arena P) (payloads : List P) :
    Except Error (List P × Arena P) →
      EStateM.Result Error (Arena P × List P) Unit
  | .ok (freed, after) => .ok () (after, payloads ++ freed)
  | .error error => .error error (arena, payloads)

section

variable {arena after : Arena P} {result : β} {final : σ}

theorem enact_eq_ok {outcome : Except Error (β × Arena P)} :
    arena.enact outcome = .ok result after ↔ outcome = .ok (result, after) := by
  cases outcome with
  | error error => exact ⟨nofun, nofun⟩
  | ok found => simp [enact, Prod.ext_iff]

theorem enactBeside_eq_ok {outcome : EStateM.Result Error σ (β × Arena P)} :
    arena.enactBeside outcome = .ok result (after, final) ↔
      outcome = .ok (result, after) final := by
  cases outcome with
  | error error state => exact ⟨nofun, nofun⟩
  | ok found state => simp [enactBeside, Prod.ext_iff, and_assoc]

end

end LinkedBTree.Arena
