import LinkedBTree.Session
import LinkedBTree.Arena.Preorder

namespace LinkedBTree.Arena

/-! Giving subtrees up, each node after everything below it. -/

variable {P β : Type}

/-- Works on an arena and hands payloads over one after another. -/
abbrev Handover (P : Type) : Type → Type :=
  Session (List P) (Arena P)

/-- Gives `id` up and hands its payload over. -/
def surrender (id : NodeId) : Handover P Unit := do
  let node ← Session.apply (take id)
  if let some payload := node.payload then
    Session.consult fun _ => modifyThe (List P) (· ++ [payload])

/-- Gives up `id` and everything below it. -/
def release (id : NodeId) : Handover P Unit := do
  let arena := (← get).1
  if (← arena.read id).isLinked then
    raise (.stillLinked id)
  (← arena.preorder id).reverse.forM surrender

/-- Gives up everything below `id`, one child after another. -/
def clear (id : NodeId) : Handover P Unit := do
  let children ← (← get).1.children id
  Session.apply (alter id Node.childless)
  children.forM fun child => do
    Session.apply (write child Node.unlinked)
    within s!"unable to free sub node {child} of {id}" (release child)

/-- Payloads are handed over to nobody. -/
def dropping (act : Handover P β) : Action P β := fun arena =>
  match act (arena, []) with
  | .ok result (arena, _) => .ok result arena
  | .error error (arena, _) => .error error arena

/-- Releases the nodes listed, as far as that can be done. -/
def giveBack (ids : List NodeId) : Action P Unit :=
  ids.forM fun id => tryCatch (dropping (release id)) fun _ => pure ()

/-- Allocates `number` empty nodes. If the arena fills up on the way, those
taken are given back in the order they were taken. -/
def allocateMany (number : Nat) (taken : List NodeId := []) :
    Action P (List NodeId) :=
  match number with
  | 0 => pure taken.reverse
  | number + 1 => do
      let id ← tryCatch (allocate none) fun error => do
        giveBack taken.reverse
        throw error
      allocateMany number (id :: taken)

end LinkedBTree.Arena
