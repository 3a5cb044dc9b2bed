import LinkedBTree.Arena.Links
import LinkedBTree.Arena.Release

namespace LinkedBTree.Arena

/-! Copying a subtree, within an arena or into another. A copy that cannot be
finished is given up again. -/

variable {P σ : Type}

namespace Copying

/-- Gives `into` a copy of the payload of `node`. The answer pairs each child
of `node` with the parent its copy belongs under. -/
def fill (source : Arena P) (copy : Copier σ P) (node : Node P)
    (into : NodeId) : Session σ (Arena P) (List (NodeId × NodeId)) := do
  if let some payload := node.payload then
    let payload ← Session.consult fun _ => copy payload
    let _ ← Session.apply (setPayload into (some payload))
  let children ← source.childList node
  pure (children.map (·, into))

/-- A copy is linked before it is filled, so it is given up with the rest if
filling it fails. -/
def visit (source : Arena P) (copy : Copier σ P) (_ : Unit) :
    NodeId × NodeId →
      Session σ (Arena P) (Unit × List (NodeId × NodeId))
  | (template, parent) => do
      let copied ← Session.apply (allocate none)
      Session.apply (linkLast parent copied)
      pure ((), ← fill source copy (← source.read template) copied)

def fillAll (source : Arena P) (copy : Copier σ P) (node : Node P)
    (root : NodeId) : Session σ (Arena P) Unit := do
  let pending ← fill source copy node root
  exhaust (visit source copy) source.visits () pending

end Copying

/-- What an attempt to copy leaves behind. -/
structure CopyOutcome (σ P : Type) where
  /-- The root of the copy. -/
  result : Except Error NodeId
  target : Arena P
  /-- Payloads of the copies given up again. -/
  freed : List P
  state : σ

/-- Copies the subtree of `id` into `target`, which may be the source. -/
def copyInto (source : Arena P) (id : NodeId) (target : Arena P)
    (copy : Copier σ P) (state : σ) : CopyOutcome σ P :=
  let failed (error : Error) : Except Error NodeId :=
    .error (.context s!"unable to clone {id}" error)
  match source.read id with
  | .error error => ⟨.error error, target, [], state⟩
  | .ok node =>
      match allocate none target with
      | .error error target => ⟨failed error, target, [], state⟩
      | .ok root target =>
          match Copying.fillAll source copy node root (target, state) with
          | .ok _ (target, state) => ⟨.ok root, target, [], state⟩
          | .error error (target, state) =>
              match release root (target, []) with
              | .ok _ (target, freed) | .error _ (target, freed) =>
                  ⟨failed error, target, freed, state⟩

end LinkedBTree.Arena
