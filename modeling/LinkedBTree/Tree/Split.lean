import LinkedBTree.Arena.Links
import LinkedBTree.Arena.Release
import LinkedBTree.Tree.Edit

namespace LinkedBTree.Edit

/-! A leaf that has grown too long becomes a branch over fresh leaves. -/

variable {α : Type}

/-- Cuts a chunk off `rest` for each of `leaves`, and adds the last entry of
every chunk but the final one to `separators`. -/
def portion (chunkSize : Nat) :
    (leaves : List NodeId) → (rest separators : EntryList α) →
      Arena.Action (EntryList α) (EntryList α)
  | [], _, separators => pure separators
  | leaf :: leaves, rest, separators => do
      let (chunk, tail) ← rest.splitAt (min chunkSize rest.length)
      let _ ← Arena.setPayload leaf (some chunk)
      portion chunkSize leaves tail
        (match leaves, chunk.last? with
          | _ :: _, some last => separators.push last
          | _, _ => separators)

/-- Shares the list of `id` out among `leaves`, and hangs them under `id`, which
keeps the entries that part them. -/
def spread (id : NodeId) (chunkSize : Nat) (leaves : List NodeId)
    (list : EntryList α) : Arena.Action (EntryList α) Unit := do
  Arena.alter id ({ · with payload := some {} })
  let separators ← portion chunkSize leaves list {}
  Arena.alter id ({ · with payload := some separators })
  within s!"unable to link split leaves under {id}"
    (leaves.forM (Arena.linkChild id))
  Arena.tick .splits

/-- Cuts the list of leaf `id` into chunks and gives each one a leaf of its
own under `id`. Tells whether there was more than one chunk. -/
def split (id : NodeId) : Edit α Bool := do
  let tree ← get
  let node ← tree.arena.read id
  if !node.isLeaf then
    raise (.notALeaf id node.childCount)
  let list ← Tree.listOf id node
  let chunkSize := tree.config.chunkSize
  let chunks := (list.length + chunkSize - 1) / chunkSize
  if chunks < 2 then
    pure false
  else
    let leaves ← within s!"unable to split {id}"
      (inArena (Arena.allocateMany chunks))
    inArena (spread id chunkSize leaves list)
    pure true

end LinkedBTree.Edit
