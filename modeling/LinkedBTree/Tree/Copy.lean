import LinkedBTree.Arena.Copy
import LinkedBTree.Tree.Basic

namespace LinkedBTree.Tree

/-! Copying a whole tree. Each stored value is copied once, wherever it first
turns up; every other occurrence shares that copy. -/

variable {α σ : Type}

abbrev Copies (α : Type) : Type :=
  Array (Option α)

def copyEntry (copy : Copier σ α) (entry : Entry α) :
    EStateM Error (Copies α × σ) (Entry α) := fun (copies, state) =>
  match copies[entry.index]? with
  | some (some value) => .ok ⟨value, entry.index⟩ (copies, state)
  | some none =>
      match copy entry.value state with
      | .ok value state =>
          .ok ⟨value, entry.index⟩
            (copies.setIfInBounds entry.index (some value), state)
      | .error error state => .error error (copies, state)
  | none => .error (.cause (.unknownIndex entry.index)) (copies, state)

def copyList (copy : Copier σ α) : Copier (Copies α × σ) (EntryList α) :=
  fun list => do pure ⟨← list.entries.mapM (copyEntry copy)⟩

def isLive (table : ValueTable α) (index : Nat) : Bool :=
  match table.get index with
  | .ok (some _) => true
  | _ => false

/-- Whether `copies` has an entry wherever `table` has one, and no more of them. -/
def agrees (table copies : ValueTable α) : Bool :=
  (table.toList.all fun (index, _) => isLive copies index) && copies.count == table.count

/-- A copy of the tree with the same indexes, in an arena of its own. -/
def copy (tree : Tree α) (copyValue : Copier σ α) :
    EStateM Error σ (Tree α) := fun state =>
  match Arena.withCapacity tree.config.nodeCapacity with
  | .error error => .error error state
  | .ok target =>
      let copies : Copies α := Array.replicate tree.values.size none
      let outcome := tree.arena.copyInto tree.root target
        (copyList copyValue) (copies, state)
      let (copies, state) := outcome.state
      match outcome.result with
      | .error error =>
          .error (.context "unable to clone tree" error) state
      | .ok root =>
          let values := ValueTable.ofEntries copies
          if agrees tree.values values then
            .ok { arena := outcome.target, root, values, config := tree.config } state
          else
            match Arena.dropping (Arena.release root) outcome.target with
            | .error error _ => .error error state
            | .ok _ _ => .error (.cause .copyDisagrees) state

end LinkedBTree.Tree
