import LinkedBTree.Error.Basic

namespace LinkedBTree

/-! Comparison as the caller supplies it: it may fail, and it may keep a state
of its own. -/

/-- Compares the value sought or inserted with one already stored. -/
abbrev Comparator (σ α : Type) : Type :=
  α → α → EStateM Error σ Ordering

/-- Copies a payload; may fail, and may keep a state. -/
abbrev Copier (σ α : Type) : Type :=
  α → EStateM Error σ α

/-- The calls made so far, oldest first. -/
abbrev CallLog (α : Type) : Type :=
  Array (α × α)

namespace Comparator

variable {α : Type}

/-- Writes down each call before answering it. The answer may depend on how
many calls there have been, the current one included. -/
def logged (answer : Nat → α → α → Except Error Ordering) :
    Comparator (CallLog α) α := fun left right log =>
  let log := log.push (left, right)
  match answer log.size left right with
  | .ok ordering => .ok ordering log
  | .error error => .error error log

end Comparator

end LinkedBTree
