import LinkedBTree.Error.Basic

namespace LinkedBTree

/-! What a tree node carries: values in an order its owner keeps, each with the
index of its entry in the values array. -/

structure Entry (α : Type) where
  value : α
  index : Nat
  deriving DecidableEq, Repr

structure EntryList (α : Type) where
  entries : List (Entry α) := []
  deriving DecidableEq, Repr

namespace EntryList

variable {α : Type}

def length (list : EntryList α) : Nat :=
  list.entries.length

def isEmpty (list : EntryList α) : Bool :=
  list.entries.isEmpty

def values (list : EntryList α) : List α :=
  list.entries.map Entry.value

def indexes (list : EntryList α) : List Nat :=
  list.entries.map Entry.index

def entry? (list : EntryList α) (position : Nat) : Option (Entry α) :=
  list.entries[position]?

def value? (list : EntryList α) (position : Nat) : Option α :=
  (list.entry? position).map Entry.value

def index? (list : EntryList α) (position : Nat) : Option Nat :=
  (list.entry? position).map Entry.index

def first? (list : EntryList α) : Option (Entry α) :=
  list.entries.head?

def last? (list : EntryList α) : Option (Entry α) :=
  list.entries.getLast?

def positionOf? (list : EntryList α) (index : Nat) : Option Nat :=
  list.entries.findIdx? fun entry => entry.index == index

def push (list : EntryList α) (entry : Entry α) : EntryList α :=
  ⟨list.entries ++ [entry]⟩

def outOfRange {β : Type} (list : EntryList α) (position : Nat) :
    Except Error β :=
  raise (.elementOutOfRange position list.length)

def get (list : EntryList α) (position : Nat) : Except Error (Entry α) :=
  match list.entry? position with
  | some entry => pure entry
  | none => list.outOfRange position

def insertIdx (list : EntryList α) (position : Nat) (entry : Entry α) :
    Except Error (EntryList α) :=
  if position ≤ list.length then
    pure ⟨list.entries.insertIdx position entry⟩
  else
    list.outOfRange position

def eraseIdx (list : EntryList α) (position : Nat) :
    Except Error (Entry α × EntryList α) := do
  let entry ← list.get position
  pure (entry, ⟨list.entries.eraseIdx position⟩)

def set (list : EntryList α) (position : Nat) (entry : Entry α) :
    Except Error (Entry α × EntryList α) := do
  let previous ← list.get position
  pure (previous, ⟨list.entries.set position entry⟩)

def setValue (list : EntryList α) (position : Nat) (value : α) :
    Except Error (α × EntryList α) := do
  let previous ← list.get position
  pure (previous.value,
    ⟨list.entries.set position { previous with value }⟩)

/-- The first `position` entries, and the rest. -/
def splitAt (list : EntryList α) (position : Nat) :
    Except Error (EntryList α × EntryList α) :=
  if position ≤ list.length then
    pure (⟨list.entries.take position⟩, ⟨list.entries.drop position⟩)
  else
    list.outOfRange position

theorem get_eq_ok_iff (list : EntryList α) (position : Nat)
    (entry : Entry α) :
    list.get position = .ok entry ↔ list.entries[position]? = some entry := by
  unfold get entry?
  cases list.entries[position]? with
  | none => exact ⟨nofun, nofun⟩
  | some found => simp [pure, Except.pure]

end EntryList

end LinkedBTree
