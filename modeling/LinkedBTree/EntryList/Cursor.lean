import LinkedBTree.EntryList.Basic

namespace LinkedBTree.EntryList

/-! Moving through an entry list one element at a time. -/

variable {α : Type}

structure Cursor (list : EntryList α) where
  position : Nat
  inRange : position < list.length

namespace Cursor

variable {list : EntryList α}

def entry (cursor : Cursor list) : Entry α :=
  list.entries.get ⟨cursor.position, cursor.inRange⟩

def next? (cursor : Cursor list) : Option (Cursor list) :=
  if following : cursor.position + 1 < list.length then
    some ⟨cursor.position + 1, following⟩
  else
    none

def previous? : Cursor list → Option (Cursor list)
  | ⟨0, _⟩ => none
  | ⟨position + 1, inRange⟩ => some ⟨position, Nat.lt_of_succ_lt inRange⟩

def isLast (cursor : Cursor list) : Bool :=
  cursor.position + 1 == list.length

/-- This element and all that follow it. -/
def onward (cursor : Cursor list) : List (Cursor list) :=
  cursor :: if following : cursor.position + 1 < list.length then
    onward ⟨cursor.position + 1, following⟩
  else
    []
termination_by list.length - cursor.position

/-- This element and all that precede it, nearest first. -/
def backward : Cursor list → List (Cursor list)
  | ⟨0, inRange⟩ => [⟨0, inRange⟩]
  | ⟨position + 1, inRange⟩ =>
      ⟨position + 1, inRange⟩ ::
        backward ⟨position, Nat.lt_of_succ_lt inRange⟩
termination_by cursor => cursor.position

end Cursor

def cursor (list : EntryList α) (position : Nat) :
    Except Error (Cursor list) :=
  if inRange : position < list.length then
    pure ⟨position, inRange⟩
  else
    list.outOfRange position

def firstCursor? (list : EntryList α) : Option (Cursor list) :=
  if inRange : 0 < list.length then some ⟨0, inRange⟩ else none

def lastCursor? (list : EntryList α) : Option (Cursor list) :=
  if nonempty : 0 < list.length then
    some ⟨list.length - 1, Nat.sub_lt nonempty Nat.one_pos⟩
  else
    none

end LinkedBTree.EntryList
