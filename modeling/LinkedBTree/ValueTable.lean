import LinkedBTree.Error.Basic

namespace LinkedBTree

/-! Values by the order of their arrival. An entry is never moved: removing its
value leaves a hole, so an index stays good. -/

structure ValueTable (α : Type) where
  entries : Array (Option α) := #[]
  /-- How many entries are no holes. -/
  count : Nat := 0
  count_eq : count = entries.countP Option.isSome := by rfl
  deriving DecidableEq, Repr

namespace ValueTable

variable {α : Type}

def size (table : ValueTable α) : Nat :=
  table.entries.size

def isEmpty (table : ValueTable α) : Bool :=
  table.entries.isEmpty

/-- The value at `index`; `none` for a hole and beyond the end. -/
def value? (table : ValueTable α) (index : Nat) : Option α :=
  table.entries[index]?.join

/-- Entries that are no holes, with their indexes. -/
def toList (table : ValueTable α) : List (Nat × α) :=
  table.entries.toList.zipIdx.filterMap fun (entry, index) =>
    entry.map fun value => (index, value)

def ofEntries (entries : Array (Option α)) : ValueTable α where
  entries
  count := entries.countP Option.isSome
  count_eq := rfl

def push (table : ValueTable α) (value : α) : ValueTable α where
  entries := table.entries.push (some value)
  count := table.count + 1
  count_eq := by simp [table.count_eq]

def get (table : ValueTable α) (index : Nat) : Except Error (Option α) :=
  match table.entries[index]? with
  | some entry => pure entry
  | none => raise (.indexOutOfRange index table.size)

def recount (count : Nat) (previous value : Option α) : Nat :=
  match previous, value with
  | none, some _ => count + 1
  | some _, none => count - 1
  | _, _ => count

theorem recount_eq {entries : Array (Option α)} {index : Nat}
    {previous : Option α} (found : entries[index]? = some previous)
    (value : Option α) :
    recount (entries.countP Option.isSome) previous value =
      (entries.setIfInBounds index value).countP Option.isSome := by
  obtain ⟨inRange, isEntry⟩ := Array.getElem?_eq_some_iff.mp found
  have counted : previous.isSome → 0 < entries.countP Option.isSome := fun isLive =>
    Array.countP_pos_iff.mpr ⟨previous, isEntry ▸ Array.getElem_mem inRange, isLive⟩
  rw [Array.setIfInBounds_def, dif_pos inRange, Array.countP_set, isEntry]
  unfold recount
  cases previous <;> cases value <;> simp
  have := counted rfl
  omega

/-- Overwrites the entry at `index`, and gives what was there. -/
def set (table : ValueTable α) (index : Nat) (value : Option α) :
    Except Error (Option α × ValueTable α) :=
  match found : table.entries[index]? with
  | some previous =>
      pure (previous,
        { entries := table.entries.setIfInBounds index value
          count := recount table.count previous value
          count_eq := by rw [table.count_eq, recount_eq found] })
  | none => raise (.indexOutOfRange index table.size)

theorem get_eq_ok_iff (table : ValueTable α) (index : Nat)
    (entry : Option α) :
    table.get index = .ok entry ↔ table.entries[index]? = some entry := by
  unfold get
  cases table.entries[index]? with
  | none => exact ⟨nofun, nofun⟩
  | some found => simp [pure, Except.pure]

@[simp] theorem size_push (table : ValueTable α) (value : α) :
    (table.push value).size = table.size + 1 := by
  simp [push, size]

end ValueTable

end LinkedBTree
