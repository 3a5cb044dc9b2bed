import LinkedBTree.ValueTable

namespace LinkedBTree

/-! The values array gives every index out once, and what it holds there tells
what became of the value since. -/

variable {α : Type}

/-- What a call does to the values array. -/
inductive Change (α : Type)
  | stored (index : Nat) (value : α)
  | overwritten (index : Nat) (value : α)
  | erased (index : Nat)
  | idle
  deriving DecidableEq, Repr

namespace Change

def index? : Change α → Option Nat
  | stored index _ | overwritten index _ | erased index => some index
  | idle => none

def issued? : Change α → Option Nat
  | stored index _ => some index
  | overwritten _ _ | erased _ | idle => none

def isErasure : Change α → Bool
  | erased _ => true
  | stored _ _ | overwritten _ _ | idle => false

end Change

/-- What happens to the entry at `index`, in turn. -/
def fate (changes : List (Change α)) (index : Nat) : List (Change α) :=
  changes.filter (·.index? = some index)

def life (index : Nat) (value : α) (news : List α) : List (Change α) :=
  .stored index value :: news.map (.overwritten index)

section

variable {changes : List (Change α)} {change : Change α} {index : Nat}

theorem fate_concat : fate (changes ++ [change]) index =
    fate changes index ++ if change.index? = some index then [change] else [] := by
  simp [fate, List.filter_cons]

theorem fate_concat_of_ne (elsewhere : change.index? ≠ some index) :
    fate (changes ++ [change]) index = fate changes index := by
  rw [fate_concat, if_neg elsewhere, List.append_nil]

theorem fate_concat_self (here : change.index? = some index) :
    fate (changes ++ [change]) index = fate changes index ++ [change] := by
  rw [fate_concat, if_pos here]

theorem issued_concat (silent : change.issued? = none) :
    (changes ++ [change]).filterMap Change.issued? =
      changes.filterMap Change.issued? := by
  simp [silent]

theorem life_concat (value new : α) (news : List α) :
    life index value news ++ [.overwritten index new] =
      life index value (news ++ [new]) := by
  simp [life]

end

namespace ValueTable

variable {table after : ValueTable α} {changes : List (Change α)}
  {change : Change α} {index : Nat}

theorem get_of_value? {value : α} (known : table.value? index = some value) :
    table.get index = .ok (some value) := by
  rw [get_eq_ok_iff]
  simpa [value?, Option.join_eq_some_iff] using known

theorem get_of_size_le (beyond : table.size ≤ index) :
    table.get index = .error (.cause (.indexOutOfRange index table.size)) := by
  unfold get
  rw [Array.getElem?_eq_none beyond]
  rfl

theorem lt_size_of_get {entry : Option α} (held : table.get index = .ok entry) :
    index < table.size := by
  apply Nat.lt_of_not_le
  intro beyond
  rw [get_of_size_le beyond] at held
  cases held

theorem get_push_self (value : α) :
    (table.push value).get table.size = .ok (some value) := by
  rw [get_eq_ok_iff]
  simp [push, size]

theorem get_push (value : α) (old : index < table.size) :
    (table.push value).get index = table.get index := by
  unfold get push
  rw [Array.getElem?_push_lt old, Array.getElem?_eq_getElem old]

def put (table : ValueTable α) (index : Nat) (entry : Option α) : ValueTable α :=
  .ofEntries (table.entries.setIfInBounds index entry)

theorem eq_of_entries {other : ValueTable α} (same : table.entries = other.entries) :
    table = other := by
  obtain ⟨entries, _, rfl⟩ := table
  obtain ⟨others, _, rfl⟩ := other
  cases same
  rfl

theorem set_eq {entry : Option α} (held : table.get index = .ok entry)
    (new : Option α) : table.set index new = .ok (entry, table.put index new) := by
  have found := (get_eq_ok_iff ..).mp held
  unfold set
  split
  · rename_i previous isEntry
    cases isEntry.symm.trans found
    exact congrArg (fun table => Except.ok (entry, table)) (eq_of_entries rfl)
  · rename_i missing
    cases missing.symm.trans found

@[simp] theorem size_put (entry : Option α) : (table.put index entry).size = table.size := by
  simp [size, put, ofEntries]

theorem get_put_self {entry : Option α} (inRange : index < table.size) :
    (table.put index entry).get index =
      .ok entry := by
  rw [get_eq_ok_iff]
  exact Array.getElem?_setIfInBounds_self_of_lt inRange

theorem get_put_of_ne {entry : Option α} {other : Nat} (apart : other ≠ index) :
    (table.put index entry).get other =
      table.get other := by
  unfold get put ofEntries size
  rw [Array.getElem?_setIfInBounds_ne (Ne.symm apart), Array.size_setIfInBounds]

theorem put_of_get {entry : Option α} (held : table.get index = .ok entry) :
    (table.put index entry) = table := by
  obtain ⟨inRange, rfl⟩ :=
    Array.getElem?_eq_some_iff.mp ((get_eq_ok_iff ..).mp held)
  refine eq_of_entries ?_
  rw [put, ofEntries, Array.setIfInBounds_def, dif_pos inRange, Array.set_getElem_self]

theorem count_put {entry : Option α} {old : α}
    (held : table.get index = .ok (some old)) :
    (table.put index entry).count + 1 =
      table.count + if entry.isSome then 1 else 0 := by
  obtain ⟨inRange, isOld⟩ :=
    Array.getElem?_eq_some_iff.mp ((get_eq_ok_iff ..).mp held)
  have positive : 0 < table.entries.countP Option.isSome := by
    rw [Array.countP_pos_iff]
    exact ⟨some old, isOld ▸ Array.getElem_mem inRange, rfl⟩
  rw [table.count_eq, put, ofEntries]
  simp only [Array.setIfInBounds_def, dif_pos inRange, Array.countP_set, isOld,
    Option.isSome_some, if_true]
  omega

inductive Changes (table : ValueTable α) : Change α → ValueTable α → Prop
  | stored (value : α) :
      Changes table (.stored table.size value) (table.push value)
  | overwritten {index : Nat} {old : α} (new : α) :
      table.get index = .ok (some old) →
      Changes table (.overwritten index new)
        (table.put index (some new))
  | erased {index : Nat} {old : α} :
      table.get index = .ok (some old) →
      Changes table (.erased index) (table.put index none)
  | idle : Changes table .idle table

/-- The changes since the array was empty tell all that it holds. -/
structure Accounts (table : ValueTable α) (changes : List (Change α)) : Prop where
  /-- Every value stored is given the next index. -/
  issued : changes.filterMap Change.issued? = List.range table.size
  told : ∀ index < table.size, ∃ value news,
    fate changes index = life index value news ∧
        table.get index = .ok (some (news.getLastD value)) ∨
      fate changes index = life index value news ++ [.erased index] ∧
        table.get index = .ok none
  beyond : ∀ index, table.size ≤ index → fate changes index = []
  counted : table.count + changes.countP Change.isErasure = table.size

theorem accounts_empty : ({} : ValueTable α).Accounts [] where
  issued := rfl
  told _ inRange := nomatch inRange
  beyond _ _ := rfl
  counted := rfl

namespace Accounts

private def Told (table : ValueTable α) (changes : List (Change α)) (index : Nat) :
    Prop :=
  ∃ value news,
    fate changes index = life index value news ∧
        table.get index = .ok (some (news.getLastD value)) ∨
      fate changes index = life index value news ++ [.erased index] ∧
        table.get index = .ok none

private theorem elsewhere (accounts : table.Accounts changes)
    (apart : change.index? ≠ some index) (inRange : index < table.size)
    (same : after.get index = table.get index) :
    Told after (changes ++ [change]) index := by
  unfold Told
  rw [fate_concat_of_ne apart, same]
  exact accounts.told index inRange

private theorem alive (accounts : table.Accounts changes) {old : α}
    (held : table.get index = .ok (some old)) :
    ∃ value news, fate changes index = life index value news := by
  obtain ⟨value, news, ⟨alive, _⟩ | ⟨_, hole⟩⟩ :=
    accounts.told index (lt_size_of_get held)
  · exact ⟨value, news, alive⟩
  · cases held.symm.trans hole

private theorem idle (accounts : table.Accounts changes) :
    table.Accounts (changes ++ [.idle]) where
  issued := (issued_concat rfl).trans accounts.issued
  told _ inRange := accounts.elsewhere (by simp [Change.index?]) inRange rfl
  beyond index outside := by
    rw [fate_concat_of_ne (by simp [Change.index?])]
    exact accounts.beyond index outside
  counted := by simpa [Change.isErasure] using accounts.counted

private theorem push (accounts : table.Accounts changes) (value : α) :
    (table.push value).Accounts (changes ++ [.stored table.size value]) where
  issued := by
    rw [List.filterMap_append, accounts.issued, size_push, List.range_succ]
    rfl
  told index inRange := by
    rw [size_push] at inRange
    by_cases isNew : index = table.size
    · subst isNew
      refine ⟨value, [], .inl ⟨?_, get_push_self value⟩⟩
      rw [fate_concat_self rfl, accounts.beyond _ (Nat.le_refl _)]
      rfl
    · have old : index < table.size := by omega
      exact accounts.elsewhere (by simpa [Change.index?] using Ne.symm isNew) old
        (get_push value old)
  beyond index outside := by
    rw [size_push] at outside
    have apart : table.size ≠ index := by omega
    rw [fate_concat_of_ne (by simpa [Change.index?] using apart)]
    exact accounts.beyond index (by omega)
  counted := by
    have counted := accounts.counted
    simp only [ValueTable.push, size, List.countP_append, List.countP_singleton,
      Change.isErasure, Bool.false_eq_true, if_false, Array.size_push] at counted ⊢
    omega

private theorem set (accounts : table.Accounts changes) {old : α}
    (held : table.get index = .ok (some old)) (entry : Option α)
    (here : change.index? = some index) (silent : change.issued? = none)
    (erases : change.isErasure = entry.isNone)
    (told : Told (table.put index entry)
      (changes ++ [change]) index) :
    (table.put index entry).Accounts
      (changes ++ [change]) where
  issued := by
    rw [issued_concat silent, size_put]
    exact accounts.issued
  told other inRange := by
    rw [size_put] at inRange
    by_cases same : other = index
    · exact same ▸ told
    · exact accounts.elsewhere (by simpa [here] using Ne.symm same) inRange
        (get_put_of_ne same)
  beyond other outside := by
    rw [size_put] at outside
    have apart : index ≠ other := Nat.ne_of_lt
      (Nat.lt_of_lt_of_le (lt_size_of_get held) outside)
    rw [fate_concat_of_ne (by simpa [here] using apart)]
    exact accounts.beyond other outside
  counted := by
    have counted := accounts.counted
    have changed := @count_put _ table index entry old held
    rw [size_put, List.countP_append, List.countP_singleton, erases]
    cases entry with
    | none =>
        simp only [Option.isSome_none, Option.isNone_none, Bool.false_eq_true,
          if_true, if_false] at changed ⊢
        omega
    | some value =>
        simp only [Option.isSome_some, Option.isNone_some, Bool.false_eq_true,
          if_true, if_false] at changed ⊢
        omega

theorem concat (accounts : table.Accounts changes)
    (changed : table.Changes change after) : after.Accounts (changes ++ [change]) := by
  cases changed with
  | idle => exact accounts.idle
  | stored value => exact accounts.push value
  | overwritten new held =>
      obtain ⟨value, news, alive⟩ := accounts.alive held
      refine accounts.set held (some new) rfl rfl rfl
        ⟨value, news ++ [new], .inl ⟨?_, ?_⟩⟩
      · rw [fate_concat_self rfl, alive, life_concat]
      · rw [get_put_self (lt_size_of_get held), List.getLastD_concat]
  | erased held =>
      obtain ⟨value, news, alive⟩ := accounts.alive held
      refine accounts.set held none rfl rfl rfl
        ⟨value, news, .inr ⟨?_, get_put_self (lt_size_of_get held)⟩⟩
      rw [fate_concat_self rfl, alive]

end Accounts

theorem mem_toList {value : α} :
    (index, value) ∈ table.toList ↔ table.get index = .ok (some value) := by
  rw [get_eq_ok_iff]
  simp [toList, List.mem_zipIdx_iff_getElem?]

theorem mem_indexes :
    index ∈ table.toList.map Prod.fst ↔ (table.value? index).isSome := by
  rw [List.mem_map, Option.isSome_iff_exists]
  constructor
  · rintro ⟨⟨_, value⟩, member, rfl⟩
    rw [mem_toList, get_eq_ok_iff] at member
    exact ⟨value, by rw [value?, member]; rfl⟩
  · rintro ⟨value, known⟩
    exact ⟨_, mem_toList.mpr (get_of_value? known), rfl⟩

theorem length_toList (table : ValueTable α) : table.toList.length = table.count := by
  have same : (fun item : Option α × Nat =>
      (item.1.map fun value => (item.2, value)).isSome) =
        Option.isSome ∘ Prod.fst := by
    funext item
    exact Option.isSome_map
  rw [toList, List.length_filterMap_eq_countP, same, ← List.countP_map,
    List.zipIdx_map_fst, Array.countP_toList, table.count_eq]

theorem toList_ordered (table : ValueTable α) :
    (table.toList.map Prod.fst).Pairwise (· < ·) := by
  have ordered : table.entries.toList.zipIdx.Pairwise (·.2 < ·.2) := by
    apply List.pairwise_map.mp
    rw [List.zipIdx_map_snd]
    exact List.pairwise_lt_range'
  rw [List.pairwise_map]
  apply List.pairwise_filterMap.mpr
  apply ordered.imp
  rintro ⟨entry, index⟩ ⟨other, position⟩ before listed isListed _ isOther
  obtain ⟨_, _, rfl⟩ := Option.map_eq_some_iff.mp isListed
  obtain ⟨_, _, rfl⟩ := Option.map_eq_some_iff.mp isOther
  exact before

end ValueTable

end LinkedBTree
