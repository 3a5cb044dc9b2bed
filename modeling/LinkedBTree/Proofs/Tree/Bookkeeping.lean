import LinkedBTree.Proofs.Ledger
import LinkedBTree.Proofs.Tree.Reachable

namespace LinkedBTree.Tree

/-! A value keeps the index it was stored under, wherever its entry is moved to
in the leaves. -/

variable {α σ : Type}

open Subtree

def leafEntries (tree : Tree α) : Except Error (List (Entry α)) := do
  pure ((← tree.arena.leafPayloads tree.root).flatMap EntryList.entries)

theorem leafEntries_eq {tree : Tree α} {shape : Shape α}
    (upright : tree.Upright shape) : tree.leafEntries = .ok shape.entries := by
  unfold leafEntries
  rw [bind_of_ok (leafPayloads_eq upright), entries_eq_tips, List.flatMap_map]
  rfl

/-- The entry that `probe` matches, which the leaves and the values array hold
alike, makes way for `new`. -/
structure Touches (tree last : Tree α) (probe : α) (compare : Comparator σ α)
    (index : Nat) (old : α) (new : Option α) : Prop where
  matched : ∀ answer, compare.Steady answer → answer probe old = .eq
  held : tree.valueAt index = .ok (some old)
  leaves : ∃ left right,
    tree.leafEntries = .ok (left ++ ⟨old, index⟩ :: right) ∧
      last.leafEntries =
        .ok (left ++ (new.map (Entry.mk · index)).toList ++ right)

section

variable (tree : Tree α) (change : Change α)

def InsertRecords (value : α) :
    EStateM.Result Error (Tree α × σ) (InsertResult α) → Prop
  | .ok (.inserted index) _ => change = .stored index value
  | .ok (.existing _ _) _ | .error _ _ => change = .idle

def RemoveRecords (value : α) (compare : Comparator σ α) :
    EStateM.Result Error (Tree α × σ) (Option α) → Prop
  | .ok (some old) (last, _) => ∃ index, change = .erased index ∧
      tree.Touches last value compare index old none
  | .ok none _ | .error _ _ => change = .idle

def ReplaceRecords (value new : α) (compare : Comparator σ α) :
    EStateM.Result Error (Tree α × σ) α → Prop
  | .ok old (last, _) => ∃ index, change = .overwritten index new ∧
      tree.Touches last value compare index old (some new)
  | .error _ _ => change = .idle

/-- What a call does to the values array, going by what its caller is given. -/
def Records : Request α → Prop
  | .insert value compare state =>
      InsertRecords change value (Tree.insert value compare (tree, state))
  | .remove value compare state =>
      tree.RemoveRecords change value compare
        (Tree.remove value compare (tree, state))
  | .replace value new compare state =>
      tree.ReplaceRecords change value new compare
        (Tree.replace value new compare (tree, state))
  | .split _ | .copy _ _ => change = .idle

end

/-- The changes that calls make, one after another. -/
inductive Recorded : Tree α → List (Request α) → List (Change α) → Prop
  | nil {tree} : Recorded tree [] []
  | cons {tree request rest change changes} :
      tree.Records change request →
      Recorded (tree.perform request) rest changes →
      Recorded tree (request :: rest) (change :: changes)

def Request.InPlace : Request α → Prop
  | .insert _ _ _ | .remove _ _ _ | .replace _ _ _ _ | .split _ => True
  | .copy _ _ => False

section

variable {tree last : Tree α} {shape final : Shape α} {change : Change α}
  {compare : Comparator σ α} {probe old : α} {index : Nat} {new : Option α}
  {left right : List (Entry α)} {entry : Entry α}

private theorem entries_around (path : List (Frame α)) (leaf : NodeId)
    (front back : List (Entry α)) (entry : Entry α) :
    (plug path (.node leaf (some ⟨front ++ entry :: back⟩) [])).entries =
      (leftOf path ++ front) ++ entry :: (back ++ rightOf path) := by
  rw [entries_plug, entries_leaf]
  simp

private theorem Upright.touches (upright : tree.Upright shape)
    (after : last.Upright final) (was : shape.entries = left ++ entry :: right)
    (is : final.entries =
      left ++ (new.map (Entry.mk · entry.index)).toList ++ right)
    (matched : ∀ answer, compare.Steady answer → answer probe entry.value = .eq) :
    tree.Touches last probe compare entry.index entry.value new where
  matched := matched
  held := ValueTable.get_of_value? (upright.mirrors.stored entry (by simp [was]))
  leaves := ⟨left, right, by rw [leafEntries_eq upright, was],
    by rw [leafEntries_eq after, is]⟩

theorem Upright.exists_record (upright : tree.Upright shape) (request : Request α) :
    ∃ change, tree.Records change request := by
  cases request with
  | insert value compare state =>
      have ends := insert_ends upright value compare state
      show ∃ change, InsertRecords change value _
      generalize Tree.insert value compare (tree, state) = outcome at ends ⊢
      cases ends <;> exact ⟨_, rfl⟩
  | remove value compare state =>
      have ends := remove_ends upright value compare state
      show ∃ change, RemoveRecords tree change value compare _
      generalize Tree.remove value compare (tree, state) = outcome at ends ⊢
      cases ends with
      | found landed kept embodied =>
          obtain rfl := landed.found
          refine ⟨_, _, rfl, upright.touches (upright.erased rfl embodied)
            (entries_around ..) ?_ fun answer steady => (landed.told answer steady).2⟩
          rw [entries_of_erased upright rfl]
          simp
      | absent _ => exact ⟨_, rfl⟩
      | raised _ => exact ⟨_, rfl⟩
  | replace old new compare state =>
      have ends := replace_ends upright old new compare state
      show ∃ change, ReplaceRecords tree change old new compare _
      generalize Tree.replace old new compare (tree, state) = outcome at ends ⊢
      cases ends with
      | replaced landed _ kept embodied =>
          obtain rfl := landed.found
          refine ⟨_, _, rfl, upright.touches (upright.overwritten rfl embodied)
            (entries_around ..) ?_ fun answer steady => (landed.told answer steady).2⟩
          rw [entries_overwritten]
          simp
      | misfit _ _ => exact ⟨_, rfl⟩
      | absent _ => exact ⟨_, rfl⟩
      | raised _ => exact ⟨_, rfl⟩
  | split id => exact ⟨_, rfl⟩
  | copy copyValue state => exact ⟨_, rfl⟩

private theorem eq_of_erased {before after : List (Entry α)}
    (distinct : Distinct (left ++ ⟨old, index⟩ :: right))
    (same : left ++ ⟨old, index⟩ :: right = before ++ entry :: after)
    (rest : left ++ right = before ++ after) : entry.index = index := by
  have apart := (ValueTable.Mirrors.middle_iff.mp distinct).2 ⟨old, index⟩
  have member : (⟨old, index⟩ : Entry α) ∈ before ++ entry :: after := by
    simp [← same]
  rw [List.mem_append, List.mem_cons] at member
  rcases member with inside | isEntry | inside
  · exact absurd rfl (apart (by simp [rest, inside]))
  · rw [← isEntry]
  · exact absurd rfl (apart (by simp [rest, inside]))

private theorem eq_of_overwritten {before after : List (Entry α)} {value : α}
    (distinct : Distinct (left ++ ⟨value, index⟩ :: right))
    (same : left ++ ⟨old, index⟩ :: right = before ++ entry :: after)
    (rest : left ++ ⟨value, index⟩ :: right =
      before ++ ⟨value, entry.index⟩ :: after) :
    entry.index = index ∨ old = value := by
  have apart := (ValueTable.Mirrors.middle_iff.mp distinct).2 ⟨old, index⟩
  have member : (⟨old, index⟩ : Entry α) ∈ before ++ entry :: after := by
    simp [← same]
  rw [List.mem_append, List.mem_cons] at member
  by_cases isEntry : ⟨old, index⟩ = entry
  · exact .inl (by rw [← isEntry])
  -- It was beside the entry that was overwritten, and so it is still there.
  have stays : (⟨old, index⟩ : Entry α) ∈ left ++ ⟨value, index⟩ :: right := by
    rw [rest, List.mem_append, List.mem_cons]
    exact member.imp_right fun inside => .inr (inside.resolve_left isEntry)
  rw [List.mem_append, List.mem_cons] at stays
  rcases stays with inside | isNew | inside
  · exact absurd rfl (apart (by simp [inside]))
  · exact .inr (Entry.mk.inj isNew).1
  · exact absurd rfl (apart (by simp [inside]))

section

variable {value : α}

private theorem changes_of_insert
    {outcome : EStateM.Result Error (Tree α × σ) (InsertResult α)}
    (ends : InsertEnds tree shape value compare outcome)
    (records : InsertRecords change value outcome) :
    tree.values.Changes change (reached outcome).1.values := by
  cases ends with
  | stored _ _ _ _ =>
      obtain rfl := records
      exact .stored value
  | refused refused =>
      obtain rfl := records
      obtain ⟨arena, rfl⟩ := refused.same
      exact .idle
  | found _ =>
      obtain rfl := records
      exact .idle
  | raised _ =>
      obtain rfl := records
      exact .idle

private theorem changes_of_remove
    {outcome : EStateM.Result Error (Tree α × σ) (Option α)}
    (upright : tree.Upright shape)
    (ends : RemoveEnds tree shape value compare outcome)
    (records : tree.RemoveRecords change value compare outcome) :
    tree.values.Changes change (reached outcome).1.values := by
  cases ends with
  | found landed kept embodied =>
      obtain rfl := landed.found
      obtain ⟨index, rfl, touches⟩ := records
      obtain ⟨left, right, was, is⟩ := touches.leaves
      have was := Except.ok.inj (was.symm.trans (leafEntries_eq upright))
      have is := Except.ok.inj
        (is.symm.trans (leafEntries_eq (upright.erased rfl embodied)))
      have distinct := upright.mirrors.distinct
      rw [entries_around] at was
      rw [entries_of_erased upright rfl] at is
      rw [entries_around, ← was] at distinct
      obtain rfl := eq_of_erased distinct was (by simpa using is)
      exact .erased touches.held
  | absent _ =>
      obtain rfl := records
      exact .idle
  | raised _ =>
      obtain rfl := records
      exact .idle

private theorem changes_of_replace {new : α}
    {outcome : EStateM.Result Error (Tree α × σ) α} (upright : tree.Upright shape)
    (ends : ReplaceEnds tree shape value new compare outcome)
    (records : tree.ReplaceRecords change value new compare outcome) :
    tree.values.Changes change (reached outcome).1.values := by
  cases ends with
  | @replaced path leaf children front entry back arena after landed _ kept embodied =>
      obtain rfl := landed.found
      obtain ⟨index, rfl, touches⟩ := records
      obtain ⟨left, right, was, is⟩ := touches.leaves
      have final := upright.overwritten rfl embodied
      have was := Except.ok.inj (was.symm.trans (leafEntries_eq upright))
      have is := Except.ok.inj (is.symm.trans (leafEntries_eq final))
      have distinct := final.mirrors.distinct
      rw [entries_around] at was
      rw [entries_overwritten] at is distinct
      rw [Option.map_some, Option.toList_some, List.append_assoc,
        List.singleton_append] at is
      rw [← is] at distinct
      rcases eq_of_overwritten distinct was is with rfl | rfl
      · exact .overwritten new touches.held
      · -- Nothing changes, and that may be said of any entry with this value.
        have held : tree.values.get entry.index = .ok (some entry.value) :=
          ValueTable.get_of_value? (upright.mirrors.stored entry (by
            rw [entries_around]
            simp))
        have changes := ValueTable.Changes.overwritten entry.value touches.held
        rw [ValueTable.put_of_get touches.held] at changes
        rw [reached_ok, ValueTable.put_of_get held]
        exact changes
  | misfit _ _ =>
      obtain rfl := records
      exact .idle
  | absent _ =>
      obtain rfl := records
      exact .idle
  | raised _ =>
      obtain rfl := records
      exact .idle

private theorem changes_of_split {id : NodeId}
    {outcome : EStateM.Result Error (Tree α) Bool}
    (ends : SplitEnds tree shape id outcome) :
    tree.values.Changes .idle (reached outcome).values := by
  cases ends with
  | refused refused =>
      obtain ⟨arena, rfl⟩ := refused.same
      exact .idle
  | cut _ _ _ _ _ => exact .idle
  | short _ _ => exact .idle
  | branch _ _ => exact .idle
  | dead _ => exact .idle

end

theorem Upright.changes (upright : tree.Upright shape) {request : Request α}
    (inPlace : request.InPlace) (records : tree.Records change request) :
    tree.values.Changes change (tree.perform request).values := by
  cases request with
  | insert value compare state =>
      exact changes_of_insert (insert_ends upright value compare state) records
  | remove value compare state =>
      exact changes_of_remove upright (remove_ends upright value compare state)
        records
  | replace old new compare state =>
      exact changes_of_replace upright
        (replace_ends upright old new compare state) records
  | split id =>
      obtain rfl := records
      exact changes_of_split (split_ends upright id)
  | copy copyValue state => cases inPlace

end

section

variable {tree : Tree α} {config : Config} {shape : Shape α}
  {requests : List (Request α)} {past changes : List (Change α)}

theorem Abides.exists_recorded (abides : tree.Abides config shape)
    (requests : List (Request α)) : ∃ changes, Recorded tree requests changes := by
  induction requests generalizing tree shape with
  | nil => exact ⟨[], .nil⟩
  | cons request rest induction =>
      obtain ⟨change, records⟩ := abides.upright.exists_record request
      obtain ⟨final, after, _⟩ := abides.perform request
      obtain ⟨changes, recorded⟩ := induction after
      exact ⟨change :: changes, .cons records recorded⟩

theorem Abides.accounts (abides : tree.Abides config shape)
    (accounts : tree.values.Accounts past) (recorded : Recorded tree requests changes)
    (inPlace : ∀ request ∈ requests, request.InPlace) :
    (requests.foldl Tree.perform tree).values.Accounts (past ++ changes) := by
  induction recorded generalizing past shape with
  | nil => simpa using accounts
  | @cons tree request rest change changes records _ induction =>
      have changed := abides.upright.changes (inPlace request (by simp)) records
      obtain ⟨final, abides, _⟩ := abides.perform request
      have continued := induction abides (accounts.concat changed)
        fun other member => inPlace other (by simp [member])
      rwa [List.append_assoc, List.singleton_append] at continued

end

/-- What can be read off the values array, if these are all changes to it. -/
structure Recalls (tree : Tree α) (changes : List (Change α)) : Prop where
  accounts : tree.values.Accounts changes
  beyond : ∀ index, tree.values.size ≤ index →
    ∃ what, tree.valueAt index = .error (.cause what) ∧
      what.category = .invalidArgument
  listed : ∀ index value, (index, value) ∈ tree.values.toList ↔
    tree.valueAt index = .ok (some value)
  ordered : (tree.values.toList.map Prod.fst).Pairwise (· < ·)

theorem recalls_of_accounts {tree : Tree α} {changes : List (Change α)}
    (accounts : tree.values.Accounts changes) : tree.Recalls changes where
  accounts := accounts
  beyond _ outside := ⟨_, ValueTable.get_of_size_le outside, rfl⟩
  listed _ _ := ValueTable.mem_toList
  ordered := tree.values.toList_ordered

/-- Whatever calls are made on a tree, the index given out for a value leads to
that value or to the last one put in its place, and to none once it is removed.
No index is given out twice. -/
theorem indexes_are_stable {config : Config} (valid : config.Valid) :
    ∃ start : Tree α, withConfig config = .ok start ∧
      ∀ requests : List (Request α), (∀ request ∈ requests, request.InPlace) →
        (∃ changes, Recorded start requests changes) ∧
          ∀ changes, Recorded start requests changes →
            (requests.foldl perform start).Recalls changes := by
  obtain ⟨start, created, shape, abides⟩ := @abides_withConfig α config valid
  obtain ⟨again, recreated, _, _, noValues, _⟩ := @standing_withConfig α config valid
  obtain rfl := Except.ok.inj (created.symm.trans recreated)
  refine ⟨start, created, fun requests inPlace =>
    ⟨abides.exists_recorded requests, fun changes recorded => ?_⟩⟩
  have accounts : start.values.Accounts [] := noValues ▸ ValueTable.accounts_empty
  exact recalls_of_accounts (abides.accounts accounts recorded inPlace)

section

variable {tree : Tree α} {change : Change α} {compare : Comparator σ α} {state : σ}
  {value new : α} {index : Nat}

theorem Records.of_inserted
    (records : tree.Records change (.insert value compare state))
    (answered : returned? (Tree.insert value compare (tree, state)) =
      some (.inserted index)) : change = .stored index value := by
  obtain ⟨after, done⟩ := returned?_eq_some.mp answered
  rwa [Records, done] at records

theorem Records.of_existing
    (records : tree.Records change (.insert value compare state)) (stored : α)
    (answered : returned? (Tree.insert value compare (tree, state)) =
      some (.existing stored value)) : change = .idle := by
  obtain ⟨after, done⟩ := returned?_eq_some.mp answered
  rwa [Records, done] at records

theorem Records.of_removed (records : tree.Records change (.remove value compare state))
    (old : α) (answered : returned? (Tree.remove value compare (tree, state)) = some (some old))
    (unique : ∀ entry ∈ tree.values.toList, entry.2 = old → entry.1 = index) :
    change = .erased index := by
  obtain ⟨⟨last, after⟩, done⟩ := returned?_eq_some.mp answered
  rw [Records, done] at records
  obtain ⟨other, rfl, touches⟩ := records
  rw [← unique _ (ValueTable.mem_toList.mpr touches.held) rfl]

theorem Records.of_replaced
    (records : tree.Records change (.replace value new compare state))
    (old : α) (answered : returned? (Tree.replace value new compare (tree, state)) = some old)
    (unique : ∀ entry ∈ tree.values.toList, entry.2 = old → entry.1 = index) :
    change = .overwritten index new := by
  obtain ⟨⟨last, after⟩, done⟩ := returned?_eq_some.mp answered
  rw [Records, done] at records
  obtain ⟨other, rfl, touches⟩ := records
  rw [← unique _ (ValueTable.mem_toList.mpr touches.held) rfl]

end

/-- A leaf is split, and one that has become empty is dropped. -/
theorem indexes_are_stable_split :
    ({ maxValues := 2, chunkSize := 1, nodeCapacity := 8 } : Config).Valid ∧
      ∃ start : Tree Nat,
        withConfig { maxValues := 2, chunkSize := 1, nodeCapacity := 8 } =
          .ok start ∧
        Recorded start [
          .insert 5 (.answering compare) (), .insert 7 (.answering compare) (),
          .insert 5 (.answering compare) (), .remove 5 (.answering compare) (),
          .replace 7 8 (.answering compare) ()]
          [.stored 0 5, .stored 1 7, .idle, .erased 0, .overwritten 1 8] ∧
        ([
          .insert 5 (.answering compare) (), .insert 7 (.answering compare) (),
          .insert 5 (.answering compare) (), .remove 5 (.answering compare) (),
          .replace 7 8 (.answering compare) ()].foldl perform start).Recalls
            [.stored 0 5, .stored 1 7, .idle, .erased 0, .overwritten 1 8] := by
  have valid : ({ maxValues := 2, chunkSize := 1, nodeCapacity := 8 } :
      Config).Valid := by
    constructor <;> decide
  obtain ⟨start, created, stable⟩ := @indexes_are_stable Nat _ valid
  obtain ⟨⟨changes, recorded⟩, recalls⟩ := stable [
    .insert 5 (.answering compare) (), .insert 7 (.answering compare) (),
    .insert 5 (.answering compare) (), .remove 5 (.answering compare) (),
    .replace 7 8 (.answering compare) ()] (by
      intro request member
      simp only [List.mem_cons, List.not_mem_nil, or_false] at member
      rcases member with rfl | rfl | rfl | rfl | rfl <;> trivial)
  have isChanges :
      changes = [.stored 0 5, .stored 1 7, .idle, .erased 0, .overwritten 1 8] := by
    obtain rfl := Except.ok.inj created
    obtain _ | @⟨_, _, _, first, _, isFirst, _ | @⟨_, _, _, second, _, isSecond,
      _ | @⟨_, _, _, third, _, isThird, _ | @⟨_, _, _, fourth, _, isFourth,
      _ | @⟨_, _, _, fifth, _, isFifth, _ | _⟩⟩⟩⟩⟩ := recorded
    have isFirst : first = .stored 0 5 := isFirst.of_inserted (by decide +kernel)
    have isSecond : second = .stored 1 7 := isSecond.of_inserted (by decide +kernel)
    have isThird : third = .idle := isThird.of_existing 5 (by decide +kernel)
    have isFourth : fourth = .erased 0 :=
      isFourth.of_removed 5 (by decide +kernel) (by decide +kernel)
    have isFifth : fifth = .overwritten 1 8 :=
      isFifth.of_replaced 7 (by decide +kernel) (by decide +kernel)
    rw [isFirst, isSecond, isThird, isFourth, isFifth]
  subst isChanges
  exact ⟨valid, start, created, recorded, recalls _ recorded⟩

end LinkedBTree.Tree
