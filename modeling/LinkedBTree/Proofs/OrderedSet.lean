import LinkedBTree.Tree.Store

namespace LinkedBTree

/-! Ordered sets as plain lists. Of the values that an order takes for equal
they hold one at most. -/

variable {α : Type}

section

variable (answer : α → α → Ordering)

def Ascending (members : List α) : Prop :=
  members.Pairwise fun left right => answer left right = .lt

/-- The place of `value` is between `before` and `after`. -/
structure Cut (value : α) (before after : List α) : Prop where
  below : ∀ member ∈ before, answer value member = .gt
  above : ∀ member ∈ after, answer value member = .lt

/-- Whether `value` sorts strictly between its neighbours. -/
def fits (value : α) (before after : List α) : Bool :=
  before.getLast?.all (fun previous => answer value previous = .gt) &&
    after.head?.all fun next => answer value next = .lt

structure OrderedSet where
  members : List α
  ascending : Ascending answer members
  /-- How many values were ever put in. -/
  arrivals : Nat

end

section

variable {answer : α → α → Ordering} {value : α} {before after : List α}

theorem fits_iff : fits answer value before after ↔
    (∀ previous, before.getLast? = some previous →
      answer value previous = .gt) ∧
    ∀ next, after.head? = some next → answer value next = .lt := by
  unfold fits
  cases before.getLast? <;> cases after.head? <;> simp

end

section

variable {answer : α → α → Ordering} [Std.TransCmp answer]
  {value stored : α} {before after : List α}

open Std

theorem cut_of_fits (isBefore : Ascending answer before)
    (isAfter : Ascending answer after)
    (isBetween : fits answer value before after) :
    Cut answer value before after := by
  obtain ⟨low, high⟩ := fits_iff.mp isBetween
  constructor
  · intro member inside
    cases isLast : before.getLast? with
    | none =>
        obtain rfl := List.getLast?_eq_none_iff.mp isLast
        cases inside
    | some last =>
        obtain ⟨front, rfl⟩ := List.getLast?_eq_some_iff.mp isLast
        have greater := low last isLast
        rcases List.mem_append.mp inside with inFront | isSame
        · have less := (List.pairwise_append.mp isBefore).2.2 member inFront last
            (by simp)
          exact TransCmp.gt_trans greater (OrientedCmp.gt_of_lt less)
        · rwa [List.mem_singleton.mp isSame]
  · intro member inside
    cases isFirst : after.head? with
    | none =>
        obtain rfl := List.head?_eq_none_iff.mp isFirst
        cases inside
    | some first =>
        obtain ⟨back, rfl⟩ := List.head?_eq_some_iff.mp isFirst
        have less := high first isFirst
        rcases List.mem_cons.mp inside with rfl | inBack
        · exact less
        · exact TransCmp.lt_trans less
            ((List.pairwise_cons.mp isAfter).1 member inBack)

theorem cut_of_equal (ascending : Ascending answer (before ++ stored :: after))
    (equal : answer value stored = .eq) : Cut answer value before after := by
  obtain ⟨_, above, below⟩ := List.pairwise_append.mp ascending
  constructor
  · intro member inside
    have less := below member inside stored (by simp)
    exact TransCmp.gt_of_eq_of_gt equal (OrientedCmp.gt_of_lt less)
  · intro member inside
    exact TransCmp.lt_of_eq_of_lt equal
      ((List.pairwise_cons.mp above).1 member inside)

theorem Cut.apart (cut : Cut answer value before after) :
    ∀ left ∈ before, ∀ right ∈ after, answer left right = .lt := by
  intro left isBefore right isAfter
  exact TransCmp.lt_trans (OrientedCmp.lt_of_gt (cut.below left isBefore))
    (cut.above right isAfter)

theorem Cut.ascending (cut : Cut answer value before after)
    (isBefore : Ascending answer before) (isAfter : Ascending answer after) :
    Ascending answer (before ++ value :: after) := by
  refine List.pairwise_append.mpr
    ⟨isBefore, List.pairwise_cons.mpr ⟨cut.above, isAfter⟩, ?_⟩
  intro left inside right later
  rcases List.mem_cons.mp later with rfl | later
  · exact OrientedCmp.lt_of_gt (cut.below left inside)
  · exact cut.apart left inside right later

end

namespace OrderedSet

section

variable {answer : α → α → Ordering}

def empty : OrderedSet answer :=
  ⟨[], .nil, 0⟩

def find? (set : OrderedSet answer) (value : α) : Option α :=
  set.members.find? fun member => answer value member = .eq

def below (set : OrderedSet answer) (value : α) : List α :=
  set.members.filter fun member => answer value member = .gt

def above (set : OrderedSet answer) (value : α) : List α :=
  set.members.filter fun member => answer value member = .lt

theorem ascending_below (set : OrderedSet answer) (value : α) :
    Ascending answer (set.below value) :=
  set.ascending.filter _

theorem ascending_above (set : OrderedSet answer) (value : α) :
    Ascending answer (set.above value) :=
  set.ascending.filter _

theorem cut_sides (set : OrderedSet answer) (value : α) :
    Cut answer value (set.below value) (set.above value) where
  below _ inside := of_decide_eq_true (List.mem_filter.mp inside).2
  above _ inside := of_decide_eq_true (List.mem_filter.mp inside).2

variable [Std.TransCmp answer]

def insert (set : OrderedSet answer) (value : α) :
    InsertResult α × OrderedSet answer :=
  match set.find? value with
  | some stored => (.existing stored value, set)
  | none => (.inserted set.arrivals,
      { members := set.below value ++ value :: set.above value
        ascending := (set.cut_sides value).ascending
          (set.ascending_below value) (set.ascending_above value)
        arrivals := set.arrivals + 1 })

def remove (set : OrderedSet answer) (value : α) :
    Option α × OrderedSet answer :=
  (set.find? value, { set with
    members := set.members.filter fun member => answer value member ≠ .eq
    ascending := set.ascending.filter _ })

def replace (set : OrderedSet answer) (old new : α) :
    Except Category (α × OrderedSet answer) :=
  match set.find? old with
  | none => .error .valueMissing
  | some stored =>
      if fit : fits answer new (set.below old) (set.above old) then
        .ok (stored, { set with
          members := set.below old ++ new :: set.above old
          ascending := (cut_of_fits (set.ascending_below old)
            (set.ascending_above old) fit).ascending
            (set.ascending_below old) (set.ascending_above old) })
      else
        .error .invalidArgument

end

section

variable {answer : α → α → Ordering} {set : OrderedSet answer}
  {value stored new : α} {before after equal : List α}

@[ext] theorem ext {set other : OrderedSet answer}
    (members : set.members = other.members)
    (arrivals : set.arrivals = other.arrivals) : set = other := by
  cases set
  cases other
  cases members
  cases arrivals
  rfl

private theorem filter_cut (cut : Cut answer value before after)
    (equals : ∀ member ∈ equal, answer value member = .eq)
    (keep : Ordering → Bool) :
    (before ++ equal ++ after).filter (fun member => keep (answer value member)) =
      (if keep .gt then before else []) ++ (if keep .eq then equal else []) ++
        if keep .lt then after else [] := by
  have part : ∀ (members : List α) (ordering : Ordering),
      (∀ member ∈ members, answer value member = ordering) →
      members.filter (fun member => keep (answer value member)) =
        if keep ordering then members else [] := by
    intro members ordering same
    split
    · rename_i kept
      exact List.filter_eq_self.mpr fun member inside => by
        rw [same member inside, kept]
    · rename_i dropped
      exact List.filter_eq_nil_iff.mpr fun member inside => by
        rw [same member inside]
        exact dropped
  rw [List.filter_append, List.filter_append, part before .gt cut.below,
    part equal .eq equals, part after .lt cut.above]

section

variable (cut : Cut answer value before after)
  (equals : ∀ member ∈ equal, answer value member = .eq)
  (isSet : set.members = before ++ equal ++ after)

include cut equals isSet

theorem find?_cut : set.find? value = equal.head? := by
  unfold find?
  rw [← List.head?_filter, isSet,
    filter_cut cut equals fun ordering => ordering = .eq]
  simp

theorem below_cut : set.below value = before := by
  unfold below
  rw [isSet, filter_cut cut equals fun ordering => ordering = .gt]
  simp

theorem above_cut : set.above value = after := by
  unfold above
  rw [isSet, filter_cut cut equals fun ordering => ordering = .lt]
  simp

theorem others_cut :
    set.members.filter (fun member => answer value member ≠ .eq) =
      before ++ after := by
  rw [isSet, filter_cut cut equals fun ordering => ordering ≠ .eq]
  simp

end

section

variable (cut : Cut answer value before after)
  (isSet : set.members = before ++ after)

include cut isSet

theorem find?_absent : set.find? value = none :=
  find?_cut cut (by simp : ∀ member ∈ ([] : List α), _) (by simpa using isSet)

theorem insert_absent [Std.TransCmp answer] :
    ∃ next : OrderedSet answer,
      set.insert value = (.inserted set.arrivals, next) ∧
      next.members = before ++ value :: after ∧
      next.arrivals = set.arrivals + 1 := by
  have none : ∀ member ∈ ([] : List α), answer value member = .eq := by simp
  have isParted : set.members = before ++ [] ++ after := by simpa using isSet
  unfold insert
  rw [find?_absent cut isSet]
  refine ⟨_, rfl, ?_, rfl⟩
  simp only
  rw [below_cut cut none isParted, above_cut cut none isParted]

theorem remove_absent : set.remove value = (none, set) := by
  refine Prod.ext (find?_absent cut isSet) (OrderedSet.ext ?_ rfl)
  rw [isSet]
  exact others_cut cut (by simp : ∀ member ∈ ([] : List α), _)
    (by simpa using isSet)

theorem replace_absent [Std.TransCmp answer] (new : α) :
    set.replace value new = .error .valueMissing := by
  unfold replace
  rw [find?_absent cut isSet]

end

section

variable (cut : Cut answer value before after)
  (isEqual : answer value stored = .eq)
  (isSet : set.members = before ++ stored :: after)

include cut isEqual isSet

theorem find?_present : set.find? value = some stored :=
  find?_cut cut (by simpa using isEqual : ∀ member ∈ [stored], _)
    (by simpa using isSet)

theorem remove_present : ∃ next : OrderedSet answer,
    set.remove value = (some stored, next) ∧ next.members = before ++ after ∧
      next.arrivals = set.arrivals := by
  refine ⟨_, Prod.ext (find?_present cut isEqual isSet) rfl, ?_, rfl⟩
  exact others_cut cut (by simpa using isEqual : ∀ member ∈ [stored], _)
    (by simpa using isSet)

variable [Std.TransCmp answer]

theorem insert_present : set.insert value = (.existing stored value, set) := by
  unfold insert
  rw [find?_present cut isEqual isSet]

theorem replace_present (fit : fits answer new before after) :
    ∃ next : OrderedSet answer, set.replace value new = .ok (stored, next) ∧
      next.members = before ++ new :: after ∧
      next.arrivals = set.arrivals := by
  have equals : ∀ member ∈ [stored], answer value member = .eq := by
    simpa using isEqual
  have isParted : set.members = before ++ [stored] ++ after := by
    simpa using isSet
  have isBelow := below_cut cut equals isParted
  have isAbove := above_cut cut equals isParted
  unfold replace
  rw [find?_present cut isEqual isSet]
  simp only
  rw [dif_pos (by rwa [isBelow, isAbove])]
  refine ⟨_, rfl, ?_, rfl⟩
  simp only
  rw [isBelow, isAbove]

theorem replace_misplaced (misfit : ¬fits answer new before after) :
    set.replace value new = .error .invalidArgument := by
  have equals : ∀ member ∈ [stored], answer value member = .eq := by
    simpa using isEqual
  have isParted : set.members = before ++ [stored] ++ after := by
    simpa using isSet
  unfold replace
  rw [find?_present cut isEqual isSet]
  simp only
  rw [dif_neg (by rwa [below_cut cut equals isParted,
    above_cut cut equals isParted])]

end

end

end OrderedSet

end LinkedBTree
