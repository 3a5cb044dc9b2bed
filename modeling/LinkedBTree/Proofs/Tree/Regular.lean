import LinkedBTree.Tree.Validity
import LinkedBTree.Proofs.OrderedSet
import LinkedBTree.Proofs.Tree.Shape

namespace LinkedBTree

/-! Whether a tree is in order, as a whole and by what each node can check of
itself within the limits that it is given. -/

variable {α : Type}

namespace Subtree

section

variable (answer : α → α → Ordering)

/-- The rightmost leaf ends on the value of this separator. -/
def Ends (separator : Entry α) (shape : Shape α) : Prop :=
  ∃ last, shape.ending? = some last ∧
    answer last.value separator.value = .eq ∧ last.index = separator.index

/-- What is asked of every node. -/
structure Regular (root : NodeId) (shape : Shape α) : Prop where
  listed : shape.payload ≠ none
  ascending : Ascending answer (shape.own.map Entry.value)
  filled : shape.children = [] → shape.id ≠ root → shape.own ≠ []
  branched : shape.children ≠ [] →
    shape.children.length = shape.own.length + 1
  parted : ∀ pair ∈ shape.children.zip shape.own, pair.1.Ends answer pair.2

/-- The children of a branch, parted by these separators, are in order. -/
structure Lined (root : NodeId) (limits : Limits α)
    (children : List (Shape α)) (separators : List (Entry α)) : Prop where
  regular : ∀ child ∈ children, ∀ part ∈ child.parts,
    part.Regular answer root
  ascending : Ascending answer
    ((children.flatMap entries).map Entry.value)
  above : ∀ lower, limits.lower = some lower →
    ∀ entry ∈ children.flatMap entries, answer entry.value lower = .gt
  parted : ∀ pair ∈ children.zip separators, pair.1.Ends answer pair.2
  reaches : ∀ upper, limits.upper = some upper →
    ∃ child, children.getLast? = some child ∧ child.Ends answer upper

/-- A subtree is in order and keeps its limits. -/
structure Obeys (root : NodeId) (limits : Limits α) (shape : Shape α) :
    Prop where
  regular : ∀ part ∈ shape.parts, part.Regular answer root
  ascending : Ascending answer (shape.entries.map Entry.value)
  above : ∀ lower, limits.lower = some lower →
    ∀ entry ∈ shape.entries, answer entry.value lower = .gt
  reaches : ∀ upper, limits.upper = some upper → shape.Ends answer upper

end

theorem getLast?_of_ending? {shape : Shape α} {last : Entry α}
    (isLast : shape.ending? = some last) :
    shape.entries.getLast? = some last := by
  induction shape using Subtree.induction with
  | node id payload children induction =>
      by_cases isLeaf : children = []
      · subst isLeaf
        rw [ending?, if_pos rfl] at isLast
        rw [entries, if_pos rfl, isLast]
      · obtain ⟨before, child, rfl⟩ : ∃ before child,
            children = before ++ [child] :=
          ⟨_, _, (List.dropLast_concat_getLast isLeaf).symm⟩
        rw [ending?_branch] at isLast
        rw [entries_branch isLeaf, List.flatMap_append, List.flatMap_singleton,
          List.getLast?_append, induction child (by simp) isLast]
        rfl

section

variable {answer : α → α → Ordering} {root : NodeId} {limits : Limits α}
  {shape child : Shape α} {separator : Entry α} {list : EntryList α}
  {children : List (Shape α)} {separators : List (Entry α)} {id : NodeId}
  {payload : Option (EntryList α)}

theorem lined_singleton :
    Lined answer root limits [child] [] ↔ child.Obeys answer root limits := by
  constructor
  · intro lined
    refine ⟨lined.regular child (by simp), by simpa using lined.ascending,
      by simpa using lined.above, fun upper isUpper => ?_⟩
    obtain ⟨last, isLast, ends⟩ := lined.reaches upper isUpper
    obtain rfl := Option.some.inj isLast
    exact ends
  · intro obeys
    exact ⟨by simpa using obeys.regular, by simpa using obeys.ascending,
      by simpa using obeys.above, by simp,
      fun upper isUpper => ⟨child, rfl, obeys.reaches upper isUpper⟩⟩

private theorem ends_branch_iff (inner : children ≠ []) {upper : Entry α} :
    (node id payload children).Ends answer upper ↔
      ∃ child, children.getLast? = some child ∧ child.Ends answer upper := by
  obtain ⟨before, child, rfl⟩ : ∃ before child, children = before ++ [child] :=
    ⟨_, _, (List.dropLast_concat_getLast inner).symm⟩
  simp [Ends]

private theorem obeys_iff_lined (inner : children ≠ []) :
    (node id (some list) children).Obeys answer root limits ↔
      (node id (some list) children).Regular answer root ∧
        Lined answer root limits children list.entries := by
  constructor
  · intro obeys
    have own := obeys.regular (node id (some list) children) (by simp)
    refine ⟨own, ?_, ?_, ?_, own.parted, ?_⟩
    · intro child member part isPart
      apply obeys.regular part
      rw [parts_node]
      exact List.mem_cons_of_mem _ (List.mem_flatMap.mpr ⟨child, member, isPart⟩)
    · rw [← entries_branch inner]
      exact obeys.ascending
    · rw [← entries_branch inner]
      exact obeys.above
    · intro upper isUpper
      exact (ends_branch_iff inner).mp (obeys.reaches upper isUpper)
  · rintro ⟨own, lined⟩
    refine ⟨?_, ?_, ?_, ?_⟩
    · rw [parts_node]
      refine List.forall_mem_cons.mpr ⟨own, fun part member => ?_⟩
      obtain ⟨child, isChild, isPart⟩ := List.mem_flatMap.mp member
      exact lined.regular child isChild part isPart
    · rw [entries_branch inner]
      exact lined.ascending
    · rw [entries_branch inner]
      exact lined.above
    · intro upper isUpper
      exact (ends_branch_iff inner).mpr (lined.reaches upper isUpper)

variable [Std.TransCmp answer]

open Std

theorem Ends.bounds (ends : shape.Ends answer separator)
    (ascending : Ascending answer (shape.entries.map Entry.value)) :
    ∀ entry ∈ shape.entries, (answer entry.value separator.value).isLE := by
  obtain ⟨last, isLast, equal, _⟩ := ends
  obtain ⟨before, split⟩ :=
    List.getLast?_eq_some_iff.mp (getLast?_of_ending? isLast)
  rw [split, List.map_append] at ascending
  intro entry member
  rw [split] at member
  rcases List.mem_append.mp member with earlier | isSame
  · have less := (List.pairwise_append.mp ascending).2.2 entry.value
      (List.mem_map_of_mem earlier) last.value (by simp)
    rw [TransCmp.lt_of_lt_of_eq less equal]
    rfl
  · rw [List.mem_singleton.mp isSame, equal]
    rfl

theorem Ends.exceeded {value : α} (ends : shape.Ends answer separator)
    (beyond : ∀ entry ∈ shape.entries, answer entry.value value = .lt) :
    answer separator.value value = .lt := by
  obtain ⟨last, isLast, equal, _⟩ := ends
  have member := List.mem_of_getLast? (getLast?_of_ending? isLast)
  exact TransCmp.lt_of_eq_of_lt (OrientedCmp.eq_symm equal) (beyond last member)

theorem Ends.exceeds {value : α} (ends : shape.Ends answer separator)
    (beyond : ∀ entry ∈ shape.entries, answer entry.value value = .gt) :
    answer separator.value value = .gt := by
  obtain ⟨last, isLast, equal, _⟩ := ends
  have member := List.mem_of_getLast? (getLast?_of_ending? isLast)
  exact TransCmp.gt_of_eq_of_gt (OrientedCmp.eq_symm equal) (beyond last member)

theorem lined_cons_iff (more : children ≠ []) :
    Lined answer root limits (child :: children) (separator :: separators) ↔
      (∀ lower, limits.lower = some lower →
        answer separator.value lower = .gt) ∧
      child.Obeys answer root { limits with upper := some separator } ∧
      Lined answer root { limits with lower := some separator.value }
        children separators := by
  have last : (child :: children).getLast? = children.getLast? := by
    rw [List.getLast?_cons, List.getLast?_eq_some_getLast more]
    rfl
  constructor
  · intro lined
    have ends : child.Ends answer separator :=
      lined.parted (child, separator) (by simp)
    have ascending := lined.ascending
    rw [List.flatMap_cons, List.map_append] at ascending
    obtain ⟨isChild, isRest, apart⟩ := List.pairwise_append.mp ascending
    refine ⟨fun lower isLower => ?_, ⟨?_, isChild, ?_, ?_⟩, ?_, isRest, ?_, ?_, ?_⟩
    · exact ends.exceeds fun entry member =>
        lined.above lower isLower entry (by simp [member])
    · exact lined.regular child (by simp)
    · exact fun lower isLower entry member =>
        lined.above lower isLower entry (by simp [member])
    · rintro upper isUpper
      obtain rfl := Option.some.inj isUpper
      exact ends
    · exact fun other member => lined.regular other (by simp [member])
    · rintro lower isLower entry member
      obtain rfl := Option.some.inj isLower
      refine OrientedCmp.gt_of_lt (ends.exceeded fun other isOther => ?_)
      exact apart other.value (List.mem_map_of_mem isOther) entry.value
        (List.mem_map_of_mem member)
    · exact fun pair member => lined.parted pair (by simp [member])
    · rw [← last]
      exact lined.reaches
  · rintro ⟨beyond, obeys, rest⟩
    have ends := obeys.reaches separator rfl
    have greater : ∀ entry ∈ children.flatMap entries,
        answer entry.value separator.value = .gt := rest.above _ rfl
    refine ⟨?_, ?_, ?_, ?_, ?_⟩
    · exact List.forall_mem_cons.mpr ⟨obeys.regular, rest.regular⟩
    · rw [List.flatMap_cons, List.map_append]
      refine List.pairwise_append.mpr ⟨obeys.ascending, rest.ascending, ?_⟩
      simp only [List.forall_mem_map]
      intro left isLeft right isRight
      exact TransCmp.lt_of_isLE_of_lt (ends.bounds obeys.ascending left isLeft)
        (OrientedCmp.lt_of_gt (greater right isRight))
    · intro lower isLower entry member
      rw [List.flatMap_cons] at member
      rcases List.mem_append.mp member with inChild | inRest
      · exact obeys.above lower isLower entry inChild
      · exact TransCmp.gt_trans (greater entry inRest) (beyond lower isLower)
    · rw [List.zip_cons_cons]
      exact List.forall_mem_cons.mpr ⟨ends, rest.parted⟩
    · rw [last]
      exact rest.reaches

end

end Subtree

open Subtree

namespace Limits

/-- What the list of one node tells about the limits. -/
structure Admits (answer : α → α → Ordering) (limits : Limits α)
    (entries : List (Entry α)) (isLeaf : Bool) : Prop where
  above : ∀ lower first, limits.lower = some lower →
    entries.head? = some first → answer first.value lower = .gt
  below : ∀ upper last, limits.upper = some upper →
    entries.getLast? = some last → answer last.value upper.value ≠ .gt ∧
      (isLeaf = true → answer last.value upper.value ≠ .lt)

def among (limits : Limits α) :
    List (Shape α) → List (Entry α) → List (Shape α × Limits α)
  | [], _ => []
  | child :: children, [] => (child, limits) :: among limits children []
  | child :: children, separator :: separators =>
      (child, { limits with upper := some separator }) ::
        among { limits with lower := some separator.value } children separators

theorem childLimits_eq (limits : Limits α) (children : List (Shape α))
    (separators : List (Entry α)) :
    Tree.childLimits limits (children.map Subtree.id) separators =
      (limits.among children separators).map fun pair =>
        (pair.1.id, pair.2) := by
  induction children generalizing limits separators with
  | nil => rfl
  | cons child children induction =>
      cases separators with
      | nil => simp [Tree.childLimits, among, induction]
      | cons separator separators => simp [Tree.childLimits, among, induction]

theorem map_fst_among (limits : Limits α) (children : List (Shape α))
    (separators : List (Entry α)) :
    (limits.among children separators).map Prod.fst = children := by
  induction children generalizing limits separators with
  | nil => rfl
  | cons child children induction =>
      cases separators with
      | nil => simp [among, induction]
      | cons separator separators => simp [among, induction]

theorem flatMap_among {β : Type} (limits : Limits α)
    (children : List (Shape α)) (separators : List (Entry α))
    (read : Shape α → List β) :
    (limits.among children separators).flatMap (fun item => read item.1) =
      children.flatMap read := by
  have same := limits.map_fst_among children separators
  rw [← congrArg (List.flatMap read) same, List.flatMap_map]

end Limits

namespace Subtree

section

variable {answer : α → α → Ordering} [Std.TransCmp answer] {root : NodeId}
  {limits : Limits α} {list : EntryList α} {separator : Entry α}
  {children : List (Shape α)} {separators : List (Entry α)} {id : NodeId}
  {payload : Option (EntryList α)}

open Std

private theorem upper_of_lined {upper : Entry α}
    (lined : Lined answer root
      { limits with lower := some separator.value } children separators)
    (isUpper : limits.upper = some upper) :
    answer separator.value upper.value = .lt := by
  obtain ⟨child, isLast, ends⟩ := lined.reaches upper isUpper
  refine OrientedCmp.lt_of_gt (ends.exceeds fun entry member => ?_)
  exact lined.above _ rfl entry
    (List.mem_flatMap.mpr ⟨child, List.mem_of_getLast? isLast, member⟩)

private theorem admits_tail
    (ascending : Ascending answer
      ((separator :: separators).map Entry.value))
    (admits : limits.Admits answer (separator :: separators) false) :
    Limits.Admits answer { limits with lower := some separator.value }
      separators false := by
  constructor
  · intro lower first isLower isFirst
    obtain rfl := Option.some.inj isLower
    have less := (List.pairwise_cons.mp ascending).1 first.value
      (List.mem_map_of_mem (List.mem_of_head? isFirst))
    exact OrientedCmp.gt_of_lt less
  · intro upper last isUpper isLast
    apply admits.below upper last isUpper
    rw [List.getLast?_cons, isLast]
    rfl

private theorem admits_cons
    (beyond : ∀ lower, limits.lower = some lower →
      answer separator.value lower = .gt)
    (admits : Limits.Admits answer { limits with lower := some separator.value }
      separators false)
    (lined : Lined answer root { limits with lower := some separator.value }
      children separators) :
    limits.Admits answer (separator :: separators) false := by
  constructor
  · intro lower first isLower isFirst
    obtain rfl := Option.some.inj isFirst
    exact beyond lower isLower
  · intro upper last isUpper isLast
    rw [List.getLast?_cons] at isLast
    cases isEnd : separators.getLast? with
    | some other =>
        obtain rfl : other = last := by simpa [isEnd] using isLast
        exact admits.below upper other isUpper isEnd
    | none =>
        obtain rfl : separator = last := by simpa [isEnd] using isLast
        rw [upper_of_lined lined isUpper]
        exact ⟨by decide, nofun⟩

/-- What a branch checks of itself, together with what its children obey. -/
theorem lined_iff_among (length : children.length = separators.length + 1)
    (ascending : Ascending answer (separators.map Entry.value)) :
    Lined answer root limits children separators ↔
      limits.Admits answer separators false ∧
        ∀ pair ∈ limits.among children separators,
          pair.1.Obeys answer root pair.2 := by
  induction separators generalizing limits children with
  | nil =>
      obtain ⟨child, rfl⟩ := List.length_eq_one_iff.mp length
      have admits : limits.Admits answer [] false := ⟨nofun, nofun⟩
      simp [lined_singleton, Limits.among, admits]
  | cons separator separators induction =>
      cases children with
      | nil => simp at length
      | cons child children =>
          have length : children.length = separators.length + 1 := by
            simpa using length
          have more : children ≠ [] := by
            rintro rfl
            simp at length
          have rest := @induction { limits with lower := some separator.value }
            children length (List.pairwise_cons.mp ascending).2
          rw [lined_cons_iff more, Limits.among, List.forall_mem_cons]
          constructor
          · rintro ⟨beyond, obeys, lined⟩
            obtain ⟨admits, each⟩ := rest.mp lined
            exact ⟨admits_cons beyond admits lined, obeys, each⟩
          · rintro ⟨admits, obeys, each⟩
            exact ⟨fun lower isLower => admits.above lower _ isLower rfl, obeys,
              rest.mpr ⟨admits_tail ascending admits, each⟩⟩

theorem obeys_branch_iff (inner : children ≠ []) :
    (node id (some list) children).Obeys answer root limits ↔
      Ascending answer (list.entries.map Entry.value) ∧
        children.length = list.length + 1 ∧
        limits.Admits answer list.entries false ∧
        ∀ pair ∈ limits.among children list.entries,
          pair.1.Obeys answer root pair.2 := by
  rw [obeys_iff_lined inner]
  constructor
  · rintro ⟨own, lined⟩
    have length : children.length = list.length + 1 := own.branched inner
    exact ⟨own.ascending, length,
      (lined_iff_among length own.ascending).mp lined⟩
  · rintro ⟨ascending, length, below⟩
    have lined := (lined_iff_among length ascending).mpr below
    exact ⟨⟨by simp, ascending, fun none => absurd none inner, fun _ => length,
      lined.parted⟩, lined⟩

private theorem above_of_first {lower : α} {entries : List (Entry α)}
    (ascending : Ascending answer (entries.map Entry.value))
    (first : ∀ first, entries.head? = some first →
      answer first.value lower = .gt) :
    ∀ entry ∈ entries, answer entry.value lower = .gt := by
  cases entries with
  | nil => simp
  | cons head rest =>
      have isAbove := first head rfl
      refine List.forall_mem_cons.mpr ⟨isAbove, fun entry member => ?_⟩
      have less := (List.pairwise_cons.mp ascending).1 entry.value
        (List.mem_map_of_mem member)
      exact TransCmp.gt_trans (OrientedCmp.gt_of_lt less) isAbove

theorem obeys_leaf_iff :
    (node id (some list) []).Obeys answer root limits ↔
      Ascending answer (list.entries.map Entry.value) ∧
        (list.entries = [] → id = root) ∧
        limits.Admits answer list.entries true ∧
        ∀ upper, limits.upper = some upper →
          list.last?.map Entry.index = some upper.index := by
  constructor
  · intro obeys
    have own := obeys.regular (node id (some list) []) (by simp)
    refine ⟨own.ascending, ?_, ⟨?_, ?_⟩, ?_⟩
    · intro empty
      exact Classical.byContradiction fun other => own.filled rfl other empty
    · intro lower first isLower isFirst
      apply obeys.above lower isLower first
      rw [entries_leaf]
      exact List.mem_of_head? isFirst
    · intro upper last isUpper isLast
      obtain ⟨other, isOther, equal, _⟩ := obeys.reaches upper isUpper
      rw [ending?_leaf] at isOther
      obtain rfl := Option.some.inj (isLast.symm.trans isOther)
      rw [equal]
      exact ⟨by decide, fun _ => by decide⟩
    · intro upper isUpper
      obtain ⟨last, isLast, _, same⟩ := obeys.reaches upper isUpper
      rw [ending?_leaf] at isLast
      rw [EntryList.last?, isLast, ← same]
      rfl
  · rintro ⟨ascending, filled, admits, same⟩
    refine ⟨?_, by rwa [entries_leaf], fun lower isLower => ?_, ?_⟩
    · rw [parts_node]
      refine List.forall_mem_cons.mpr ⟨⟨by simp, ascending, ?_, ?_, ?_⟩, by simp⟩
      · exact fun _ other empty => other (filled empty)
      · exact fun inner => absurd rfl inner
      · simp
    · rw [entries_leaf]
      exact above_of_first ascending fun first isFirst =>
        admits.above lower first isLower isFirst
    · intro upper isUpper
      obtain ⟨last, isLast, isSame⟩ :=
        Option.map_eq_some_iff.mp (same upper isUpper)
      obtain ⟨notGreater, notLess⟩ := admits.below upper last isUpper isLast
      refine ⟨last, by rw [ending?_leaf]; exact isLast, ?_, isSame⟩
      cases outcome : answer last.value upper.value with
      | lt => exact absurd outcome (notLess rfl)
      | eq => rfl
      | gt => exact absurd outcome notGreater

end

end Subtree

end LinkedBTree
