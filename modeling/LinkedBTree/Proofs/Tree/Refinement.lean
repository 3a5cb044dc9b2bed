import LinkedBTree.Proofs.OrderedSet
import LinkedBTree.Proofs.Tree.Reachable

namespace LinkedBTree.Tree

/-! Under a comparator that orders the values a tree is an ordered set. -/

variable {α σ : Type}

inductive Call (α : Type)
  | insert (value : α)
  | remove (value : α)
  | replace (old new : α)
  | split (id : NodeId)
  | get (value : α)
  | contains (value : α)
  | list

inductive Reply (α : Type)
  | inserted (result : InsertResult α)
  | removed (value : Option α)
  | replaced (value : α)
  | split
  | got (value : Option α)
  | contained (found : Bool)
  | listed (values : List α)
  deriving DecidableEq, Repr

abbrev Outcome (σ α : Type) : Type :=
  EStateM.Result Error (Tree α × σ) (Reply α)

def Outcome.told : Outcome σ α → Except Category (Reply α)
  | .ok reply _ => .ok reply
  | .error error _ => .error error.root.category

namespace Call

def act (compare : Comparator σ α) : Call α → Session σ (Tree α) (Reply α)
  | insert value => .inserted <$> Tree.insert value compare
  | remove value => .removed <$> Tree.remove value compare
  | replace old new => .replaced <$> Tree.replace old new compare
  | split id => (fun _ => .split) <$> Session.apply (Edit.split id)
  | get value => .got <$> Session.consult (·.get? value compare)
  | contains value => .contained <$> Session.consult (·.contains value compare)
  | list => .listed <$> Session.consult fun tree => liftM tree.inOrder

section

variable {answer : α → α → Ordering} [Std.TransCmp answer]

/-- What a set replies, and what becomes of it. -/
def expected (set : OrderedSet answer) :
    Call α → Except Category (Reply α × OrderedSet answer)
  | insert value => .ok ((set.insert value).map .inserted id)
  | remove value => .ok ((set.remove value).map .removed id)
  | replace old new => (Prod.map .replaced id) <$> set.replace old new
  | split _ => .ok (.split, set)
  | get value => .ok (.got (set.find? value), set)
  | contains value => .ok (.contained (set.find? value).isSome, set)
  | list => .ok (.listed set.members, set)

/-- Failures that a set knows nothing of: there are too few nodes left to split the
leaf that a value not in the set belongs into, or the one to be split, or there is
no leaf with that handle. -/
def Refused (tree : Tree α) (set : OrderedSet answer) : Call α → Cause → Prop
  | insert value, what => set.find? value = none ∧ ∃ leaf element list,
      tree.locate value (.answering answer) () = .ok (.gap leaf element) () ∧
      tree.list leaf = .ok list ∧
      tree.config.OutOfNodes tree.arena.liveCount list.length ∧
      what = .arenaExhausted tree.config.nodeCapacity
  | split id, what =>
      (tree.arena.contains id = false ∧ what = .stale id) ∨
      (∃ children, tree.arena.children id = .ok children ∧ children ≠ [] ∧
        what = .notALeaf id children.length) ∨
      ∃ list, tree.arena.children id = .ok [] ∧ tree.list id = .ok list ∧
        tree.config.LacksLeaves tree.arena.liveCount list.length ∧
        what = .arenaExhausted tree.config.nodeCapacity
  | _, _ => False

/-- The outcome is that of the set, or a failure that leaves the set alone:
the comparator's own, one the set has too, or one that it knows nothing of. -/
def Conforms (compare : Comparator σ α) (tree : Tree α) (set next : OrderedSet answer)
    (call : Call α) : Outcome σ α → Prop
  | .ok reply _ => call.expected set = .ok (reply, next)
  | .error error (_, state) => next = set ∧
      (compare.Raises error.root state ∨
        call.expected set = .error error.root.category ∨
        call.Refused tree set error.root)

end

/-- The outcomes of calls made one after another, each going on from what the
one before has left. -/
def outcomes (compare : Comparator σ α) :
    List (Call α) → Tree α × σ → List (Outcome σ α)
  | [], _ => []
  | call :: rest, start =>
      call.act compare start ::
        outcomes compare rest (reached (call.act compare start))

end Call

inductive Follows {answer : α → α → Ordering} [Std.TransCmp answer]
    (compare : Comparator σ α) : Tree α → OrderedSet answer → List (Call α) →
      List (Outcome σ α) → Prop
  | nil {tree : Tree α} {set : OrderedSet answer} : Follows compare tree set [] []
  | cons {tree : Tree α} {set next : OrderedSet answer} {call : Call α}
      {rest : List (Call α)} {outcome : Outcome σ α} {outcomes : List (Outcome σ α)} :
      call.Conforms compare tree set next outcome →
      Follows compare (reached outcome).1 next rest outcomes →
      Follows compare tree set (call :: rest) (outcome :: outcomes)

/-- The leaves hold the members of the set. -/
structure Represents (tree : Tree α) {answer : α → α → Ordering}
    (set : OrderedSet answer) : Prop where
  standing : ∃ shape, tree.Standing shape ∧
    set.members = shape.entries.map Entry.value
  arrivals : set.arrivals = tree.values.size

open Subtree

section

variable {answer : α → α → Ordering} {compare : Comparator σ α}
  {tree : Tree α} {shape : Shape α} {set : OrderedSet answer} {value : α}
  {left right : List (Entry α)} {entry : Entry α}

theorem between_iff_fits : Between answer value left right ↔
    fits answer value (left.map Entry.value) (right.map Entry.value) := by
  rw [fits_iff, List.getLast?_map, List.head?_map]
  unfold Between
  cases left.getLast? <;> cases right.head? <;> simp

variable [Std.TransCmp answer]

private theorem cut_of_gap (standing : tree.Standing shape)
    (same : set.members = shape.entries.map Entry.value)
    (gap : Gap answer value shape left right) :
    set.members = left.map Entry.value ++ right.map Entry.value ∧
      Cut answer value (left.map Entry.value) (right.map Entry.value) := by
  have split : set.members = left.map Entry.value ++ right.map Entry.value := by
    rw [same, gap.entries_eq, List.map_append]
  have ascending := set.ascending
  rw [split] at ascending
  obtain ⟨isLeft, isRight, _⟩ := List.pairwise_append.mp ascending
  exact ⟨split, cut_of_fits isLeft isRight
    (between_iff_fits.mp (between_of_gap standing gap))⟩

private theorem cut_of_entry
    (same : set.members = shape.entries.map Entry.value)
    (split : shape.entries = left ++ entry :: right)
    (equal : answer value entry.value = .eq) :
    set.members = left.map Entry.value ++ entry.value :: right.map Entry.value ∧
      Cut answer value (left.map Entry.value) (right.map Entry.value) := by
  have split : set.members =
      left.map Entry.value ++ entry.value :: right.map Entry.value := by
    rw [same, split, List.map_append, List.map_cons]
  have ascending := set.ascending
  rw [split] at ascending
  exact ⟨split, cut_of_equal ascending equal⟩

private def Answered (compare : Comparator σ α) (tree : Tree α) (set : OrderedSet answer)
    (call : Call α) (outcome : Outcome σ α) : Prop :=
  ∃ next, call.Conforms compare tree set next outcome ∧
    (reached outcome).1.Represents next

variable {config : Config} {reachable : Shape α}
  (abides : tree.Abides config reachable) (valid : config.Valid)

include abides valid in
private theorem act_insert (represents : tree.Represents set)
    (steady : compare.Steady answer) (value : α) (state : σ) :
    Answered compare tree set (.insert value)
      ((Call.insert value).act compare (tree, state)) := by
  obtain ⟨⟨shape, standing, same⟩, arrivals⟩ := represents
  rw [Call.act, run_map]
  rcases insert_cases standing steady value state with
    ⟨entry, after, done, member, equal⟩ |
    ⟨left, right, arena, final, after, done, gap, stands, entries⟩ |
    ⟨path, leaf, front, back, error, arena, after, failed, stands, cause, crowded⟩ |
    ⟨error, after, failed, raised⟩
  · obtain ⟨left, right, split⟩ := List.append_of_mem member
    obtain ⟨parted, cut⟩ := cut_of_entry same split equal
    rw [done]
    refine ⟨set, ?_, ⟨shape, standing, same⟩, arrivals⟩
    simp only [Call.Conforms, Call.expected,
      OrderedSet.insert_present cut equal parted]
    rfl
  · obtain ⟨parted, cut⟩ := cut_of_gap standing same gap
    obtain ⟨next, inserted, isNext, count⟩ :=
      OrderedSet.insert_absent cut parted
    rw [done]
    refine ⟨next, ?_, ⟨final, stands, ?_⟩, ?_⟩
    · simp only [Call.Conforms, Call.expected, inserted, arrivals]
      rfl
    · rw [isNext, entries, List.map_append, List.map_cons]
    · rw [count, arrivals]
      exact (ValueTable.size_push tree.values value).symm
  · obtain ⟨parted, cut⟩ := cut_of_gap standing same crowded.gap
    obtain ⟨_, located, rfl⟩ :=
      (locate_alike standing.upright value (.answering answer)).of_ok crowded.descended
    have embodies := standing.embodies
    rw [crowded.whole] at embodies
    have isLength : (⟨front ++ ⟨value, tree.values.size⟩ :: back⟩ : EntryList α).length =
        (⟨front ++ back⟩ : EntryList α).length + 1 := by
      simp only [EntryList.length, List.length_append, List.length_cons, Nat.add_assoc]
    have lacking := (abides.not_room_iff valid.chunkSize_pos isLength).mp crowded.none
    rw [failed]
    refine ⟨set, ⟨rfl, .inr (.inr ⟨OrderedSet.find?_absent cut parted, leaf, front.length,
      _, located, embodies.list_eq, ?_, ?_⟩)⟩, ⟨shape, stands, same⟩, arrivals⟩
    · rwa [abides.config]
    · rw [abides.config, ← abides.capacity]
      exact cause
  · rw [failed]
    exact ⟨set, ⟨rfl, .inl raised⟩, ⟨shape, standing, same⟩, arrivals⟩

private theorem act_remove (represents : tree.Represents set)
    (steady : compare.Steady answer) (value : α) (state : σ) :
    Answered compare tree set (.remove value)
      ((Call.remove value).act compare (tree, state)) := by
  obtain ⟨⟨shape, standing, same⟩, arrivals⟩ := represents
  rw [Call.act, run_map]
  rcases remove_cases standing steady value state with
    ⟨left, entry, right, arena, final, after, done, split, equal, stands,
      entries⟩ |
    ⟨left, right, after, done, gap⟩ | ⟨error, after, failed, raised⟩
  · obtain ⟨parted, cut⟩ := cut_of_entry same split equal
    obtain ⟨next, removed, isNext, count⟩ :=
      OrderedSet.remove_present cut equal parted
    rw [done]
    refine ⟨next, ?_, ⟨final, stands, ?_⟩, ?_⟩
    · simp only [Call.Conforms, Call.expected, removed]
      rfl
    · rw [isNext, entries, List.map_append]
    · rw [count, arrivals]
      exact Array.size_setIfInBounds.symm
  · obtain ⟨parted, cut⟩ := cut_of_gap standing same gap
    rw [done]
    refine ⟨set, ?_, ⟨shape, standing, same⟩, arrivals⟩
    simp only [Call.Conforms, Call.expected,
      OrderedSet.remove_absent cut parted]
    rfl
  · rw [failed]
    exact ⟨set, ⟨rfl, .inl raised⟩, ⟨shape, standing, same⟩, arrivals⟩

private theorem act_replace (represents : tree.Represents set)
    (steady : compare.Steady answer) (old new : α) (state : σ) :
    Answered compare tree set (.replace old new)
      ((Call.replace old new).act compare (tree, state)) := by
  obtain ⟨⟨shape, standing, same⟩, arrivals⟩ := represents
  rw [Call.act, run_map]
  rcases replace_cases standing steady old new state with
    ⟨left, entry, right, arena, final, after, done, split, equal, between, stands,
      entries⟩ |
    ⟨error, after, failed, cause⟩
  · obtain ⟨parted, cut⟩ := cut_of_entry same split equal
    obtain ⟨next, replaced, isNext, count⟩ :=
      OrderedSet.replace_present cut equal parted (between_iff_fits.mp between)
    rw [done]
    refine ⟨next, ?_, ⟨final, stands, ?_⟩, ?_⟩
    · simp only [Call.Conforms, Call.expected, replaced]
      rfl
    · rw [isNext, entries, List.map_append, List.map_cons]
    · rw [count, arrivals]
      exact Array.size_setIfInBounds.symm
  · rw [failed]
    refine ⟨set, ⟨rfl, cause.imp_right fun cause => .inl ?_⟩,
      ⟨shape, standing, same⟩, arrivals⟩
    rcases cause with ⟨missing, left, right, gap⟩ |
      ⟨misplaced, left, entry, right, split, equal, between⟩
    · obtain ⟨parted, cut⟩ := cut_of_gap standing same gap
      simp only [Call.expected, OrderedSet.replace_absent cut parted, missing]
      rfl
    · obtain ⟨parted, cut⟩ := cut_of_entry same split equal
      simp only [Call.expected, OrderedSet.replace_misplaced cut equal parted
        (between_iff_fits.not.mp between), misplaced]
      rfl

include abides valid in
private theorem act_split (represents : tree.Represents set) (id : NodeId)
    (state : σ) :
    Answered compare tree set (.split id)
      ((Call.split id).act compare (tree, state)) := by
  obtain ⟨⟨shape, standing, same⟩, arrivals⟩ := represents
  rw [Call.act, run_map, run_apply]
  rcases split_cases standing id with
    ⟨several, arena, final, done, stands, entries⟩ |
    ⟨error, arena, failed, stands, cause⟩
  · rw [done]
    exact ⟨set, rfl, ⟨final, stands, by rw [same, entries]⟩, arrivals⟩
  · rw [failed]
    refine ⟨set, ⟨rfl, .inr (.inr ?_)⟩, ⟨shape, stands, same⟩, arrivals⟩
    have embodies := standing.embodies
    obtain ⟨_, kids, whole⟩ := standing.embodies
    rcases cause with ⟨cause, dead⟩ | ⟨path, list, children, rfl, inner, cause⟩ |
      ⟨path, list, rfl, several, full, cause⟩
    · refine .inl ⟨?_, cause⟩
      exact Bool.eq_false_iff.mpr fun isLive => dead ((whole.contains_iff_mem id).mp isLive)
    · refine .inr (.inl ⟨_, embodies.children_eq, by simpa using inner, ?_⟩)
      rw [List.length_map]
      exact cause
    · refine .inr (.inr ⟨list, embodies.children_eq, embodies.list_eq, ?_, ?_⟩)
      · have lacking := abides.lacksLeaves_iff valid.chunkSize_pos list
        rw [abides.config] at several full ⊢
        exact lacking.mp ⟨several, full⟩
      · rw [abides.config, ← abides.capacity]
        exact cause

private theorem act_consult {β : Type} {query : Tree α → EStateM Error σ β}
    {reply : β → Reply α} {call : Call α} (represents : tree.Represents set)
    (isCall : call.act compare = reply <$> Session.consult query)
    (meets : Meets compare.Raises (query tree) fun result =>
      call.expected set = .ok (reply result, set)) (state : σ) :
    Answered compare tree set call (call.act compare (tree, state)) := by
  rw [isCall, run_map, run_consult]
  rcases meets.cases state with
    ⟨result, after, done, isExpected⟩ | ⟨error, after, failed, raised⟩
  · rw [done]
    exact ⟨set, isExpected, represents⟩
  · rw [failed]
    exact ⟨set, ⟨rfl, .inl raised⟩, represents⟩

include abides valid in
theorem Represents.act (represents : tree.Represents set)
    (steady : compare.Steady answer) (call : Call α) (state : σ) :
    ∃ next, call.Conforms compare tree set next (call.act compare (tree, state)) ∧
      (reached (call.act compare (tree, state))).1.Represents next := by
  have ⟨⟨shape, standing, same⟩, _⟩ := represents
  cases call with
  | insert value => exact act_insert abides valid represents steady value state
  | remove value => exact act_remove represents steady value state
  | replace old new => exact act_replace represents steady old new state
  | split id => exact act_split abides valid represents id state
  | get value =>
      refine act_consult represents rfl ?_ state
      refine (get?_meets standing steady value).weaken ?_ fun _ _ raised => raised
      intro found isFound
      cases found with
      | some stored =>
          obtain ⟨entry, member, rfl, equal⟩ := isFound
          obtain ⟨left, right, split⟩ := List.append_of_mem member
          obtain ⟨parted, cut⟩ := cut_of_entry same split equal
          rw [Call.expected, OrderedSet.find?_present cut equal parted]
      | none =>
          obtain ⟨left, right, gap⟩ := isFound
          obtain ⟨parted, cut⟩ := cut_of_gap standing same gap
          rw [Call.expected, OrderedSet.find?_absent cut parted]
  | contains value =>
      refine act_consult represents rfl ?_ state
      refine (contains_meets standing steady value).weaken ?_
        fun _ _ raised => raised
      intro found isFound
      cases found with
      | true =>
          obtain ⟨entry, member, equal⟩ := isFound
          obtain ⟨left, right, split⟩ := List.append_of_mem member
          obtain ⟨parted, cut⟩ := cut_of_entry same split equal
          rw [Call.expected, OrderedSet.find?_present cut equal parted]
          rfl
      | false =>
          obtain ⟨left, right, gap⟩ := isFound
          obtain ⟨parted, cut⟩ := cut_of_gap standing same gap
          rw [Call.expected, OrderedSet.find?_absent cut parted]
          rfl
  | list =>
      refine act_consult represents rfl ?_ state
      intro state
      rw [run_lift, inOrder_eq standing.upright, ← same]
      rfl

omit [Std.TransCmp answer] in
include abides in
theorem Abides.act (call : Call α) (state : σ) :
    ∃ final, (reached (call.act compare (tree, state))).1.Abides config final := by
  have stays {β : Type} (reply : β → Reply α) (query : Tree α → EStateM Error σ β) :
      ∃ final, (reached ((reply <$> Session.consult query) (tree, state))).1.Abides
        config final := by
    rw [reached_map, reached_consult]
    exact ⟨reachable, abides⟩
  cases call with
  | insert value =>
      rw [Call.act, reached_map]
      obtain ⟨final, abides, _⟩ := abides.insert value compare state
      exact ⟨final, abides⟩
  | remove value =>
      rw [Call.act, reached_map]
      obtain ⟨final, abides, _⟩ := abides.remove value compare state
      exact ⟨final, abides⟩
  | replace old new =>
      rw [Call.act, reached_map]
      obtain ⟨final, abides, _⟩ := abides.replace old new compare state
      exact ⟨final, abides⟩
  | split id =>
      rw [Call.act, reached_map, reached_apply]
      obtain ⟨final, abides, _⟩ := abides.split id
      exact ⟨final, abides⟩
  | get value => exact stays ..
  | contains value => exact stays ..
  | list => exact stays ..

include abides valid in
theorem Represents.follows (represents : tree.Represents set)
    (steady : compare.Steady answer) (calls : List (Call α)) (state : σ) :
    Follows compare tree set calls (Call.outcomes compare calls (tree, state)) := by
  induction calls generalizing tree set state reachable with
  | nil => exact .nil
  | cons call rest induction =>
      obtain ⟨next, conforms, stands⟩ := represents.act abides valid steady call state
      obtain ⟨final, stillAbides⟩ := abides.act call state
      exact .cons conforms (induction stillAbides stands _)

/-- From an empty tree on, all calls come out as they do on an ordered set. -/
theorem follows_ordered_set {config : Config} (valid : config.Valid)
    (steady : compare.Steady answer) :
    ∃ start : Tree α, withConfig config = .ok start ∧
      ∀ (calls : List (Call α)) (state : σ),
        Follows compare start (.empty : OrderedSet answer) calls
          (Call.outcomes compare calls (start, state)) := by
  obtain ⟨start, created, stands, isRoot, fresh, isConfig, setting⟩ :=
    @standing_withConfig α _ valid
  refine ⟨start, created, fun calls state => ?_⟩
  have abides : start.Abides config _ :=
    ⟨stands.upright, isRoot, congrArg Prod.fst setting, isConfig⟩
  have represents : start.Represents (.empty : OrderedSet answer) := by
    refine ⟨⟨_, stands, ?_⟩, ?_⟩
    · rw [entries_leaf]
      rfl
    · rw [fresh]
      rfl
  exact represents.follows abides valid steady calls state

end

def byFirst (left right : Nat × Nat) : Ordering :=
  compare left.1 right.1

instance : Std.TransCmp byFirst where
  eq_swap := by
    unfold byFirst
    exact Std.OrientedCmp.eq_swap
  isLE_trans := by
    unfold byFirst
    exact Std.TransCmp.isLE_trans

/-- Pairs by their first component, under a comparator that refuses its third
call, in an arena that has no room for a second split. -/
theorem follows_ordered_set_by_key :
    ({ maxValues := 2, chunkSize := 1, nodeCapacity := 4 } : Config).Valid ∧
      ∃ start : Tree (Nat × Nat),
        withConfig { maxValues := 2, chunkSize := 1, nodeCapacity := 4 } =
          .ok start ∧
        ∃ compare : Comparator Nat (Nat × Nat), compare.Steady byFirst ∧
          Follows compare start (.empty : OrderedSet byFirst)
            [.insert (5, 0), .insert (7, 0), .insert (5, 1), .insert (6, 0),
              .insert (6, 1), .replace (5, 2) (5, 3), .remove (7, 4), .get (5, 5), .list]
            (Call.outcomes compare
              [.insert (5, 0), .insert (7, 0), .insert (5, 1), .insert (6, 0),
                .insert (6, 1), .replace (5, 2) (5, 3), .remove (7, 4), .get (5, 5), .list]
              (start, 0)) ∧
          (Call.outcomes compare
              [.insert (5, 0), .insert (7, 0), .insert (5, 1), .insert (6, 0),
                .insert (6, 1), .replace (5, 2) (5, 3), .remove (7, 4), .get (5, 5), .list]
              (start, 0)).map Outcome.told =
            [.ok (.inserted (.inserted 0)), .ok (.inserted (.inserted 1)),
              .ok (.inserted (.existing (5, 0) (5, 1))), .error .comparison,
              .error .allocation, .ok (.replaced (5, 0)), .ok (.removed (some (7, 0))),
              .ok (.got (some (5, 3))), .ok (.listed [(5, 3)])] := by
  have valid : ({ maxValues := 2, chunkSize := 1, nodeCapacity := 4 } :
      Config).Valid := by
    constructor <;> decide
  let compare : Comparator Nat (Nat × Nat) := fun left right calls =>
    if calls = 2 then
      .error (.cause (.reported .comparison "refused")) (calls + 1)
    else
      .ok (byFirst left right) (calls + 1)
  have steady : compare.Steady byFirst := by
    intro left right calls result after done
    simp only [compare] at done
    split at done
    · cases done
    · exact (EStateM.Result.ok.inj done).1.symm
  obtain ⟨start, created, follows⟩ := follows_ordered_set valid steady
  refine ⟨valid, start, created, compare, steady, follows _ 0, ?_⟩
  obtain rfl := Except.ok.inj created
  decide +kernel

end LinkedBTree.Tree
