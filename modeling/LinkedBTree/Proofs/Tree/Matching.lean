import LinkedBTree.Proofs.Asking
import LinkedBTree.Proofs.Tree.Descent
import LinkedBTree.Proofs.Tree.Reachable

namespace LinkedBTree

/-! Comparing a value with the list of one node, in a tree whose lists may be in
any disorder: what is compared, where it stops, and which child stands there. -/

variable {α β σ : Type}

def ending (after : σ) : Except Error β → EStateM.Result Error σ β
  | .ok result => .ok result after
  | .error error => .error error after

/-- What comes of a call depends on the two values alone. -/
def Comparator.Settled (compare : Comparator σ α)
    (answer : α → α → Except Error Ordering) : Prop :=
  ∀ left right state, ∃ after,
    compare left right state = ending after (answer left right)

theorem Comparator.settled_answering (answer : α → α → Ordering) :
    (answering answer).Settled fun left right => .ok (answer left right) :=
  fun _ _ state => ⟨state, rfl⟩

def goesOn : Except Error Ordering → Bool
  | .ok .gt => true
  | _ => false

/-- The first of `entries` that the value with these answers does not pass; their
number if it passes all. -/
def stopAmong (answer : α → Except Error Ordering) (entries : List (Entry α)) : Nat :=
  entries.findIdx fun entry => !goesOn (answer entry.value)

/-- The match at `position` of the list of `id`, where comparing came to this;
at the end of the list there was nothing to compare with. -/
def matchAt (id : NodeId) (children : List NodeId) (position : Nat) :
    Option (Except Error Ordering) → Except Error Match
  | some (.error error) =>
      .error (.context s!"unable to compare against element {position} of {id}" error)
  | some (.ok .eq) => .ok (.exact position)
  | _ => .ok (.descend children[position]? position)

def callsWith (value : α) (entries : List (Entry α)) : List (α × α) :=
  entries.map fun entry => (value, entry.value)

theorem Comparator.traced_ending {compare : Comparator σ α} {left right : α}
    {state after : σ} {outcome : Except Error Ordering}
    (called : compare left right state = ending after outcome) (log : CallLog α) :
    compare.traced left right (state, log) =
      ending (after, log.push (left, right)) outcome := by
  unfold traced
  simp only [called]
  cases outcome <;> rfl

theorem stopAmong_le (answer : α → Except Error Ordering) (entries : List (Entry α)) :
    stopAmong answer entries ≤ entries.length :=
  List.findIdx_le_length

theorem goesOn_eq_false {outcome : Except Error Ordering} (not : outcome ≠ .ok .gt) :
    goesOn outcome = false := by
  unfold goesOn
  split
  · exact (not rfl).elim
  · rfl

section

variable {answer : α → Except Error Ordering} {entry : Entry α} {rest : List (Entry α)}

theorem stopAmong_here (stops : goesOn (answer entry.value) = false) :
    stopAmong answer (entry :: rest) = 0 := by
  simp [stopAmong, List.findIdx_cons, stops]

theorem stopAmong_later (passes : answer entry.value = .ok .gt) :
    stopAmong answer (entry :: rest) = stopAmong answer rest + 1 := by
  simp [stopAmong, List.findIdx_cons, passes, goesOn]

end

namespace Tree

section

variable {tree : Tree α} {kids : NodeId → List NodeId} {compare : Comparator σ α}
  {answer : α → α → Except Error Ordering} {id : NodeId} {value : α}
  {entry : Entry α} {state after : σ}

private theorem matchEntries_stops {outcome : Except Error Ordering}
    (called : compare value entry.value state = ending after outcome)
    (stops : goesOn outcome = false) (rest : List (Entry α)) (position : Nat)
    (children : List NodeId) :
    tree.matchEntries id value compare (entry :: rest) position children[position]?
        state =
      ending after (matchAt id children position (some outcome)) := by
  simp only [matchEntries, run_bind, run_within, called]
  cases outcome with
  | error error => rfl
  | ok ordering =>
      cases ordering with
      | lt => rfl
      | eq => rfl
      | gt => cases stops

private theorem matchEntries_passes (forest : tree.arena.Forest kids)
    (called : compare value entry.value state = .ok .gt after) (rest : List (Entry α))
    (position : Nat) :
    tree.matchEntries id value compare (entry :: rest) position (kids id)[position]?
        state =
      tree.matchEntries id value compare rest (position + 1) (kids id)[position + 1]?
        after := by
  simp only [matchEntries, run_bind, run_within, called, run_lift,
    nextSibling_eq forest id position]

/-- From any position on: whichever entry is reached, the child that stands beside
it is reached with it. -/
private theorem matchEntries_ends (forest : tree.arena.Forest kids)
    (settled : compare.Settled answer) (id : NodeId) (value : α)
    (entries : List (Entry α)) (position : Nat) (state : σ) :
    let stop := stopAmong (answer value) entries
    let outcome := matchAt id (kids id) (position + stop)
      (entries[stop]?.map fun entry => answer value entry.value)
    ∃ after,
      tree.matchEntries id value compare entries position (kids id)[position]? state =
        ending after outcome ∧
      ∀ log : CallLog α, tree.matchEntries id value compare.traced entries position
          (kids id)[position]? (state, log) =
        ending (after, log ++ (callsWith value (entries.take (stop + 1))).toArray)
          outcome := by
  induction entries generalizing position state with
  | nil => exact ⟨state, rfl, fun log => by simp [callsWith]; rfl⟩
  | cons entry rest induction =>
      obtain ⟨between, called⟩ := settled value entry.value state
      have traced := Comparator.traced_ending called
      by_cases passes : answer value entry.value = .ok .gt
      · rw [passes] at called traced
        obtain ⟨after, runs, logs⟩ := induction (position + 1) between
        rw [stopAmong_later passes]
        refine ⟨after, ?_, fun log => ?_⟩
        · rw [matchEntries_passes forest called, runs]
          simp [Nat.add_assoc, Nat.add_comm 1]
        · rw [matchEntries_passes forest (traced log), logs]
          simp [callsWith, Nat.add_assoc, Nat.add_comm 1]
      · have stops := goesOn_eq_false passes
        rw [stopAmong_here stops]
        refine ⟨between, ?_, fun log => ?_⟩
        · exact matchEntries_stops called stops rest position (kids id)
        · rw [matchEntries_stops (traced log) stops]
          simp [callsWith]

private theorem matchNode_eq (forest : tree.arena.Forest kids) {list : EntryList α}
    (listed : tree.list id = .ok list) (value : α) (compare : Comparator σ α) :
    tree.matchNode id value compare =
      if kids id ≠ [] ∧ (kids id).length ≠ list.length + 1 then
        raise (.separatorMismatch id (kids id).length list.length)
      else
        tree.matchEntries id value compare list.entries 0 (kids id)[0]? := by
  obtain ⟨node, read, isList⟩ := bind_eq_ok.mp listed
  have found := (Arena.read_eq_ok_iff ..).mp read
  funext state
  rw [matchNode, run_lift_bind read, matchIn, run_lift_bind isList,
    forest.childCount found, forest.firstChild found, List.head?_eq_getElem?]
  simp only [ne_eq, List.length_eq_zero_iff]
  split <;> rfl

private theorem stop_lt_children {children : List NodeId} {list : EntryList α}
    (fits : children = [] ∨ children.length = list.length + 1)
    (answer : α → Except Error Ordering) :
    children = [] ∨ stopAmong answer list.entries < children.length := by
  refine fits.imp_right fun counted => ?_
  rw [counted]
  exact Nat.lt_succ_of_le (stopAmong_le answer list.entries)

private theorem calls_of_failed {children : List NodeId} {list : EntryList α}
    {answer : α → Except Error Ordering} {error : Error} {final : σ}
    {log : CallLog α} {start : σ × CallLog α}
    (failed : ending (final, log ++ (callsWith value
        (list.entries.take (stopAmong answer list.entries + 1))).toArray)
      (matchAt id children (stopAmong answer list.entries)
        (list.entries[stopAmong answer list.entries]?.map
          fun entry => answer entry.value)) = .error error start) :
    start.2 ≠ log := by
  cases entries : list.entries with
  | nil =>
      rw [entries] at failed
      cases failed
  | cons entry rest =>
      intro same
      rw [entries] at failed
      have grown : start.2 = log ++ (callsWith value
          ((entry :: rest).take (stopAmong answer (entry :: rest) + 1))).toArray := by
        rw [← reached_error error start, ← failed]
        unfold ending
        split <;> rfl
      rw [same] at grown
      simp [callsWith] at grown

/-- On any live node with a list, in whatever disorder: the match fails for corruption
before it compares exactly if the node has children, but not one more than its list has
entries. Otherwise it compares with the entries in turn up to the first that is not
passed, and the outcome is read off there, with the child that stands at the same
position; for a leaf there is none. -/
theorem matchNode_stops_at_first (forest : tree.arena.Forest kids)
    {list : EntryList α} (listed : tree.list id = .ok list)
    (settled : compare.Settled answer) (value : α) (state : σ) (log : CallLog α) :
    ∃ children, tree.arena.children id = .ok children ∧
      ((∃ error, tree.matchNode id value compare.traced (state, log) =
            .error error (state, log) ∧ error.root.category = .corruption) ↔
        children ≠ [] ∧ children.length ≠ list.length + 1) ∧
      (children = [] ∨ children.length = list.length + 1 →
        let stop := stopAmong (answer value) list.entries
        let outcome := matchAt id children stop
          (list.entries[stop]?.map fun entry => answer value entry.value)
        (children = [] ∨ stop < children.length) ∧
        ∃ after, tree.matchNode id value compare state = ending after outcome ∧
          tree.matchNode id value compare.traced (state, log) =
            ending (after, log ++
              (callsWith value (list.entries.take (stop + 1))).toArray) outcome) := by
  obtain ⟨node, read, _⟩ := bind_eq_ok.mp listed
  have found := (Arena.read_eq_ok_iff ..).mp read
  have runs {σ : Type} (compare : Comparator σ α) :=
    matchNode_eq forest listed value compare
  obtain ⟨after, plain, traced⟩ :=
    matchEntries_ends forest settled id value list.entries 0 state
  rw [Nat.zero_add] at plain traced
  refine ⟨kids id, forest.children_eq found, ⟨?_, fun mismatch => ?_⟩, fun fits => ?_⟩
  · rintro ⟨error, failed, _⟩
    by_contra fits
    rw [runs, if_neg fits, traced log] at failed
    exact calls_of_failed failed rfl
  · rw [runs, if_pos mismatch]
    exact ⟨_, rfl, rfl⟩
  · have notMismatch : ¬(kids id ≠ [] ∧ (kids id).length ≠ list.length + 1) := by
      rintro ⟨some, mismatch⟩
      exact fits.elim some mismatch
    rw [runs, runs, if_neg notMismatch, if_neg notMismatch]
    exact ⟨stop_lt_children fits _, after, plain, traced log⟩

end

theorem matchNode_stops_at_first_altered :
    ∃ (start altered : Tree Nat) (kids : NodeId → List NodeId),
      withConfig { maxValues := 2, chunkSize := 1, nodeCapacity := 8 } = .ok start ∧
      ([Request.insert 5 (.answering compare) (), .insert 7 (.answering compare) ()].foldl
        perform start).setList ⟨0, 0⟩ ⟨[⟨3, 0⟩]⟩ = altered ∧
      altered.arena.Forest kids ∧ altered.list ⟨0, 0⟩ = .ok ⟨[⟨3, 0⟩]⟩ ∧
      (Comparator.answering (compare : Nat → Nat → Ordering)).Settled
        (fun left right => .ok (compare left right)) ∧
      altered.arena.children ⟨0, 0⟩ = .ok [⟨1, 0⟩, ⟨2, 0⟩] ∧
      altered.matchNode ⟨0, 0⟩ 5 (Comparator.answering compare).traced ((), #[]) =
        .ok (.descend (some ⟨2, 0⟩) 1) ((), #[(5, 3)]) := by
  have valid : ({ maxValues := 2, chunkSize := 1, nodeCapacity := 8 } :
      Config).Valid := by
    constructor <;> decide
  obtain ⟨start, created, shape, abides⟩ := @abides_withConfig Nat _ valid
  obtain ⟨_, abides⟩ := abides.history [
    .insert 5 (.answering compare) (), .insert 7 (.answering compare) ()]
  obtain ⟨_, kids, whole⟩ := abides.upright.embodies
  obtain ⟨altered, isAltered⟩ : ∃ altered,
      ([Request.insert 5 (.answering compare) (), .insert 7 (.answering compare) ()].foldl
        perform start).setList ⟨0, 0⟩ ⟨[⟨3, 0⟩]⟩ = altered := ⟨_, rfl⟩
  have forest : altered.arena.Forest kids :=
    isAltered ▸ whole.forest.modify_payload _ fun _ => some ⟨[⟨3, 0⟩]⟩
  obtain rfl := Except.ok.inj created
  have isList : altered.list ⟨0, 0⟩ = .ok ⟨[⟨3, 0⟩]⟩ := by
    rw [← isAltered]
    decide +kernel
  have isBelow : altered.arena.children ⟨0, 0⟩ = .ok [⟨1, 0⟩, ⟨2, 0⟩] := by
    rw [← isAltered]
    decide +kernel
  have settled := Comparator.settled_answering (compare : Nat → Nat → Ordering)
  obtain ⟨children, listed, _, runs⟩ :=
    matchNode_stops_at_first forest isList settled 5 () #[]
  obtain rfl := Except.ok.inj (listed.symm.trans isBelow)
  obtain ⟨_, _, _, traced⟩ := runs (.inr rfl)
  exact ⟨_, altered, kids, created, isAltered, forest, isList, settled, isBelow, traced⟩

end Tree

end LinkedBTree
