import LinkedBTree.Tree.Overwrite
import LinkedBTree.Proofs.Tree.Adjoining
import LinkedBTree.Proofs.Tree.Chunks

namespace LinkedBTree

/-! The values beside an entry: those beside it among all entries in order,
wherever the leaves that hold them hang. -/

variable {α β σ : Type}

open Subtree

namespace Side

def beside : Side → Frame α → List (Shape α)
  | left => Frame.before
  | right => Frame.after

def beyond : Side → List (Frame α) → List (Entry α)
  | left => leftOf
  | right => rightOf

variable {side : Side} {frame : Frame α} {path : List (Frame α)}
  {part child : Shape α} {children : List (Shape α)}

theorem edge?_eq (side : Side) (list : EntryList α) :
    side.edge? list = side.end? list.entries := by
  cases side <;> rfl

theorem beyond_cons_of_none (none : side.beside frame = []) :
    side.beyond (frame :: path) = side.beyond path := by
  cases side with
  | left =>
      have none : frame.before = [] := none
      simp [beyond, leftOf, none]
  | right =>
      have none : frame.after = [] := none
      simp [beyond, rightOf, none]

theorem end?_beyond_cons (isEnd : side.end? (side.beside frame) = some child)
    (filled : child.entries ≠ []) :
    side.end? (side.beyond (frame :: path)) = side.end? child.entries := by
  have ends := end?_flatMap isEnd filled
  obtain ⟨entry, isEntry⟩ : ∃ entry, side.end? child.entries = some entry :=
    Option.ne_none_iff_exists'.mp (end?_eq_none_iff.not.mpr filled)
  rw [isEntry] at ends ⊢
  cases side with
  | left =>
      have ends : (frame.before.flatMap entries).getLast? = some entry := ends
      simp [beyond, leftOf, end?, List.getLast?_append, ends]
  | right =>
      have ends : (frame.after.flatMap entries).head? = some entry := ends
      simp [beyond, rightOf, end?, List.head?_append, ends]

theorem beyond_eq (side : Side) (path : List (Frame α)) :
    side.beyond path = (side.among (tipsLeft path) (tipsRight path)).flatMap own := by
  cases side with
  | left => exact ((List.flatMap_def ..).trans (flatten_chunksLeft path)).symm
  | right => exact ((List.flatMap_def ..).trans (flatten_chunksRight path)).symm

end Side

namespace Tree

variable {tree : Tree α} {path : List (Frame α)} {part : Shape α}

private theorem end?_own {kids : NodeId → List NodeId} {shape tip : Shape α}
    {tips : List (Shape α)} {side : Side} (held : tree.arena.Holds kids shape)
    (formed : Formed shape) (within : tips ⊆ shape.tips) (isEnd : side.end? tips = some tip) :
    tree.list tip.id = .ok ⟨tip.own⟩ ∧
      side.end? tip.own = side.end? (tips.flatMap own) := by
  have isTip := within (Side.mem_of_end? isEnd)
  obtain ⟨_, list, rfl, filled⟩ := formed.of_tip isTip
  exact ⟨list_of_tip held formed isTip, (Side.end?_flatMap isEnd filled).symm⟩

theorem edgeLeaf_eq (side : Side) (formed : Formed part)
    (embodies : tree.Embodies (plug path part)) :
    ∃ leaf list, tree.edgeLeaf side part.id = .ok leaf ∧
      tree.list leaf = .ok list ∧
      side.end? list.entries = side.end? part.entries := by
  obtain ⟨_, kids, whole⟩ := embodies
  have held := whole.held_part
  obtain ⟨leaf, reached, isEnd⟩ := edgeLeaf_eq_ok whole.forest held side
  rw [Side.end?_map, Option.map_eq_some_iff] at isEnd
  obtain ⟨tip, isEnd, rfl⟩ := isEnd
  obtain ⟨isList, same⟩ := end?_own held formed (List.Subset.refl _) isEnd
  exact ⟨_, _, reached, isList, by rw [entries_eq_tips]; exact same⟩

theorem valueBeside_eq {leaf : NodeId} {list : EntryList α} (side : Side)
    (formed : Formed (plug path (.node leaf (some list) [])))
    (embodies : tree.Embodies (plug path (.node leaf (some list) []))) :
    tree.valueBeside side leaf = .ok ((side.end? (side.beyond path)).map Entry.value) := by
  obtain ⟨_, kids, whole⟩ := embodies
  have split : (plug path (.node leaf (some list) [])).tips.map Subtree.id =
      (tipsLeft path).map Subtree.id ++ leaf :: (tipsRight path).map Subtree.id := by
    rw [tips_plug, tips_leaf]
    simp
  have within : side.among (tipsLeft path) (tipsRight path) ⊆
      (plug path (.node leaf (some list) [])).tips := by
    intro tip member
    rw [tips_plug, tips_leaf, List.append_assoc]
    exact Side.mem_of_among member
  have beside := leafBeside_eq whole.forest whole.held whole.top split side
  rw [Side.among_map, Side.end?_map] at beside
  unfold valueBeside
  rw [bind_of_ok beside, Side.beyond_eq]
  cases isEnd : side.end? (side.among (tipsLeft path) (tipsRight path)) with
  | none =>
      rw [Side.end?_eq_none_iff.mp isEnd]
      cases side <;> rfl
  | some tip =>
      obtain ⟨isList, same⟩ := end?_own whole.held formed within isEnd
      simp only [Option.map_some]
      rw [bind_of_ok isList, ← same, Side.edge?_eq]
      rfl

section

variable {list : EntryList α} {front back : List (Entry α)} {entry : Entry α}
  {leaf : NodeId}

private theorem previous?_eq (split : list.entries = front ++ entry :: back)
    (inRange : front.length < list.length) :
    (⟨front.length, inRange⟩ : EntryList.Cursor list).previous?.map
      EntryList.Cursor.entry = front.getLast? := by
  obtain ⟨entries⟩ := list
  obtain rfl : entries = front ++ entry :: back := split
  cases isLast : front.getLast? with
  | none =>
      obtain rfl := List.getLast?_eq_none_iff.mp isLast
      rfl
  | some last =>
      obtain ⟨before, rfl⟩ := List.getLast?_eq_some_iff.mp isLast
      have length : (before ++ [last]).length = before.length + 1 := by simp
      simp only [length, EntryList.Cursor.previous?, Option.map_some,
        EntryList.Cursor.entry]
      simp

private theorem next?_eq (split : list.entries = front ++ entry :: back)
    (inRange : front.length < list.length) :
    (⟨front.length, inRange⟩ : EntryList.Cursor list).next?.map
      EntryList.Cursor.entry = back.head? := by
  obtain ⟨entries⟩ := list
  obtain rfl : entries = front ++ entry :: back := split
  unfold EntryList.Cursor.next?
  cases back with
  | nil => simp [EntryList.length]
  | cons next rest =>
      rw [dif_pos (by simp [EntryList.length])]
      simp [EntryList.Cursor.entry]

theorem neighbours_eq (split : list.entries = front ++ entry :: back)
    (formed : Formed (plug path (.node leaf (some list) [])))
    (embodies : tree.Embodies (plug path (.node leaf (some list) []))) :
    tree.neighbours leaf front.length =
      .ok ((leftOf path ++ front).getLast?.map Entry.value,
        (back ++ rightOf path).head?.map Entry.value) := by
  have inRange : front.length < list.length := by
    simp [EntryList.length, split]
  have isCursor : list.cursor front.length = .ok ⟨front.length, inRange⟩ := by
    unfold EntryList.cursor
    rw [dif_pos inRange]
    rfl
  have left := valueBeside_eq .left formed embodies
  have right := valueBeside_eq .right formed embodies
  have previous := previous?_eq split inRange
  have next := next?_eq split inRange
  unfold neighbours
  rw [bind_of_ok embodies.list_eq, bind_of_ok isCursor]
  generalize (⟨front.length, inRange⟩ : EntryList.Cursor list) = cursor
    at previous next
  rw [List.getLast?_append, List.head?_append, ← previous, ← next]
  cases cursor.previous? with
  | none =>
      simp only [left]
      cases cursor.next? with
      | none =>
          simp only [right]
          rfl
      | some following => rfl
  | some preceding =>
      cases cursor.next? with
      | none =>
          simp only [right]
          rfl
      | some following => rfl

def Between (answer : α → α → Ordering) (value : α)
    (before after : List (Entry α)) : Prop :=
  (∀ entry, before.getLast? = some entry → answer value entry.value = .gt) ∧
    ∀ entry, after.head? = some entry → answer value entry.value = .lt

def checkBetween (value : α) (compare : Comparator σ α)
    (before after : Option α) : EStateM Error σ Unit := do
  if let some before := before then
    if (← compare value before) ≠ .gt then
      raise .replacementTooLow
  if let some after := after then
    if (← compare value after) ≠ .lt then
      raise .replacementTooHigh

theorem checkFits_eq (split : list.entries = front ++ entry :: back)
    (formed : Formed (plug path (.node leaf (some list) [])))
    (embodies : tree.Embodies (plug path (.node leaf (some list) [])))
    (value : α) (compare : Comparator σ α) :
    tree.checkFits leaf front.length value compare = checkBetween value compare
      ((leftOf path ++ front).getLast?.map Entry.value)
      ((back ++ rightOf path).head?.map Entry.value) := by
  unfold checkFits
  rw [neighbours_eq split formed embodies]
  rfl

/-- A refusal has a reason: the comparator fails, or its answers put the value
elsewhere. -/
def Misfit (value : α) (compare : Comparator σ α)
    (before after : List (Entry α)) (what : Cause) (state : σ) : Prop :=
  compare.Raises what state ∨
    (what = .replacementTooLow ∨ what = .replacementTooHigh) ∧
    ∀ answer, compare.Steady answer → ¬Between answer value before after

private theorem checkNext_meets (value : α) (compare : Comparator σ α)
    {before after : List (Entry α)}
    (low : ∀ answer, compare.Steady answer → ∀ entry,
      before.getLast? = some entry → answer value entry.value = .gt) :
    Meets (Misfit value compare before after)
      (do
        if let some next := after.head?.map Entry.value then
          if (← compare value next) ≠ .lt then
            raise .replacementTooHigh : EStateM Error σ Unit)
      fun _ => ∀ answer, compare.Steady answer →
        Between answer value before after := by
  cases isFirst : after.head? with
  | none =>
      refine .pure fun answer steady => ⟨low answer steady, fun _ first => ?_⟩
      cases isFirst.symm.trans first
  | some next =>
      apply ((Meets.asked compare value next.value).weaken
        (fun _ known => known) fun _ _ => .inl).bind
      intro ordering isAnswer
      by_cases less : ordering = .lt
      · rw [if_neg (not_not_intro less)]
        refine .pure fun answer steady => ⟨low answer steady, fun _ first => ?_⟩
        obtain rfl := Option.some.inj (isFirst.symm.trans first)
        rw [← isAnswer answer steady, less]
      · rw [if_pos less]
        refine .throw fun _ => .inr ⟨.inr rfl, fun answer steady between =>
          less ?_⟩
        rw [isAnswer answer steady, between.2 next isFirst]

theorem checkBetween_meets (value : α) (compare : Comparator σ α)
    (before after : List (Entry α)) :
    Meets (Misfit value compare before after)
      (checkBetween value compare (before.getLast?.map Entry.value)
        (after.head?.map Entry.value))
      fun _ => ∀ answer, compare.Steady answer →
        Between answer value before after := by
  unfold checkBetween
  cases isLast : before.getLast? with
  | none =>
      apply checkNext_meets
      intro answer steady _ last
      cases isLast.symm.trans last
  | some previous =>
      apply ((Meets.asked compare value previous.value).weaken
        (fun _ known => known) fun _ _ => .inl).bind
      intro ordering isAnswer
      by_cases greater : ordering = .gt
      · rw [if_neg (not_not_intro greater)]
        apply checkNext_meets
        intro answer steady _ last
        obtain rfl := Option.some.inj (isLast.symm.trans last)
        rw [← isAnswer answer steady, greater]
      · rw [if_pos greater]
        refine (Meets.throw fun _ => .inr ⟨.inl rfl, ?_⟩).bind
          fun _ (never : False) => never.elim
        intro answer steady between
        rw [isAnswer answer steady, between.1 previous isLast] at greater
        exact greater rfl

end

end Tree

end LinkedBTree
