import LinkedBTree.Proofs.Tree.Endings

namespace LinkedBTree

/-! What each operation makes of a standing tree, whatever the comparator
answers. -/

variable {α σ : Type}

open Subtree

/-- The place between `left` and `right` that the answers lead to. -/
def Gap (answer : α → α → Ordering) (value : α) (shape : Shape α)
    (left right : List (Entry α)) : Prop :=
  ∃ path leaf list front back,
    shape = plug path (.node leaf (some list) []) ∧
    list.entries = front ++ back ∧
    left = leftOf path ++ front ∧ right = back ++ rightOf path ∧
    (∀ frame ∈ path, frame.Routed answer value) ∧
    Above answer value front ∧
    ∀ entry, back.head? = some entry → answer value entry.value = .lt

theorem Gap.entries_eq {answer : α → α → Ordering} {value : α}
    {shape : Shape α} {left right : List (Entry α)}
    (gap : Gap answer value shape left right) :
    shape.entries = left ++ right := by
  obtain ⟨path, leaf, list, front, back, rfl, split, rfl, rfl, _⟩ := gap
  simp [entries_plug, split]

theorem Landed.exists_gap {value : α} {compare : Comparator σ α}
    {pastEqual : Bool} {shape : Shape α} {path : List (Frame α)} {leaf : NodeId}
    {children : List (Shape α)} {front back : List (Entry α)}
    {answer : α → α → Ordering} (landed : Landed value compare pastEqual shape
      ⟨path, leaf, children, .before front back⟩)
    (steady : compare.Steady answer) :
    Gap answer value shape (leftOf path ++ front) (back ++ rightOf path) := by
  have told := landed.told answer steady
  exact ⟨path, leaf, _, front, back, landed.gap, rfl, rfl, rfl,
    landed.routed answer steady, told.1, told.2⟩

private theorem last_of_routed {answer : α → α → Ordering} {value : α}
    {path : List (Frame α)} {part : Shape α} {entry : Entry α}
    (sound : Sound (plug path part))
    (routed : ∀ frame ∈ path, frame.Routed answer value)
    (last : part.ending? = some entry)
    (greater : answer value entry.value = .gt) :
    ∀ frame ∈ path, frame.after = [] := by
  induction path generalizing part with
  | nil => exact fun _ member => (nomatch member)
  | cons frame path induction =>
      have whole : Sound (frame.close part) := Sound.of_plug sound
      have isLast : frame.after = [] := by
        apply Classical.byContradiction
        intro inner
        have bound := whole.separators_eq.2 inner
        rw [last] at bound
        exact (routed frame (by simp)).bounded entry bound greater
      refine List.forall_mem_cons.mpr ⟨isLast, ?_⟩
      apply induction sound (fun other member => routed other (by simp [member]))
      rw [ending?_close_last isLast, last]

private theorem last_leftOf_of_routed {answer : α → α → Ordering} {value : α}
    {path : List (Frame α)} {part : Shape α} {entry : Entry α}
    (sound : Sound (plug path part))
    (routed : ∀ frame ∈ path, frame.Routed answer value)
    (last : (leftOf path).getLast? = some entry) :
    answer value entry.value = .gt := by
  induction path generalizing part with
  | nil => cases last
  | cons frame path induction =>
      have whole : Sound (frame.close part) := Sound.of_plug sound
      have last : Side.left.end? (Side.left.beyond (frame :: path)) =
        some entry := last
      cases isEnd : Side.left.end? (Side.left.beside frame) with
      | none =>
          rw [Side.beyond_cons_of_none (Side.end?_eq_none_iff.mp isEnd)] at last
          exact induction sound (fun other member => routed other (by simp [member]))
            last
      | some child =>
          have member : child ∈ frame.before := Side.mem_of_end? isEnd
          have below := (Sound.close_iff.mp whole).2.1 child member
          rw [Side.end?_beyond_cons isEnd below.filled] at last
          have isEnding : child.ending? = some entry := below.last_eq.trans last
          have isSeparator : some entry ∈ frame.before.map ending? :=
            List.mem_map.mpr ⟨child, member, isEnding⟩
          rw [← whole.separators_eq.1] at isSeparator
          obtain ⟨separator, member, isSame⟩ := List.mem_map.mp isSeparator
          obtain rfl := Option.some.inj isSame
          exact (routed frame (by simp)).above separator member

namespace Tree

variable {tree : Tree α} {shape : Shape α} {answer : α → α → Ordering}
  {compare : Comparator σ α}

theorem fits_of_routed {path : List (Frame α)} {leaf : NodeId}
    {list : EntryList α} {front back : List (Entry α)} {value : α}
    (standing : tree.Standing (plug path (.node leaf (some list) [])))
    (split : list.entries = front ++ back)
    (routed : ∀ frame ∈ path, frame.Routed answer value)
    (above : Above answer value front) : Edit.Fits path back := by
  rintro rfl
  rw [List.append_nil] at split
  cases isLast : list.entries.getLast? with
  | none =>
      rcases standing.sound_or_empty with sound | ⟨rfl, _⟩
      · have filled := sound.of_plug.filled
        rw [entries_leaf] at filled
        exact absurd (List.getLast?_eq_none_iff.mp isLast) filled
      · exact fun _ member => (nomatch member)
  | some entry =>
      have member : entry ∈ list.entries := List.mem_of_getLast? isLast
      have sound := standing.sound_of_filled (List.ne_nil_of_mem member)
      refine last_of_routed sound routed (by rw [ending?_leaf, isLast]) ?_
      exact above entry (split ▸ member)

theorem between_of_gap {value : α} {left right : List (Entry α)}
    (standing : tree.Standing shape)
    (gap : Gap answer value shape left right) :
    Between answer value left right := by
  obtain ⟨path, leaf, list, front, back, rfl, split, rfl, rfl, routed, above,
    less⟩ := gap
  have fits := fits_of_routed standing split routed above
  constructor
  · intro entry last
    rw [List.getLast?_append] at last
    cases isLast : front.getLast? with
    | some other =>
        rw [isLast] at last
        obtain rfl := Option.some.inj last
        exact above other (List.mem_of_getLast? isLast)
    | none =>
        rw [isLast] at last
        rcases standing.sound_or_empty with sound | ⟨rfl, _⟩
        · exact last_leftOf_of_routed sound routed last
        · cases last
  · intro entry first
    cases back with
    | cons next rest => exact less entry first
    | nil =>
        rw [List.nil_append, rightOf_eq_nil (fits rfl)] at first
        cases first

theorem Standing.mem_entries {path : List (Frame α)} {id : NodeId}
    {list : EntryList α} {children : List (Shape α)} {entry : Entry α}
    (standing : tree.Standing (plug path (.node id (some list) children)))
    (member : entry ∈ list.entries) :
    entry ∈ (plug path (.node id (some list) children)).entries := by
  have inside : entry ∈ (Subtree.node id (some list) children).entries := by
    rcases standing.sound_or_empty with sound | ⟨_, empty⟩
    · exact sound.of_plug.mem_entries member
    · injection empty with _ isEmpty _
      rw [Option.some.inj isEmpty] at member
      cases member
  rw [entries_plug]
  exact List.mem_append_left _ (List.mem_append_right _ inside)

theorem Standing.mem_of_landed {value : α} {pastEqual : Bool}
    {path : List (Frame α)} {id : NodeId} {children : List (Shape α)}
    {front back : List (Entry α)} {entry : Entry α} (standing : tree.Standing shape)
    (landed : Landed value compare pastEqual shape
      ⟨path, id, children, .equal front entry back⟩) : entry ∈ shape.entries := by
  rw [landed.whole] at standing ⊢
  exact standing.mem_entries (by simp [Stop.entries])

/-- The place of `value` is in a leaf that would need more nodes than there are. -/
structure Crowded (tree : Tree α) (answer : α → α → Ordering) (shape : Shape α) (value : α)
    (path : List (Frame α)) (leaf : NodeId) (front back : List (Entry α)) : Prop where
  whole : shape = plug path (.node leaf (some ⟨front ++ back⟩) [])
  descended : descend value (.answering answer) false [] shape () =
    .ok ⟨path, leaf, [], .before front back⟩ ()
  gap : Gap answer value shape (leftOf path ++ front) (back ++ rightOf path)
  none : ¬Edit.Room tree ⟨front ++ ⟨value, tree.values.size⟩ :: back⟩

theorem insert_cases (standing : tree.Standing shape)
    (steady : compare.Steady answer) (value : α) (state : σ) :
    (∃ entry after,
      insert value compare (tree, state) =
        .ok (.existing entry.value value) (tree, after) ∧
      entry ∈ shape.entries ∧ answer value entry.value = .eq) ∨
    (∃ left right arena final after,
      insert value compare (tree, state) = .ok (.inserted tree.values.size)
        ({ tree with arena, values := tree.values.push value }, after) ∧
      Gap answer value shape left right ∧
      ({ tree with arena, values := tree.values.push value } :
        Tree α).Standing final ∧
      final.entries = left ++ ⟨value, tree.values.size⟩ :: right) ∨
    (∃ path leaf front back error arena after,
      insert value compare (tree, state) =
        .error error ({ tree with arena }, after) ∧
      ({ tree with arena } : Tree α).Standing shape ∧
      error.root = .arenaExhausted tree.arena.capacity ∧
      tree.Crowded answer shape value path leaf front back) ∨
    ∃ error after,
      insert value compare (tree, state) = .error error (tree, after) ∧
      compare.Raises error.root after := by
  have ends := insert_ends standing.upright value compare state
  generalize insert value compare (tree, state) = outcome at ends ⊢
  cases ends with
  | found landed =>
      exact .inl ⟨_, _, rfl, standing.mem_of_landed landed,
        (landed.told answer steady).2⟩
  | stored landed supplied _ embodied =>
      rw [landed.gap] at standing
      have fits := fits_of_routed standing rfl
        (landed.routed answer steady) (landed.told answer steady).1
      exact .inr (.inl ⟨_, _, _, _, _, rfl, landed.exists_gap steady,
        standing.stored rfl fits supplied embodied, entries_stored supplied⟩)
  | refused refused descended none =>
      obtain ⟨arena, rfl⟩ := refused.same
      have landed := (descend_meets standing.upright value compare false).of_ok descended
      obtain rfl := landed.leaf (.inl rfl)
      exact .inr (.inr (.inl ⟨_, _, _, _, _, arena, _, rfl,
        ⟨refused.upright.embodies, standing.sound, standing.mirrors⟩, refused.cause,
        landed.gap, (descend_answering steady value false [] shape).of_ok descended,
        landed.exists_gap steady, none⟩))
  | raised raised => exact .inr (.inr (.inr ⟨_, _, rfl, raised⟩))

theorem remove_cases (standing : tree.Standing shape)
    (steady : compare.Steady answer) (value : α) (state : σ) :
    (∃ left entry right arena final after,
      remove value compare (tree, state) = .ok (some entry.value)
        ({ tree with
          arena
          values := tree.values.put entry.index none },
          after) ∧
      shape.entries = left ++ entry :: right ∧
      answer value entry.value = .eq ∧
      ({ tree with
        arena
        values := tree.values.put entry.index none } :
        Tree α).Standing final ∧
      final.entries = left ++ right) ∨
    (∃ left right after,
      remove value compare (tree, state) = .ok none (tree, after) ∧
      Gap answer value shape left right) ∨
    ∃ error after,
      remove value compare (tree, state) = .error error (tree, after) ∧
      compare.Raises error.root after := by
  have ends := remove_ends standing.upright value compare state
  generalize remove value compare (tree, state) = outcome at ends ⊢
  cases ends with
  | found landed _ embodied =>
      have equal := (landed.told answer steady).2
      obtain rfl := landed.found
      exact .inl ⟨_, _, _, _, _, _, rfl, by simp [entries_plug], equal,
        standing.erased rfl embodied, entries_of_erased standing.upright rfl⟩
  | absent landed =>
      exact .inr (.inl ⟨_, _, _, rfl, landed.exists_gap steady⟩)
  | raised raised => exact .inr (.inr ⟨_, _, rfl, raised⟩)

theorem replace_cases (standing : tree.Standing shape)
    (steady : compare.Steady answer) (old new : α) (state : σ) :
    (∃ left entry right arena final after,
      replace old new compare (tree, state) = .ok entry.value
        ({ tree with
          arena
          values := tree.values.put entry.index
            (some new) }, after) ∧
      shape.entries = left ++ entry :: right ∧
      answer old entry.value = .eq ∧ Between answer new left right ∧
      ({ tree with
        arena
        values := tree.values.put entry.index
          (some new) } : Tree α).Standing final ∧
      final.entries = left ++ ⟨new, entry.index⟩ :: right) ∨
    ∃ error after,
      replace old new compare (tree, state) = .error error (tree, after) ∧
      (compare.Raises error.root after ∨
        (error.root = .nothingToReplace ∧
          ∃ left right, Gap answer old shape left right) ∨
        (error.root.category = .invalidArgument ∧
          ∃ left entry right, shape.entries = left ++ entry :: right ∧
            answer old entry.value = .eq ∧ ¬Between answer new left right)) := by
  have ends := replace_ends standing.upright old new compare state
  generalize replace old new compare (tree, state) = outcome at ends ⊢
  cases ends with
  | @replaced path leaf children front entry back arena after landed fits _ embodied =>
      have equal := (landed.told answer steady).2
      obtain rfl := landed.found
      exact .inl ⟨_, entry, _, arena, _, after, rfl, by simp [entries_plug], equal,
        fits answer steady, standing.overwritten rfl embodied, entries_overwritten⟩
  | @misfit path leaf children front entry back error after landed misfit =>
      have entries : shape.entries =
          (leftOf path ++ front) ++ entry :: (back ++ rightOf path) := by
        simp [landed.found, entries_plug]
      refine .inr ⟨error, after, rfl, misfit.imp_right fun misplaced => .inr
        ⟨?_, _, entry, _, entries, (landed.told answer steady).2,
          misplaced.2 answer steady⟩⟩
      rcases misplaced.1 with what | what <;> rw [what] <;> rfl
  | absent landed =>
      exact .inr ⟨_, _, rfl, .inr (.inl ⟨rfl, _, _, landed.exists_gap steady⟩)⟩
  | raised raised => exact .inr ⟨_, _, rfl, .inl raised⟩

theorem split_cases (standing : tree.Standing shape) (id : NodeId) :
    (∃ several arena final, Edit.split id tree = .ok several { tree with arena } ∧
      ({ tree with arena } : Tree α).Standing final ∧
      final.entries = shape.entries) ∨
    ∃ error arena, Edit.split id tree = .error error { tree with arena } ∧
      ({ tree with arena } : Tree α).Standing shape ∧
      (error.root = .stale id ∧ id ∉ shape.ids ∨
        (∃ path list children, shape = plug path (.node id (some list) children) ∧
          children ≠ [] ∧ error.root = .notALeaf id children.length) ∨
        ∃ path list, shape = plug path (.node id (some list) []) ∧
          2 ≤ (list.pieces tree.config.chunkSize).length ∧
          tree.arena.capacity < tree.arena.liveCount +
            (list.pieces tree.config.chunkSize).length ∧
          error.root = .arenaExhausted tree.arena.capacity) := by
  have ends := split_ends standing.upright id
  generalize Edit.split id tree = outcome at ends ⊢
  cases ends with
  | cut whole several length _ embodied =>
      subst whole
      exact .inl ⟨true, _, _, rfl, standing.splitted length several embodied,
        entries_splitted length several⟩
  | short _ _ => exact .inl ⟨false, tree.arena, shape, rfl, standing, rfl⟩
  | refused refused whole several full =>
      obtain ⟨arena, rfl⟩ := refused.same
      exact .inr ⟨_, arena, rfl,
        ⟨refused.upright.embodies, standing.sound, standing.mirrors⟩,
        .inr (.inr ⟨_, _, whole, several, full, refused.cause⟩)⟩
  | branch whole inner =>
      exact .inr ⟨_, tree.arena, rfl, standing, .inr (.inl ⟨_, _, _, whole, inner, rfl⟩)⟩
  | dead dead => exact .inr ⟨_, tree.arena, rfl, standing, .inl ⟨rfl, dead⟩⟩

theorem get?_meets (standing : tree.Standing shape)
    (steady : compare.Steady answer) (value : α) :
    Meets compare.Raises (tree.get? value compare) fun
      | some stored => ∃ entry ∈ shape.entries, stored = entry.value ∧
          answer value entry.value = .eq
      | none => ∃ left right, Gap answer value shape left right := by
  refine (get?_alike standing.upright value compare).meets
    (descend_meets standing.upright value compare false) ?_ fun _ _ raised => raised
  rintro _ ⟨path, id, children, stop⟩ rfl landed
  cases stop with
  | equal front entry back =>
      exact ⟨entry, standing.mem_of_landed landed, rfl, (landed.told answer steady).2⟩
  | before front back => exact ⟨_, _, landed.exists_gap steady⟩

theorem contains_meets (standing : tree.Standing shape)
    (steady : compare.Steady answer) (value : α) :
    Meets compare.Raises (tree.contains value compare) fun
      | true => ∃ entry ∈ shape.entries, answer value entry.value = .eq
      | false => ∃ left right, Gap answer value shape left right := by
  refine (contains_alike standing.upright value compare).meets
    (descend_meets standing.upright value compare false) ?_ fun _ _ raised => raised
  rintro _ ⟨path, id, children, stop⟩ rfl landed
  cases stop with
  | equal front entry back =>
      exact ⟨entry, standing.mem_of_landed landed, (landed.told answer steady).2⟩
  | before front back => exact ⟨_, _, landed.exists_gap steady⟩

end Tree

end LinkedBTree
