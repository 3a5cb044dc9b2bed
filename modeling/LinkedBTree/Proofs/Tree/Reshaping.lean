import LinkedBTree.Config
import LinkedBTree.Proofs.Pieces
import LinkedBTree.Proofs.Tree.Form

namespace LinkedBTree

/-! What edits make of a shape: its entries stay in order, but for the one
stored, removed or overwritten, and every leaf stays filled. -/

variable {α : Type}

def Config.Overfull (config : Config) (list : EntryList α) : Prop :=
  config.maxValues ≤ list.length ∧ 2 ≤ (list.pieces config.chunkSize).length

instance (config : Config) (list : EntryList α) :
    Decidable (config.Overfull list) :=
  inferInstanceAs (Decidable (_ ∧ _))

def Config.Supplied (config : Config) (list : EntryList α)
    (fresh : List NodeId) : Prop :=
  config.Overfull list →
    fresh.length = (list.pieces config.chunkSize).length

/-- Whether a leaf with `length` values needs more nodes for a split than there are
left beside those that are live. -/
def Config.LacksLeaves (config : Config) (live length : Nat) : Prop :=
  2 ≤ length ⌈/⌉ config.chunkSize ∧
    config.nodeCapacity - live < length ⌈/⌉ config.chunkSize

/-- Whether a leaf with one more than `length` values is split and needs more nodes
than there are left beside those that are live. -/
def Config.OutOfNodes (config : Config) (live length : Nat) : Prop :=
  config.maxValues ≤ length + 1 ∧ 2 ≤ (length + 1) ⌈/⌉ config.chunkSize ∧
    config.nodeCapacity - live < (length + 1) ⌈/⌉ config.chunkSize

instance (config : Config) (live length : Nat) :
    Decidable (config.OutOfNodes live length) :=
  inferInstanceAs (Decidable (_ ∧ _ ∧ _))

namespace Frame

variable {frame : Frame α} {index : Nat} {last : Option (Entry α)}

/-- Renews the separator stored under `index` if something takes its place. -/
def refresh (index : Nat) (last : Option (Entry α)) (frame : Frame α) : Frame α :=
  last.elim frame fun entry => frame.renew index entry

@[simp] theorem before_refresh :
    (frame.refresh index last).before = frame.before := by
  cases last <;> simp [refresh]

@[simp] theorem after_refresh :
    (frame.refresh index last).after = frame.after := by
  cases last <;> simp [refresh]

@[simp] theorem length_refresh :
    (frame.refresh index last).list.length = frame.list.length := by
  cases last with
  | none => rfl
  | some entry =>
      simp only [refresh, Option.elim_some, renew]
      split
      · simp [EntryList.length]
      · rfl

@[simp] theorem map_refresh_none (path : List (Frame α)) :
    path.map (refresh index none) = path :=
  List.map_id path

def rest (index : Nat) (last : Option (Entry α)) (frame : Frame α) : Frame α :=
  ({ frame with list := frame.remaining } : Frame α).refresh index last

/-- What the branch ends on when the part left out goes and was its last. -/
def newLast (frame : Frame α) : Option (Entry α) :=
  if frame.after = [] then frame.list.entries.getLast? else none

theorem length_rest (enough : frame.before ≠ [] ∨ frame.after ≠ [])
    (length : frame.list.length = frame.before.length + frame.after.length) :
    (frame.before ++ frame.after).length =
      (frame.rest index last).list.length + 1 := by
  have := List.length_pos_iff (l := frame.before)
  have := List.length_pos_iff (l := frame.after)
  have length : frame.list.entries.length = _ := length
  rw [rest, length_refresh, List.length_append, remaining, EntryList.length,
    List.length_eraseIdx]
  grind

end Frame

namespace Subtree

def leavesOf (ids : List NodeId) (lists : List (EntryList α)) :
    List (Shape α) :=
  (ids.zip lists).map fun (id, list) => .node id (some list) []

def spread (id : NodeId) (ids : List NodeId) (lists : List (EntryList α)) :
    Shape α :=
  node id (some (EntryList.separators lists)) (leavesOf ids lists)

section

variable {ids : List NodeId} {lists : List (EntryList α)}

theorem map_id_leavesOf (same : ids.length = lists.length) :
    (leavesOf ids lists).map Subtree.id = ids := by
  rw [leavesOf, List.map_map]
  exact List.map_fst_zip (Nat.le_of_eq same)

theorem flatMap_ids_leavesOf (same : ids.length = lists.length) :
    (leavesOf ids lists).flatMap Subtree.ids = ids := by
  conv => rhs; rw [← map_id_leavesOf same]
  rw [List.map_eq_flatMap, List.flatMap_def, List.flatMap_def]
  refine congrArg List.flatten (List.map_congr_left fun child member => ?_)
  obtain ⟨pair, _, rfl⟩ := List.mem_map.mp member
  simp

theorem map_leavesOf {β : Type} {read : Shape α → β} {ofList : EntryList α → β}
    (same : ids.length = lists.length)
    (reads : ∀ id list, read (.node id (some list) []) = ofList list) :
    (leavesOf ids lists).map read = lists.map ofList := by
  have : read ∘ (fun (id, list) => .node id (some list) []) =
      ofList ∘ (Prod.snd : NodeId × EntryList α → EntryList α) := by
    funext pair
    exact reads pair.1 pair.2
  rw [leavesOf, List.map_map, this, ← List.map_map,
    List.map_snd_zip (Nat.le_of_eq same.symm)]

theorem sound_leavesOf (filled : ∀ list ∈ lists, list.entries ≠ []) :
    ∀ child ∈ leavesOf ids lists, Sound child := by
  intro child member
  obtain ⟨⟨id, list⟩, isPair, rfl⟩ := List.mem_map.mp member
  exact .leaf (filled list (List.of_mem_zip isPair).2)

theorem length_leavesOf (same : ids.length = lists.length) :
    (leavesOf ids lists).length = lists.length := by
  rw [← List.length_map Subtree.id, map_id_leavesOf same, same]

theorem separators_present (filled : ∀ list ∈ lists, list.entries ≠ []) :
    (EntryList.separators lists).entries.map some =
      lists.dropLast.map EntryList.last? := by
  have present : ∀ parts : List (EntryList α),
      (∀ list ∈ parts, list.entries ≠ []) →
      (parts.filterMap EntryList.last?).map some =
        parts.map EntryList.last? := by
    intro parts
    induction parts with
    | nil => exact fun _ => rfl
    | cons list rest induction =>
        intro filled
        have last : list.last? = some (list.entries.getLast _) :=
          List.getLast?_eq_some_getLast (filled list (by simp))
        rw [List.filterMap_cons_some last, List.map_cons, List.map_cons,
          induction fun other member => filled other (by simp [member]), last]
  exact present lists.dropLast fun list member =>
    filled list (List.dropLast_subset _ member)

theorem sound_spread {id : NodeId} (same : ids.length = lists.length)
    (filled : ∀ list ∈ lists, list.entries ≠ []) (two : 2 ≤ lists.length) :
    Sound (spread id ids lists) := by
  refine .branch ((length_leavesOf same).symm ▸ two) (sound_leavesOf filled) ?_
  have reads : (leavesOf ids lists).map ending? = lists.map EntryList.last? :=
    map_leavesOf same fun _ _ => ending?_leaf
  rw [List.map_dropLast, reads, ← List.map_dropLast]
  exact separators_present filled

theorem entries_spread {id : NodeId} (same : ids.length = lists.length)
    (two : 2 ≤ lists.length) :
    (spread id ids lists).entries = lists.flatMap EntryList.entries := by
  have some : leavesOf ids lists ≠ [] := by
    rw [← List.length_pos_iff, length_leavesOf same]
    omega
  rw [spread, entries_branch some, List.flatMap_def,
    map_leavesOf same fun _ _ => entries_leaf, ← List.flatMap_def]

end

section

variable {path : List (Frame α)} {frame : Frame α} {part : Shape α} {index : Nat}
  {last : Option (Entry α)}

theorem leftOf_map_refresh :
    leftOf (path.map (Frame.refresh index last)) = leftOf path := by
  cases last with
  | none => rw [Frame.map_refresh_none]
  | some entry => exact leftOf_map_renew index entry

theorem rightOf_map_refresh :
    rightOf (path.map (Frame.refresh index last)) = rightOf path := by
  cases last with
  | none => rw [Frame.map_refresh_none]
  | some entry => exact rightOf_map_renew index entry

theorem Formed.refresh (formed : Formed (plug path part)) :
    Formed (plug (path.map (Frame.refresh index last)) part) := by
  induction path generalizing part with
  | nil => exact formed
  | cons frame path induction =>
      have formed : Formed (plug path (frame.close part)) := formed
      obtain ⟨enough, before, isPart, after, length⟩ := close_iff.mp (of_plug formed)
      have refreshed : Formed ((frame.refresh index last).close part) := by
        apply close_iff.mpr
        simpa using ⟨enough, before, isPart, after, length⟩
      exact induction (formed.swap refreshed)

end

def grown (config : Config) (id : NodeId) (list : EntryList α)
    (fresh : List NodeId) : Shape α :=
  if config.Overfull list then spread id fresh (list.pieces config.chunkSize)
  else node id (some list) []

def dropped (index : Nat) (frame : Frame α) (path : List (Frame α)) : Shape α :=
  plug (path.map (Frame.refresh index frame.newLast))
    (joined frame.id (frame.rest index frame.newLast).list
      (frame.before ++ frame.after))

/-- What becomes of a tree when a leaf loses the entry between `front` and
`back`. -/
def erased (path : List (Frame α)) (leaf : NodeId) (front : List (Entry α))
    (entry : Entry α) (back : List (Entry α)) : Shape α :=
  match path, front ++ back with
  | frame :: outer, [] => dropped entry.index frame outer
  | path, list =>
      plug (path.map (Frame.refresh entry.index
        (if back = [] then front.getLast? else none))) (node leaf (some ⟨list⟩) [])

def overwritten (path : List (Frame α)) (leaf : NodeId) (front : List (Entry α))
    (entry : Entry α) (back : List (Entry α)) : Shape α :=
  plug (path.map (Frame.refresh entry.index (if back = [] then some entry else none)))
    (node leaf (some ⟨front ++ entry :: back⟩) [])

section

variable {path : List (Frame α)} {frame : Frame α} {part : Shape α}
  {leaf : NodeId} {list : EntryList α} {front back : List (Entry α)}
  {entry : Entry α} {config : Config} {fresh : List NodeId}

theorem filled_pieces {size : Nat} :
    ∀ part ∈ list.pieces size, part.entries ≠ [] := by
  intro part member
  obtain ⟨piece, isPiece, rfl⟩ := List.mem_map.mp member
  exact EntryList.ne_nil_of_mem_cut isPiece

theorem entries_grown (same : config.Supplied list fresh) :
    (grown config leaf list fresh).entries = list.entries := by
  unfold grown
  split
  · rename_i full
    rw [entries_spread (same full) full.2, EntryList.flatMap_entries_pieces]
  · exact entries_leaf

theorem sound_grown (filled : list.entries ≠ [])
    (same : config.Supplied list fresh) :
    Sound (grown config leaf list fresh) := by
  unfold grown
  split
  · rename_i full
    exact sound_spread (same full) filled_pieces full.2
  · exact .leaf filled

theorem erased_emptied :
    erased (frame :: path) leaf [] entry [] = dropped entry.index frame path :=
  rfl

theorem erased_shortened (stays : path = [] ∨ front ++ back ≠ []) :
    erased path leaf front entry back = plug (path.map (Frame.refresh entry.index
      (if back = [] then front.getLast? else none)))
      (node leaf (some ⟨front ++ back⟩) []) := by
  unfold erased
  split
  · rename_i none
    exact absurd none (stays.resolve_left (by simp))
  · rfl

theorem entries_dropped (some : frame.before ++ frame.after ≠ []) {index : Nat} :
    (dropped index frame path).entries =
      leftOf (frame :: path) ++ rightOf (frame :: path) := by
  rw [dropped, entries_plug, entries_joined some, leftOf_map_refresh,
    rightOf_map_refresh]
  simp [leftOf, rightOf]

theorem formed_dropped {index : Nat} (formed : Formed (plug (frame :: path) part)) :
    Formed (dropped index frame path) := by
  have whole : Formed (plug path (frame.close part)) := formed
  obtain ⟨enough, before, _, after, length⟩ :=
    Formed.close_iff.mp whole.of_plug
  refine Formed.refresh (whole.swap (Formed.join (Frame.append_ne_nil enough) ?_
    (Frame.length_rest enough length)))
  intro child member
  exact (List.mem_append.mp member).elim (before child) (after child)

theorem list_rest {old : Entry α} (sound : Sound (frame.close part))
    (distinct : Distinct (frame.close part).entries) (member : old ∈ part.entries) :
    (frame.rest old.index frame.newLast).list = frame.remaining := by
  unfold Frame.rest Frame.newLast
  split
  · rename_i isLast
    have idle (entry : Entry α) : ({ frame with list := frame.remaining } : Frame α).renew
        old.index entry = { frame with list := frame.remaining } :=
      Frame.renew_of_absent (sound.absent_remaining distinct isLast member)
    cases frame.list.entries.getLast? with
    | none => rfl
    | some entry => exact congrArg Frame.list (idle entry)
  · rfl

theorem sound_dropped {old : Entry α} (sound : Sound (plug (frame :: path) part))
    (distinct : Distinct (plug (frame :: path) part).entries)
    (was : part.ending? = some old) : Sound (dropped old.index frame path) := by
  have whole : Sound (frame.close part) := Sound.of_plug sound
  obtain ⟨enough, _, isPart, _⟩ := Sound.close_iff.mp whole
  have member : old ∈ part.entries := by
    rw [isPart.last_eq] at was
    exact List.mem_of_getLast? was
  rw [dropped, list_rest whole (Distinct.of_plug distinct) member]
  by_cases isLast : frame.after = []
  · obtain ⟨separator, isSeparator⟩ :
        ∃ separator, frame.list.entries.getLast? = some separator := by
      have length := whole.length_separators
      refine Option.ne_none_iff_exists'.mp fun none => ?_
      rw [List.getLast?_eq_none_iff, ← List.length_eq_zero_iff] at none
      have length : frame.list.entries.length = _ := length
      rw [none, isLast, List.length_nil, Nat.add_zero, eq_comm,
        List.length_eq_zero_iff] at length
      exact enough.elim (absurd length) (absurd isLast)
    rw [Frame.newLast, if_pos isLast, isSeparator]
    exact sound.drop_last distinct isLast was isSeparator
  · rw [Frame.newLast, if_neg isLast, Frame.map_refresh_none]
    exact sound.drop_inner isLast

theorem entries_erased (enough : ∀ frame ∈ path,
    frame.before ≠ [] ∨ frame.after ≠ []) :
    (erased path leaf front entry back).entries =
      (leftOf path ++ front) ++ (back ++ rightOf path) := by
  by_cases stays : path = [] ∨ front ++ back ≠ []
  · rw [erased_shortened stays, entries_plug, leftOf_map_refresh,
      rightOf_map_refresh, entries_leaf]
    simp
  · rw [not_or, Classical.not_not] at stays
    obtain ⟨rfl, rfl⟩ := List.append_eq_nil_iff.mp stays.2
    obtain ⟨frame, outer, rfl⟩ := List.exists_cons_of_ne_nil stays.1
    rw [erased_emptied, entries_dropped (Frame.append_ne_nil (enough frame (by simp)))]
    simp

theorem formed_erased (formed : Formed (plug path (node leaf (some list) []))) :
    Formed (erased path leaf front entry back) ∨
      path = [] ∧ erased path leaf front entry back = node leaf (some {}) [] := by
  by_cases none : front ++ back = []
  · obtain ⟨rfl, rfl⟩ := List.append_eq_nil_iff.mp none
    cases path with
    | nil => exact .inr ⟨rfl, rfl⟩
    | cons frame outer => exact .inl (formed_dropped formed)
  · rw [erased_shortened (.inr none)]
    exact .inl (formed.swap (.leaf none)).refresh

theorem sound_erased (sound : Sound (plug path (node leaf (some list) [])))
    (distinct : Distinct (plug path (node leaf (some list) [])).entries)
    (split : list.entries = front ++ entry :: back) :
    Sound (erased path leaf front entry back) ∨
      path = [] ∧ erased path leaf front entry back = node leaf (some {}) [] := by
  by_cases none : front ++ back = []
  · obtain ⟨rfl, rfl⟩ := List.append_eq_nil_iff.mp none
    cases path with
    | nil => exact .inr ⟨rfl, rfl⟩
    | cons frame outer =>
        refine .inl (sound_dropped sound distinct ?_)
        simp [split]
  · rw [erased_shortened (.inr none)]
    left
    have new : Sound (node leaf (some ⟨front ++ back⟩) []) := .leaf none
    by_cases atEnd : back = []
    · obtain ⟨last, isLast⟩ : ∃ last, front.getLast? = some last := by
        refine Option.ne_none_iff_exists'.mp fun isEmpty => none ?_
        rw [List.getLast?_eq_none_iff.mp isEmpty, atEnd]
        rfl
      rw [if_pos atEnd, isLast]
      refine sound.swap_renewed new distinct ?_ ?_
      · simp [split, atEnd]
      · simp [atEnd, isLast]
    · rw [if_neg atEnd, Frame.map_refresh_none]
      have last := List.getLast?_eq_some_getLast atEnd
      refine sound.swap new (.inl ?_)
      simp [split, List.getLast?_append, List.getLast?_cons, last]

theorem entries_overwritten :
    (overwritten path leaf front entry back).entries =
      (leftOf path ++ front) ++ entry :: (back ++ rightOf path) := by
  rw [overwritten, entries_plug, leftOf_map_refresh, rightOf_map_refresh,
    entries_leaf]
  simp

theorem formed_overwritten
    (formed : Formed (plug path (node leaf (some list) []))) :
    Formed (overwritten path leaf front entry back) :=
  (formed.swap (.leaf (by simp))).refresh

theorem sound_overwritten {old : Entry α}
    (sound : Sound (plug path (node leaf (some list) [])))
    (distinct : Distinct (plug path (node leaf (some list) [])).entries)
    (split : list.entries = front ++ old :: back)
    (same : entry.index = old.index) :
    Sound (overwritten path leaf front entry back) := by
  have new : Sound (node leaf (some ⟨front ++ entry :: back⟩) []) :=
    .leaf (by simp)
  unfold overwritten
  by_cases atEnd : back = []
  · rw [if_pos atEnd, same]
    refine sound.swap_renewed new distinct ?_ ?_
    · simp [split, atEnd]
    · simp [atEnd]
  · rw [if_neg atEnd, Frame.map_refresh_none]
    have last := List.getLast?_eq_some_getLast atEnd
    refine sound.swap new (.inl ?_)
    simp [split, List.getLast?_append, List.getLast?_cons, last]

end

end Subtree

end LinkedBTree
