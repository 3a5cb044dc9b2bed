import LinkedBTree.Proofs.Tree.Shape

namespace LinkedBTree

/-! A part of a tree and what is around it. Separators stay in place when the
part is exchanged, if its last entry stays or no separator bounds it, and when
the separator is renewed together with it. -/

variable {α : Type}

/-- A branch with one child left out. -/
structure Frame (α : Type) where
  id : NodeId
  list : EntryList α
  before : List (Shape α)
  after : List (Shape α)

namespace Frame

def close (frame : Frame α) (child : Shape α) : Shape α :=
  .node frame.id (some frame.list) (frame.before ++ child :: frame.after)

/-- Lets `entry` take the place of the separator stored under `index`. -/
def renew (index : Nat) (entry : Entry α) (frame : Frame α) : Frame α :=
  match frame.list.positionOf? index with
  | some position =>
      { frame with list := ⟨frame.list.entries.set position entry⟩ }
  | none => frame

theorem renew_of_absent {index : Nat} {entry : Entry α} {frame : Frame α}
    (absent : ∀ other ∈ frame.list.entries, other.index ≠ index) :
    frame.renew index entry = frame := by
  have : frame.list.positionOf? index = none := by
    unfold EntryList.positionOf?
    rw [List.findIdx?_eq_none_iff]
    intro other member
    simpa using absent other member
  rw [renew, this]

theorem renew_of_split {index : Nat} {entry old : Entry α} {frame : Frame α}
    {left right : List (Entry α)}
    (split : frame.list.entries = left ++ old :: right)
    (isOld : old.index = index)
    (absent : ∀ other ∈ left, other.index ≠ index) :
    frame.renew index entry =
      { frame with list := ⟨left ++ entry :: right⟩ } := by
  have : frame.list.positionOf? index = some left.length := by
    unfold EntryList.positionOf?
    have none : left.findIdx? (fun entry => entry.index == index) = none := by
      rw [List.findIdx?_eq_none_iff]
      intro other member
      simpa using absent other member
    rw [split, List.findIdx?_append, none, List.findIdx?_cons]
    simp [isOld]
  rw [renew, this]
  simp [split]

@[simp] theorem before_renew (index : Nat) (entry : Entry α)
    (frame : Frame α) : (frame.renew index entry).before = frame.before := by
  unfold renew
  split <;> rfl

@[simp] theorem after_renew (index : Nat) (entry : Entry α)
    (frame : Frame α) : (frame.renew index entry).after = frame.after := by
  unfold renew
  split <;> rfl

theorem append_ne_nil {frame : Frame α}
    (enough : frame.before ≠ [] ∨ frame.after ≠ []) : frame.before ++ frame.after ≠ [] :=
  enough.elim (List.append_ne_nil_of_left_ne_nil · _)
    (List.append_ne_nil_of_right_ne_nil _ ·)

end Frame

namespace Subtree

/-- Puts `part` into its frames, the nearest first. -/
def plug : List (Frame α) → Shape α → Shape α
  | [], part => part
  | frame :: path, part => plug path (frame.close part)

theorem plug_append (path outer : List (Frame α)) (part : Shape α) :
    plug (path ++ outer) part = plug outer (plug path part) := by
  induction path generalizing part with
  | nil => rfl
  | cons frame path induction => exact induction (frame.close part)

def leftOf : List (Frame α) → List (Entry α)
  | [] => []
  | frame :: path => leftOf path ++ frame.before.flatMap entries

def rightOf : List (Frame α) → List (Entry α)
  | [] => []
  | frame :: path => frame.after.flatMap entries ++ rightOf path

section

variable {frame : Frame α} {path : List (Frame α)} {part other : Shape α}

@[simp] theorem entries_close : (frame.close part).entries =
    frame.before.flatMap entries ++ part.entries ++
      frame.after.flatMap entries := by
  rw [Frame.close, entries_branch (by simp), List.flatMap_append,
    List.flatMap_cons, List.append_assoc]

theorem entries_plug :
    (plug path part).entries = leftOf path ++ part.entries ++ rightOf path := by
  induction path generalizing part with
  | nil => simp [plug, leftOf, rightOf]
  | cons frame path induction => simp [plug, leftOf, rightOf, induction]

theorem leftOf_map_renew (index : Nat) (entry : Entry α) :
    leftOf (path.map (Frame.renew index entry)) = leftOf path := by
  induction path with
  | nil => rfl
  | cons frame path induction => simp [leftOf, induction]

theorem rightOf_map_renew (index : Nat) (entry : Entry α) :
    rightOf (path.map (Frame.renew index entry)) = rightOf path := by
  induction path with
  | nil => rfl
  | cons frame path induction => simp [rightOf, induction]

theorem rightOf_eq_nil (single : ∀ frame ∈ path, frame.after = []) :
    rightOf path = [] := by
  induction path with
  | nil => rfl
  | cons frame path induction =>
      have none : frame.after = [] := single frame (by simp)
      rw [rightOf, none, induction fun other member => single other (by simp [member])]
      rfl

theorem ending?_close_last (isLast : frame.after = []) :
    (frame.close part).ending? = part.ending? := by
  rw [Frame.close, isLast, ending?_branch]

theorem ending?_inner {id : NodeId} {payload : Option (EntryList α)}
    {before after : List (Shape α)} (inner : after ≠ []) :
    (node id payload (before ++ part :: after)).ending? =
      (after.getLast inner).ending? := by
  have split : before ++ part :: after =
      (before ++ part :: after.dropLast) ++ [after.getLast inner] := by
    simp [List.dropLast_concat_getLast inner]
  rw [split, ending?_branch]

theorem ending?_close_inner (inner : frame.after ≠ []) :
    (frame.close part).ending? =
      (frame.after.getLast inner).ending? :=
  ending?_inner inner

end

def Parted (separators : List (Entry α)) (children : List (Shape α)) : Prop :=
  separators.map some = children.dropLast.map ending?

section

variable {separators : List (Entry α)} {child : Shape α}
  {children before after : List (Shape α)}

theorem parted_concat : Parted separators (before ++ [child]) ↔
    separators.map some = before.map ending? := by
  rw [Parted, List.dropLast_concat]

theorem parted_inner (inner : after ≠ []) :
    Parted separators (before ++ child :: after) ↔
      ∃ left separator right, separators = left ++ separator :: right ∧
        left.map some = before.map ending? ∧
        child.ending? = some separator ∧ Parted right after := by
  rw [Parted, List.dropLast_append_cons, List.dropLast_cons_of_ne_nil inner,
    List.map_append, List.map_cons, List.map_eq_append_iff]
  constructor
  · rintro ⟨left, rest, rfl, isLeft, isRest⟩
    obtain ⟨separator, right, rfl, isSeparator, isRight⟩ :=
      List.map_eq_cons_iff.mp isRest
    exact ⟨left, separator, right, rfl, isLeft, isSeparator.symm, isRight⟩
  · rintro ⟨left, separator, right, rfl, isLeft, isSeparator, isRight⟩
    exact ⟨left, _, rfl, isLeft, by rw [isSeparator, List.map_cons, isRight]⟩

theorem mem_of_parted (parted : separators.map some = before.map ending?)
    {entry : Entry α} (member : entry ∈ separators)
    (sound : ∀ child ∈ before, Sound child) :
    entry ∈ before.flatMap entries := by
  have : some entry ∈ before.map ending? := by
    rw [← parted]
    exact List.mem_map_of_mem member
  obtain ⟨child, isChild, last⟩ := List.mem_map.mp this
  rw [(sound child isChild).last_eq] at last
  exact List.mem_flatMap.mpr ⟨child, isChild, List.mem_of_getLast? last⟩

end

namespace Sound

variable {frame : Frame α} {path : List (Frame α)} {part other : Shape α}

theorem close_iff : Sound (frame.close part) ↔
    (frame.before ≠ [] ∨ frame.after ≠ []) ∧
      (∀ child ∈ frame.before, Sound child) ∧ Sound part ∧
      (∀ child ∈ frame.after, Sound child) ∧
      Parted frame.list.entries (frame.before ++ part :: frame.after) := by
  have two : 2 ≤ (frame.before ++ part :: frame.after).length ↔
      frame.before ≠ [] ∨ frame.after ≠ [] := by
    rw [List.length_append, List.length_cons]
    cases frame.before <;> cases frame.after <;> simp
    omega
  constructor
  · intro sound
    obtain ⟨enough, parted⟩ := of_inner sound (by simp)
    have below := children_sound sound
    refine ⟨two.mp enough, ?_, ?_, ?_, parted⟩
    · exact fun child member => below child (by simp [member])
    · exact below part (by simp)
    · exact fun child member => below child (by simp [member])
  · rintro ⟨enough, before, sound, after, parted⟩
    refine .branch (two.mpr enough) ?_ parted
    intro child member
    rcases List.mem_append.mp member with isBefore | later
    · exact before child isBefore
    · rcases List.mem_cons.mp later with rfl | isAfter
      · exact sound
      · exact after child isAfter

theorem separators_eq (sound : Sound (frame.close part)) :
    (frame.list.entries.take frame.before.length).map some =
        frame.before.map ending? ∧
      (frame.after ≠ [] →
        frame.list.entries[frame.before.length]? = part.ending?) := by
  obtain ⟨_, _, _, _, parted⟩ := close_iff.mp sound
  by_cases isLast : frame.after = []
  · rw [isLast, parted_concat] at parted
    have length := congrArg List.length parted
    rw [List.length_map, List.length_map] at length
    rw [← length, List.take_length]
    exact ⟨parted, absurd isLast⟩
  · obtain ⟨left, separator, right, split, isLeft, bound, _⟩ :=
      (parted_inner isLast).mp parted
    have length := congrArg List.length isLeft
    rw [List.length_map, List.length_map] at length
    rw [split, ← length, List.take_left]
    exact ⟨isLeft, fun _ => by rw [bound]; simp⟩

theorem of_plug (sound : Sound (plug path part)) : Sound part := by
  induction path generalizing part with
  | nil => exact sound
  | cons frame path induction => exact (close_iff.mp (induction sound)).2.2.1

theorem mem_entries {id : NodeId} {list : EntryList α}
    {children : List (Shape α)} {entry : Entry α}
    (sound : Sound (.node id (some list) children))
    (member : entry ∈ list.entries) :
    entry ∈ (Subtree.node id (some list) children).entries := by
  by_cases isLeaf : children = []
  · rw [isLeaf, entries_leaf]
    exact member
  · obtain ⟨_, parted⟩ := sound.of_inner isLeaf
    rw [entries_branch isLeaf]
    obtain ⟨child, isChild, inside⟩ := List.mem_flatMap.mp
      (mem_of_parted parted member fun child isChild =>
        sound.children_sound child (List.dropLast_subset _ isChild))
    exact List.mem_flatMap.mpr
      ⟨child, List.dropLast_subset _ isChild, inside⟩

theorem swap_child (sound : Sound (frame.close part)) (new : Sound other)
    (fits : other.ending? = part.ending? ∨ frame.after = []) :
    Sound (frame.close other) := by
  obtain ⟨enough, before, _, after, parted⟩ := close_iff.mp sound
  refine close_iff.mpr ⟨enough, before, new, after, ?_⟩
  by_cases isLast : frame.after = []
  · rw [isLast] at parted ⊢
    exact parted_concat.mpr (parted_concat.mp parted)
  · obtain ⟨left, separator, right, split, isLeft, bound, isRight⟩ :=
      (parted_inner isLast).mp parted
    refine (parted_inner isLast).mpr
      ⟨left, separator, right, split, isLeft, ?_, isRight⟩
    rw [fits.resolve_right isLast, bound]

theorem swap (sound : Sound (plug path part)) (new : Sound other)
    (fits : other.ending? = part.ending? ∨
      ∀ frame ∈ path, frame.after = []) : Sound (plug path other) := by
  induction path generalizing part other with
  | nil => exact new
  | cons frame path induction =>
      have whole : Sound (frame.close part) := of_plug sound
      have same : other.ending? = part.ending? ∨ frame.after = [] :=
        fits.imp_right fun all => all frame (by simp)
      apply induction sound (whole.swap_child new same)
      rcases fits with equal | all
      · left
        by_cases isLast : frame.after = []
        · rw [ending?_close_last isLast, ending?_close_last isLast, equal]
        · rw [ending?_close_inner isLast, ending?_close_inner isLast]
      · exact .inr fun frame member => all frame (by simp [member])

end Sound

/-- No two entries have an index in common. -/
def Distinct (entries : List (Entry α)) : Prop :=
  (entries.map Entry.index).Nodup

theorem Distinct.ne {left right : List (Entry α)} {first second : Entry α}
    (distinct : Distinct (left ++ right)) (isFirst : first ∈ left)
    (isSecond : second ∈ right) : first.index ≠ second.index := by
  unfold Distinct at distinct
  rw [List.map_append, List.nodup_append] at distinct
  exact distinct.2.2 _ (List.mem_map_of_mem isFirst) _
    (List.mem_map_of_mem isSecond)

theorem Distinct.of_append {left right : List (Entry α)}
    (distinct : Distinct (left ++ right)) : Distinct left ∧ Distinct right := by
  unfold Distinct at distinct
  rw [List.map_append, List.nodup_append] at distinct
  exact ⟨distinct.1, distinct.2.1⟩

theorem Distinct.of_plug {path : List (Frame α)} {part : Shape α}
    (distinct : Distinct (plug path part).entries) : Distinct part.entries := by
  rw [entries_plug] at distinct
  exact distinct.of_append.1.of_append.2

namespace Sound

variable {frame : Frame α} {path : List (Frame α)} {part other : Shape α}
  {entry old : Entry α} {index : Nat}

theorem absent_outside
    (distinct : Distinct (frame.close part).entries)
    (member : old ∈ part.entries) :
    (∀ entry ∈ frame.before.flatMap entries, entry.index ≠ old.index) ∧
      ∀ entry ∈ frame.after.flatMap entries, entry.index ≠ old.index := by
  rw [entries_close] at distinct
  constructor
  · intro entry isBefore
    exact distinct.of_append.1.ne isBefore member
  · intro entry isAfter
    exact (distinct.ne (List.mem_append_right _ member) isAfter).symm

theorem absent_separators (sound : Sound (frame.close part))
    (distinct : Distinct (frame.close part).entries)
    (member : old ∈ part.entries) :
    (frame.after = [] → ∀ entry ∈ frame.list.entries, entry.index ≠ old.index) ∧
      (frame.after ≠ [] → ∃ left separator right,
        frame.list.entries = left ++ separator :: right ∧
        left.map some = frame.before.map ending? ∧
        part.ending? = some separator ∧ Parted right frame.after ∧
        ∀ entry ∈ left ++ right, entry.index ≠ old.index) := by
  obtain ⟨_, before, _, after, parted⟩ := close_iff.mp sound
  obtain ⟨outsideLeft, outsideRight⟩ := absent_outside distinct member
  constructor
  · intro isLast entry isSeparator
    rw [isLast, parted_concat] at parted
    exact outsideLeft entry (mem_of_parted parted isSeparator before)
  · intro inner
    obtain ⟨left, separator, right, split, isLeft, bound, isRight⟩ :=
      (parted_inner inner).mp parted
    refine ⟨left, separator, right, split, isLeft, bound, isRight,
      fun entry isSeparator => ?_⟩
    rcases List.mem_append.mp isSeparator with inLeft | inRight
    · exact outsideLeft entry (mem_of_parted isLeft inLeft before)
    · obtain ⟨child, isChild, inChild⟩ := List.mem_flatMap.mp
        (mem_of_parted isRight inRight fun child isChild =>
          after child ((List.dropLast_subset _ isChild)))
      exact outsideRight entry (List.mem_flatMap.mpr
        ⟨child, (List.dropLast_subset _ isChild), inChild⟩)

private theorem last_outside (sound : Sound (frame.close part))
    (distinct : Distinct (frame.close part).entries)
    (member : old ∈ part.entries) (inner : frame.after ≠ [])
    (last : (frame.close part).ending? = some entry) :
    entry.index ≠ old.index := by
  rw [ending?_close_inner inner] at last
  have isChild := List.getLast_mem inner
  have child := (close_iff.mp sound).2.2.2.1 _ isChild
  rw [child.last_eq] at last
  exact (absent_outside distinct member).2 entry
    (List.mem_flatMap.mpr ⟨_, isChild, List.mem_of_getLast? last⟩)

theorem renew_idle (sound : Sound (plug path part))
    (distinct : Distinct (plug path part).entries)
    (member : old ∈ part.entries)
    (last : ∀ entry, part.ending? = some entry → entry.index ≠ old.index) :
    path.map (Frame.renew old.index entry) = path := by
  induction path generalizing part with
  | nil => rfl
  | cons frame path induction =>
      have whole : Sound (frame.close part) := of_plug sound
      have distinctWhole : Distinct (frame.close part).entries :=
        Distinct.of_plug distinct
      obtain ⟨atEnd, within⟩ := absent_separators whole distinctWhole member
      have absent : ∀ entry ∈ frame.list.entries, entry.index ≠ old.index := by
        by_cases isLast : frame.after = []
        · exact atEnd isLast
        · obtain ⟨left, separator, right, split, _, bound, _, others⟩ :=
            within isLast
          intro entry isSeparator
          rw [split] at isSeparator
          rcases List.mem_append.mp isSeparator with inLeft | later
          · exact others entry (List.mem_append_left _ inLeft)
          · rcases List.mem_cons.mp later with rfl | inRight
            · exact last _ bound
            · exact others entry (List.mem_append_right _ inRight)
      rw [List.map_cons, Frame.renew_of_absent absent,
        induction sound distinct (by simp [member])]
      intro entry isEnd
      by_cases isLast : frame.after = []
      · rw [ending?_close_last isLast] at isEnd
        exact last entry isEnd
      · exact last_outside whole distinctWhole member isLast isEnd

theorem swap_renewed (sound : Sound (plug path part)) (new : Sound other)
    (distinct : Distinct (plug path part).entries)
    (was : part.ending? = some old) (is : other.ending? = some entry) :
    Sound (plug (path.map (Frame.renew old.index entry)) other) := by
  induction path generalizing part other with
  | nil => exact new
  | cons frame path induction =>
      have whole : Sound (frame.close part) := of_plug sound
      have distinctWhole : Distinct (frame.close part).entries :=
        Distinct.of_plug distinct
      have member : old ∈ part.entries := by
        have part := (close_iff.mp whole).2.2.1
        rw [part.last_eq] at was
        exact List.mem_of_getLast? was
      obtain ⟨atEnd, within⟩ := absent_separators whole distinctWhole member
      by_cases isLast : frame.after = []
      · rw [List.map_cons, Frame.renew_of_absent (atEnd isLast)]
        exact induction sound (whole.swap_child new (.inr isLast)) distinct
          (by rw [ending?_close_last isLast, was])
          (by rw [ending?_close_last isLast, is])
      · obtain ⟨left, separator, right, split, isLeft, bound, isRight, others⟩ :=
          within isLast
        obtain rfl := Option.some.inj (was.symm.trans bound)
        have renewed : frame.renew old.index entry =
            { frame with list := ⟨left ++ entry :: right⟩ } :=
          Frame.renew_of_split split rfl fun other isLeft =>
            others other (List.mem_append_left _ isLeft)
        have idle : path.map (Frame.renew old.index entry) = path :=
          renew_idle sound distinct (by simp [member]) fun last isEnd =>
            last_outside whole distinctWhole member isLast isEnd
        obtain ⟨enough, before, _, after, _⟩ := close_iff.mp whole
        have closed : Sound ((frame.renew old.index entry).close other) := by
          rw [renewed]
          exact close_iff.mpr ⟨enough, before, new, after,
            (parted_inner isLast).mpr
              ⟨left, entry, right, rfl, isLeft, is, isRight⟩⟩
        have outer : Sound (plug path (frame.close part)) := sound
        rw [List.map_cons, idle]
        refine outer.swap closed (.inl ?_)
        rw [renewed]
        exact (ending?_inner isLast).trans (ending?_inner isLast).symm

end Sound

/-- A branch that is left with one child takes that child's place. -/
def joined (id : NodeId) (list : EntryList α) : List (Shape α) → Shape α
  | [child] => node id child.payload child.children
  | children => node id (some list) children

theorem entries_relabel (id : NodeId) (shape : Shape α) :
    (node id shape.payload shape.children).entries = shape.entries := by
  cases shape
  rw [entries, entries]
  rfl

theorem ending?_relabel (id : NodeId) (shape : Shape α) :
    (node id shape.payload shape.children).ending? = shape.ending? := by
  cases shape
  rw [ending?, ending?]
  rfl

theorem entries_joined {id : NodeId} {list : EntryList α}
    {children : List (Shape α)} (some : children ≠ []) :
    (joined id list children).entries = children.flatMap entries := by
  unfold joined
  split
  · rw [entries_relabel, List.flatMap_singleton]
  · exact entries_branch some

theorem ending?_joined {id : NodeId} {list : EntryList α}
    {before : List (Shape α)} {child : Shape α} :
    (joined id list (before ++ [child])).ending? = child.ending? := by
  cases before with
  | nil => exact ending?_relabel id child
  | cons first rest =>
      have : joined id list (first :: rest ++ [child]) =
          node id (some list) (first :: rest ++ [child]) := by
        cases rest <;> rfl
      rw [this, ending?_branch]

namespace Sound

theorem relabel {shape : Shape α} (sound : Sound shape) (id : NodeId) :
    Sound (node id shape.payload shape.children) := by
  cases sound with
  | leaf filled => exact .leaf filled
  | branch two below parted => exact .branch two below parted

theorem join {id : NodeId} {list : EntryList α} {children : List (Shape α)}
    (some : children ≠ []) (sound : ∀ child ∈ children, Sound child)
    (parted : Parted list.entries children) :
    Sound (joined id list children) := by
  unfold joined
  split
  · exact (sound _ (by simp)).relabel id
  · rename_i several
    refine .branch ?_ sound parted
    match children with
    | [] => exact absurd rfl some
    | [child] => exact absurd rfl (several child)
    | _ :: _ :: rest => simp

end Sound

end Subtree

open Subtree

namespace Frame

/-- The separators that stay when the child left out goes for good. The last
child has none of its own: the one before it goes. -/
def remaining (frame : Frame α) : EntryList α :=
  ⟨frame.list.entries.eraseIdx
    (if frame.after = [] then frame.before.length - 1
      else frame.before.length)⟩

variable {frame : Frame α} {part : Shape α}

theorem parted_remaining (sound : Sound (frame.close part)) :
    Parted frame.remaining.entries (frame.before ++ frame.after) := by
  obtain ⟨_, _, _, _, parted⟩ := Sound.close_iff.mp sound
  unfold remaining
  by_cases isLast : frame.after = []
  · rw [isLast, parted_concat] at parted
    have := congrArg List.length parted
    simp only [List.length_map] at this
    rw [if_pos isLast, isLast, List.append_nil, Parted, List.map_dropLast,
      ← parted, ← List.map_dropLast, ← this, List.eraseIdx_length_sub_one]
  · obtain ⟨left, separator, right, split, isLeft, _, isRight⟩ :=
      (parted_inner isLast).mp parted
    have := congrArg List.length isLeft
    simp only [List.length_map] at this
    rw [if_neg isLast, split, ← this, List.eraseIdx_append_of_length_le (by simp)]
    have rest : right.map some = (frame.after.map ending?).dropLast := by
      rw [← List.map_dropLast]
      exact isRight
    simp [Parted, List.dropLast_append_of_ne_nil isLast, isLeft, rest]

end Frame

namespace Subtree.Sound

variable {frame : Frame α} {path : List (Frame α)} {part : Shape α}
  {entry old : Entry α}

theorem length_separators (sound : Sound (frame.close part)) :
    frame.list.length = frame.before.length + frame.after.length := by
  have := sound.length_eq (by simp)
  rw [List.length_append, List.length_cons] at this
  omega

theorem join_remaining (sound : Sound (frame.close part)) :
    Sound (joined frame.id frame.remaining (frame.before ++ frame.after)) := by
  obtain ⟨enough, before, _, after, _⟩ := close_iff.mp sound
  refine Sound.join (Frame.append_ne_nil enough) ?_ (Frame.parted_remaining sound)
  intro child member
  exact (List.mem_append.mp member).elim (before child) (after child)

theorem drop_inner (sound : Sound (plug (frame :: path) part))
    (inner : frame.after ≠ []) :
    Sound (plug path
      (joined frame.id frame.remaining (frame.before ++ frame.after))) := by
  have whole : Sound (plug path (frame.close part)) := sound
  refine whole.swap (join_remaining whole.of_plug) (.inl ?_)
  have split : frame.before ++ frame.after =
      (frame.before ++ frame.after.dropLast) ++ [frame.after.getLast inner] := by
    simp [List.dropLast_concat_getLast inner]
  rw [split, ending?_joined, ending?_close_inner inner]

theorem ending?_remaining (sound : Sound (frame.close part)) (isLast : frame.after = []) :
    (joined frame.id frame.remaining (frame.before ++ frame.after)).ending? =
      frame.list.entries.getLast? := by
  obtain ⟨enough, _, _, _, parted⟩ := close_iff.mp sound
  have some : frame.before ≠ [] := enough.resolve_right (absurd isLast)
  rw [isLast, parted_concat] at parted
  have ends := congrArg List.getLast? parted
  rw [List.getLast?_map, List.getLast?_map, List.getLast?_eq_some_getLast some,
    Option.map_some] at ends
  have split : frame.before ++ frame.after =
      frame.before.dropLast ++ [frame.before.getLast some] := by
    rw [isLast, List.append_nil, List.dropLast_concat_getLast some]
  rw [split, ending?_joined]
  cases last : frame.list.entries.getLast? with
  | none =>
      rw [last] at ends
      cases ends
  | some entry =>
      rw [last] at ends
      exact (Option.some.inj ends).symm

/-- When the last part of a branch goes, the branch ends on what the separator
before that part copies. -/
theorem drop_last (sound : Sound (plug (frame :: path) part))
    (distinct : Distinct (plug (frame :: path) part).entries)
    (isLast : frame.after = []) (was : part.ending? = some old)
    (is : frame.list.entries.getLast? = some entry) :
    Sound (plug (path.map (Frame.renew old.index entry))
      (joined frame.id frame.remaining (frame.before ++ frame.after))) := by
  have whole : Sound (plug path (frame.close part)) := sound
  exact whole.swap_renewed (join_remaining whole.of_plug) distinct
    (by rw [ending?_close_last isLast, was])
    (by rw [ending?_remaining whole.of_plug isLast, is])

theorem absent_remaining (sound : Sound (frame.close part))
    (distinct : Distinct (frame.close part).entries) (isLast : frame.after = [])
    (member : old ∈ part.entries) :
    ∀ entry ∈ frame.remaining.entries, entry.index ≠ old.index := by
  intro entry stays
  exact (absent_separators sound distinct member).1 isLast entry
    (List.mem_of_mem_eraseIdx stays)

end Subtree.Sound

end LinkedBTree
