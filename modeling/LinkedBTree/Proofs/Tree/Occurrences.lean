import Mathlib.Data.List.Nodup
import Mathlib.Data.List.Perm.Basic
import Mathlib.Data.List.Perm.Subperm
import LinkedBTree.Proofs.Tree.Recasting
import LinkedBTree.Proofs.Tree.Reshaping
import LinkedBTree.Proofs.Tree.Standing

namespace LinkedBTree

/-! Where an index occurs in a tree: at one entry of a leaf and at one separator
at most, which stands above that leaf. -/

variable {α : Type}

open Subtree

namespace Tree

def Row.separators (row : Row α) : List (Entry α) :=
  if row.children = [] then [] else row.list.elim [] EntryList.entries

def separators (tree : Tree α) : Except Error (List (Entry α)) := do
  pure ((← tree.dump).flatMap Row.separators)

end Tree

namespace EntryList

def exchange (index : Nat) (entry : Entry α) (list : EntryList α) : EntryList α :=
  ⟨list.entries.map fun old => if old.index = index then entry else old⟩

variable {index : Nat} {entry : Entry α} {list : EntryList α}

theorem map_of_absent {entries : List (Entry α)}
    (absent : ∀ other ∈ entries, other.index ≠ index) :
    (entries.map fun old => if old.index = index then entry else old) = entries := by
  conv => rhs; rw [← List.map_id' entries]
  exact List.map_congr_left fun other member => if_neg (absent other member)

theorem exchange_of_absent (absent : ∀ other ∈ list.entries, other.index ≠ index) :
    list.exchange index entry = list :=
  congrArg mk (map_of_absent absent)

theorem exchange_of_split {left right : List (Entry α)} {old : Entry α}
    (split : list.entries = left ++ old :: right) (isOld : old.index = index)
    (absent : ∀ other ∈ left ++ right, other.index ≠ index) :
    list.exchange index entry = ⟨left ++ entry :: right⟩ := by
  unfold exchange
  rw [split, List.map_append, List.map_cons, if_pos isOld,
    map_of_absent fun other member => absent other (List.mem_append_left _ member),
    map_of_absent fun other member => absent other (List.mem_append_right _ member)]

/-- Lets `last`, if there is one, take the place of what is stored under `index`. -/
def refresh (index : Nat) (last : Option (Entry α)) (list : EntryList α) : EntryList α :=
  last.elim list fun entry => list.exchange index entry

theorem refresh_of_absent {last : Option (Entry α)}
    (absent : ∀ other ∈ list.entries, other.index ≠ index) :
    list.refresh index last = list := by
  cases last with
  | none => rfl
  | some entry => exact exchange_of_absent absent

end EntryList

namespace Subtree

def separators : Shape α → List (Entry α)
  | node id payload children =>
      (if children = [] then [] else own (node id payload children)) ++
        children.flatMap separators

theorem separators_leaf (id : NodeId) (payload : Option (EntryList α)) :
    (node id payload []).separators = [] := by
  rw [separators, if_pos rfl, List.nil_append, List.flatMap_nil]

theorem separators_branch {id : NodeId} {list : EntryList α} {children : List (Shape α)}
    (inner : children ≠ []) : (node id (some list) children).separators =
      list.entries ++ children.flatMap separators := by
  rw [separators, if_neg inner, own_node]

theorem separators_rows (shape : Shape α) (parent : Option NodeId) :
    (shape.rows parent).flatMap Tree.Row.separators = shape.separators := by
  induction shape using Subtree.induction generalizing parent with
  | node id payload children induction =>
      have above : Tree.Row.separators ⟨id, parent, payload, children.map Subtree.id⟩ =
          if children = [] then [] else own (node id payload children) := by
        unfold Tree.Row.separators
        simp only [List.map_eq_nil_iff]
        rfl
      rw [rows_node, List.flatMap_cons, List.flatMap_assoc, separators, above,
        List.flatMap_def, List.flatMap_def]
      exact congrArg (_ ++ List.flatten ·)
        (List.map_congr_left fun child member => induction child member (some id))

private theorem subperm_flatMap {β γ : Type} {items : List β} {read bound : β → List γ}
    (within : ∀ item ∈ items, (read item).Subperm (bound item)) :
    (items.flatMap read).Subperm (items.flatMap bound) := by
  induction items with
  | nil => exact List.Subperm.refl _
  | cons item rest induction =>
      rw [List.flatMap_cons, List.flatMap_cons]
      exact (within item (by simp)).append
        (induction fun other member => within other (by simp [member]))

/-- Every separator copies the end of another part of the tree, and none the end
of the whole. -/
theorem Sound.subperm_separators {shape : Shape α} (sound : Sound shape) :
    (shape.separators ++ shape.ending?.toList).Subperm shape.entries := by
  induction shape using Subtree.induction with
  | node id payload children induction =>
      cases sound with
      | leaf filled =>
          rw [separators_leaf, ending?_leaf, entries_leaf, List.nil_append,
            List.getLast?_eq_some_getLast filled]
          exact List.singleton_subperm_iff.mpr (List.getLast_mem filled)
      | @branch _ list _ two below parted =>
          have inner : children ≠ [] := by
            rintro rfl
            simp at two
          obtain ⟨before, child, rfl⟩ : ∃ before child, children = before ++ [child] :=
            ⟨_, _, (List.dropLast_concat_getLast inner).symm⟩
          have parted : list.entries.map some = before.map ending? :=
            parted_concat.mp parted
          have copies : list.entries = before.flatMap fun part => part.ending?.toList := by
            have same := congrArg (List.flatMap Option.toList) parted
            rw [List.flatMap_map, List.flatMap_map] at same
            simpa using same
          have ends : ((before ++ [child]).flatMap fun part => part.ending?.toList) =
              list.entries ++ child.ending?.toList := by
            rw [List.flatMap_append, List.flatMap_singleton, ← copies]
          have parts := subperm_flatMap fun part member =>
            induction part member (below part member)
          rw [separators_branch inner, ending?_branch, entries_branch inner]
          refine List.Perm.subperm ?_ |>.trans parts
          refine List.Perm.trans ?_ (List.flatMap_append_perm (before ++ [child])
            separators fun part => part.ending?.toList)
          rw [ends, ← List.append_assoc]
          exact List.perm_append_comm.append_right _

section

variable {shape part : Shape α} {path : List (Frame α)} {frame : Frame α} {index : Nat}
  {entry old : Entry α} {last : Option (Entry α)}

theorem Distinct.countP_le {entries : List (Entry α)} (distinct : Distinct entries)
    (index : Nat) : entries.countP (·.index = index) ≤ 1 := by
  have once := List.nodup_iff_count_le_one.mp distinct index
  rw [List.count_eq_countP, List.countP_map] at once
  exact once

theorem Distinct.countP_eq_one {entries : List (Entry α)} (distinct : Distinct entries)
    (member : entry ∈ entries) : entries.countP (·.index = entry.index) = 1 :=
  Nat.le_antisymm (distinct.countP_le _)
    (List.countP_pos_iff.mpr ⟨entry, member, decide_eq_true rfl⟩)

theorem Sound.countP_separators_le (sound : Sound shape) (distinct : Distinct shape.entries)
    (index : Nat) : shape.separators.countP (·.index = index) ≤ 1 := by
  refine Nat.le_trans ?_ (distinct.countP_le index)
  refine Nat.le_trans ?_ (sound.subperm_separators.countP_le _)
  rw [List.countP_append]
  exact Nat.le_add_right ..

theorem Sound.mem_entries_of_twig {twig : Twig (EntryList α)} {list : EntryList α}
    (sound : Sound shape) (isTwig : twig ∈ shape.twigs) (isList : twig.payload = some list)
    (member : entry ∈ list.entries) : entry ∈ shape.entries := by
  induction shape using Subtree.induction with
  | node id payload children induction =>
      rw [twigs_node, List.mem_cons] at isTwig
      rcases isTwig with rfl | below
      · obtain rfl := isList
        exact sound.mem_entries member
      · obtain ⟨child, isChild, isTwig⟩ := List.mem_flatMap.mp below
        rw [entries_branch (List.ne_nil_of_mem isChild)]
        exact List.mem_flatMap.mpr ⟨child, isChild,
          induction child isChild (sound.children_sound child isChild) isTwig⟩

theorem Sound.recast_of_absent (sound : Sound shape)
    (absent : ∀ other ∈ shape.entries, other.index ≠ index) :
    shape.recast (EntryList.refresh index last) = shape := by
  induction shape using Subtree.induction with
  | node id payload children induction =>
      obtain ⟨list, rfl⟩ := sound.formed.list_of
      have same : children.map (recast (EntryList.refresh index last)) = children := by
        conv => rhs; rw [← List.map_id' children]
        refine List.map_congr_left fun child member => ?_
        refine induction child member (sound.children_sound child member) ?_
        intro other inside
        apply absent other
        rw [entries_branch (List.ne_nil_of_mem member)]
        exact List.mem_flatMap.mpr ⟨child, member, inside⟩
      rw [recast_node, same, Option.map_some, EntryList.refresh_of_absent
        fun other member => absent other (sound.mem_entries member)]

end

end Subtree

def Frame.recast (change : EntryList α → EntryList α) (frame : Frame α) : Frame α where
  id := frame.id
  list := change frame.list
  before := frame.before.map (Subtree.recast change)
  after := frame.after.map (Subtree.recast change)

namespace Subtree

variable {path : List (Frame α)} {part : Shape α} {frame : Frame α} {old : Entry α}
  {last : Option (Entry α)}

theorem recast_plug {change : EntryList α → EntryList α} : (plug path part).recast change =
    plug (path.map (Frame.recast change)) (part.recast change) := by
  induction path generalizing part with
  | nil => rfl
  | cons frame path induction =>
      rw [plug, induction, List.map_cons, plug]
      apply congrArg (plug _)
      rw [Frame.close, Frame.close, recast_node, List.map_append, List.map_cons]
      rfl

namespace Sound

private theorem refresh_list (sound : Sound (frame.close part))
    (distinct : Distinct (frame.close part).entries) (member : old ∈ part.entries) :
    frame.refresh old.index last =
      { frame with list := frame.list.refresh old.index last } := by
  obtain ⟨atEnd, within⟩ := absent_separators sound distinct member
  have still (absent : ∀ other ∈ frame.list.entries, other.index ≠ old.index) :
      frame.refresh old.index last =
        { frame with list := frame.list.refresh old.index last } := by
    rw [EntryList.refresh_of_absent absent]
    cases last with
    | none => rfl
    | some entry => exact Frame.renew_of_absent absent
  by_cases isLast : frame.after = []
  · exact still (atEnd isLast)
  · obtain ⟨left, separator, right, split, _, bound, _, others⟩ := within isLast
    by_cases isOld : separator.index = old.index
    · cases last with
      | none => rfl
      | some entry =>
          rw [EntryList.refresh, Option.elim_some,
            EntryList.exchange_of_split split isOld others]
          exact Frame.renew_of_split split isOld fun other isLeft =>
            others other (List.mem_append_left _ isLeft)
    · apply still
      rw [split]
      intro other isSeparator
      grind

theorem recast_path (sound : Sound (plug path part))
    (distinct : Distinct (plug path part).entries) (member : old ∈ part.entries) :
    path.map (Frame.recast (EntryList.refresh old.index last)) =
      path.map (Frame.refresh old.index last) := by
  induction path generalizing part with
  | nil => rfl
  | cons frame path induction =>
      have whole : Sound (frame.close part) := of_plug sound
      have distinctWhole : Distinct (frame.close part).entries := Distinct.of_plug distinct
      obtain ⟨_, before, _, after, _⟩ := close_iff.mp whole
      obtain ⟨outsideLeft, outsideRight⟩ := absent_outside distinctWhole member
      have still : ∀ parts : List (Shape α), (∀ part ∈ parts, Sound part) →
          (∀ other ∈ parts.flatMap entries, other.index ≠ old.index) →
          parts.map (recast (EntryList.refresh old.index last)) = parts := by
        intro parts sound absent
        conv => rhs; rw [← List.map_id' parts]
        refine List.map_congr_left fun part isPart => ?_
        exact (sound part isPart).recast_of_absent fun other inside =>
          absent other (List.mem_flatMap.mpr ⟨part, isPart, inside⟩)
      rw [List.map_cons, List.map_cons, refresh_list whole distinctWhole member,
        induction sound distinct (by simp [member]), Frame.recast,
        still _ before outsideLeft, still _ after outsideRight]

theorem mem_path_of_around {twig : Twig (EntryList α)} {list : EntryList α}
    {entry : Entry α} (sound : Sound (plug path part))
    (distinct : Distinct (plug path part).entries) (isOld : old ∈ part.entries)
    (isTwig : twig ∈ around path part.id) (isList : twig.payload = some list)
    (member : entry ∈ list.entries) (same : entry.index = old.index) :
    twig.id ∈ path.map Frame.id := by
  induction path generalizing part with
  | nil => cases isTwig
  | cons frame path induction =>
      have whole : Sound (frame.close part) := of_plug sound
      obtain ⟨_, before, _, after, _⟩ := close_iff.mp whole
      obtain ⟨outsideLeft, outsideRight⟩ :=
        absent_outside (Distinct.of_plug distinct) isOld
      have absent : ∀ parts : List (Shape α), (∀ part ∈ parts, Sound part) →
          (∀ other ∈ parts.flatMap entries, other.index ≠ old.index) →
          twig ∉ parts.flatMap twigs := by
        intro parts sound absent inside
        obtain ⟨part, isPart, isTwig⟩ := List.mem_flatMap.mp inside
        exact absent entry (List.mem_flatMap.mpr ⟨part, isPart,
          (sound part isPart).mem_entries_of_twig isTwig isList member⟩) same
      rw [around, List.mem_cons, List.mem_append, List.mem_append] at isTwig
      rw [List.map_cons, List.mem_cons]
      rcases isTwig with rfl | (isBefore | isAfter) | above
      · exact .inl rfl
      · exact absurd isBefore (absent _ before outsideLeft)
      · exact absurd isAfter (absent _ after outsideRight)
      · have sound : Sound (plug path (frame.close part)) := sound
        exact .inr (induction sound distinct (by simp [isOld]) above)

end Sound

end Subtree

theorem Tree.separators_eq {tree : Tree α} {shape : Shape α} (embodies : tree.Embodies shape) :
    tree.separators = .ok shape.separators := by
  unfold separators
  rw [bind_of_ok (dump_eq embodies), separators_rows]
  rfl

end LinkedBTree
