import LinkedBTree.Proofs.Ledger
import LinkedBTree.Proofs.Tree.Embodiment
import LinkedBTree.Proofs.Tree.Form

namespace LinkedBTree

/-! What holds of a tree between two operations: it is stored as a sound
shape, whose leaf entries are the live entries of the values array. -/

variable {α : Type}

open Subtree

/-- Each of `entries` is the live entry its index names, and there are no
others. -/
structure ValueTable.Mirrors (table : ValueTable α)
    (entries : List (Entry α)) : Prop where
  distinct : Distinct entries
  stored : ∀ entry ∈ entries, table.value? entry.index = some entry.value
  listed : ∀ index value, table.value? index = some value →
    ∃ entry ∈ entries, entry.index = index

namespace ValueTable

variable {table : ValueTable α} {entry : Entry α} {left right : List (Entry α)}

theorem value?_push (table : ValueTable α) (value : α) (index : Nat) :
    (table.push value).value? index =
      if index = table.size then some value else table.value? index := by
  unfold value? push size
  simp only [Array.getElem?_push]
  split <;> rfl

theorem lt_size_of_value? {index : Nat} {value : α}
    (known : table.value? index = some value) : index < table.size := by
  unfold value? at known
  cases found : table.entries[index]? with
  | none => simp [found] at known
  | some _ => exact (Array.getElem?_eq_some_iff.mp found).1

theorem value?_put {index : Nat} (inRange : index < table.size)
    (value : Option α) (other : Nat) :
    (table.put index value).value? other =
      if other = index then value else table.value? other := by
  unfold value? put ofEntries size at *
  by_cases same : other = index
  · simp [same, inRange]
  · simp [same, Array.getElem?_setIfInBounds_ne (Ne.symm same)]

namespace Mirrors

theorem middle_iff : Distinct (left ++ entry :: right) ↔
    Distinct (left ++ right) ∧
      ∀ other ∈ left ++ right, other.index ≠ entry.index := by
  unfold Distinct
  simp only [List.map_append, List.map_cons, List.nodup_append, List.nodup_cons,
    List.mem_map, List.mem_cons, List.mem_append]
  grind

theorem mem_of_value? {entries : List (Entry α)} {index : Nat} {value : α}
    (mirrors : table.Mirrors entries) (known : table.value? index = some value) :
    ⟨value, index⟩ ∈ entries := by
  obtain ⟨⟨other, _⟩, member, rfl⟩ := mirrors.listed index value known
  have same := (mirrors.stored _ member).symm.trans known
  exact Option.some.inj same ▸ member

theorem push (mirrors : table.Mirrors (left ++ right)) (value : α) :
    (table.push value).Mirrors (left ++ ⟨value, table.size⟩ :: right) where
  distinct := by
    refine middle_iff.mpr ⟨mirrors.distinct, fun other member => ?_⟩
    exact Nat.ne_of_lt (lt_size_of_value? (mirrors.stored other member))
  stored := by
    intro entry member
    rw [value?_push]
    by_cases isNew : entry = ⟨value, table.size⟩
    · simp [isNew]
    · have old : entry ∈ left ++ right := by grind
      have known := mirrors.stored entry old
      rw [if_neg (Nat.ne_of_lt (lt_size_of_value? known)), known]
  listed := by
    intro index other known
    rw [value?_push] at known
    split at known
    · exact ⟨⟨value, table.size⟩, by simp, by simp [*]⟩
    · obtain ⟨entry, member, isIndex⟩ := mirrors.listed index other known
      exact ⟨entry, by grind, isIndex⟩

theorem erase (mirrors : table.Mirrors (left ++ entry :: right)) :
    (table.put entry.index none).Mirrors
      (left ++ right) where
  distinct := (middle_iff.mp mirrors.distinct).1
  stored := by
    intro other member
    have different := (middle_iff.mp mirrors.distinct).2 other member
    have inRange := lt_size_of_value? (mirrors.stored entry (by simp))
    rw [value?_put inRange, if_neg different]
    exact mirrors.stored other (by grind)
  listed := by
    intro index value known
    have inRange := lt_size_of_value? (mirrors.stored entry (by simp))
    rw [value?_put inRange] at known
    split at known
    · cases known
    · obtain ⟨other, member, isIndex⟩ := mirrors.listed index value known
      refine ⟨other, ?_, isIndex⟩
      have : other ≠ entry := by
        rintro rfl
        exact ‹index ≠ _› isIndex.symm
      grind

theorem overwrite (mirrors : table.Mirrors (left ++ entry :: right))
    (value : α) :
    (table.put entry.index (some value)).Mirrors (left ++ ⟨value, entry.index⟩ :: right) where
  distinct :=
    have ⟨others, apart⟩ := middle_iff.mp mirrors.distinct
    middle_iff.mpr ⟨others, apart⟩
  stored := by
    intro other member
    have inRange := lt_size_of_value? (mirrors.stored entry (by simp))
    rw [value?_put inRange]
    by_cases isNew : other = ⟨value, entry.index⟩
    · simp [isNew]
    · have old : other ∈ left ++ right := by grind
      rw [if_neg ((middle_iff.mp mirrors.distinct).2 other old)]
      exact mirrors.stored other (by grind)
  listed := by
    intro index stored known
    have inRange := lt_size_of_value? (mirrors.stored entry (by simp))
    rw [value?_put inRange] at known
    split at known
    · exact ⟨⟨value, entry.index⟩, by simp, by simp [*]⟩
    · obtain ⟨other, member, isIndex⟩ := mirrors.listed index stored known
      refine ⟨other, ?_, isIndex⟩
      have : other ≠ entry := by
        rintro rfl
        exact ‹index ≠ _› isIndex.symm
      grind

end Mirrors

end ValueTable

namespace Tree

/-- The tree is stored as `shape`, its leaves are filled, and the values array
agrees with them. -/
structure Upright (tree : Tree α) (shape : Shape α) : Prop where
  embodies : tree.Embodies shape
  formed : Formed shape ∨ shape = .node tree.root (some {}) []
  mirrors : tree.values.Mirrors shape.entries

/-- The tree is stored as `shape`, everything in it is in its place, and the
values array agrees. -/
structure Standing (tree : Tree α) (shape : Shape α) : Prop where
  embodies : tree.Embodies shape
  sound : Sound shape ∨ shape = .node tree.root (some {}) []
  mirrors : tree.values.Mirrors shape.entries

theorem children_plug_ne_nil {frame : Frame α} {path : List (Frame α)}
    {part : Shape α} : (plug (frame :: path) part).children ≠ [] := by
  induction path generalizing frame part with
  | nil => simp [plug, Frame.close]
  | cons above path induction => exact induction

theorem eq_of_plug_leaf {path : List (Frame α)} {part : Shape α} {id : NodeId}
    {payload : Option (EntryList α)} (empty : plug path part = .node id payload []) :
    path = [] ∧ part = .node id payload [] := by
  cases path with
  | nil => exact ⟨rfl, empty⟩
  | cons frame path =>
      have := @children_plug_ne_nil α frame path part
      rw [empty] at this
      exact absurd rfl this

theorem Standing.upright {tree : Tree α} {shape : Shape α}
    (standing : tree.Standing shape) : tree.Upright shape :=
  ⟨standing.embodies, standing.sound.imp_left Sound.formed, standing.mirrors⟩

theorem Standing.sound_or_empty {tree : Tree α} {path : List (Frame α)}
    {part : Shape α} (standing : tree.Standing (plug path part)) :
    Sound (plug path part) ∨
      path = [] ∧ part = .node tree.root (some {}) [] :=
  standing.sound.imp_right eq_of_plug_leaf

theorem Standing.sound_of_filled {tree : Tree α} {path : List (Frame α)}
    {leaf : NodeId} {list : EntryList α}
    (standing : tree.Standing (plug path (.node leaf (some list) [])))
    (filled : list.entries ≠ []) :
    Sound (plug path (.node leaf (some list) [])) := by
  apply standing.sound_or_empty.resolve_right
  rintro ⟨_, empty⟩
  injection empty with _ isEmpty _
  rw [Option.some.inj isEmpty] at filled
  exact filled rfl

namespace Upright

variable {tree : Tree α} {path : List (Frame α)} {part shape : Shape α}

theorem formed_or_empty (upright : tree.Upright (plug path part)) :
    Formed (plug path part) ∨
      path = [] ∧ part = .node tree.root (some {}) [] :=
  upright.formed.imp_right eq_of_plug_leaf

theorem part_eq (upright : tree.Upright (plug path part)) :
    ∃ list, part = .node part.id (some list) part.children ∧
      (part.children ≠ [] → part.children.length = list.length + 1) := by
  rcases upright.formed_or_empty with formed | ⟨_, rfl⟩
  · have formed := formed.of_plug
    obtain ⟨id, payload, children⟩ := part
    obtain ⟨list, rfl⟩ := formed.list_of
    exact ⟨list, rfl, fun inner => (formed.of_inner inner).2⟩
  · exact ⟨{}, rfl, fun inner => absurd rfl inner⟩

theorem formed_of_filled {leaf : NodeId} {list : EntryList α}
    (upright : tree.Upright (plug path (.node leaf (some list) [])))
    (filled : list.entries ≠ []) :
    Formed (plug path (.node leaf (some list) [])) := by
  apply upright.formed_or_empty.resolve_right
  rintro ⟨_, empty⟩
  injection empty with _ isEmpty _
  rw [Option.some.inj isEmpty] at filled
  exact filled rfl

theorem exists_part {id : NodeId} (upright : tree.Upright shape)
    (member : id ∈ shape.ids) :
    ∃ path part, shape = plug path part ∧ part.id = id := by
  rcases upright.formed with formed | rfl
  · exact formed.exists_path member
  · have same : id = tree.root := by simpa using member
    exact ⟨[], _, rfl, same.symm⟩

theorem exists_node {id : NodeId} (upright : tree.Upright shape)
    (member : id ∈ shape.ids) :
    ∃ path list children, shape = plug path (.node id (some list) children) := by
  obtain ⟨path, part, rfl, rfl⟩ := upright.exists_part member
  obtain ⟨list, isPart, _⟩ := upright.part_eq
  exact ⟨path, list, part.children, by rw [← isPart]⟩

end Upright

end Tree

theorem Edit.putValue_eq {tree : Tree α} {index : Nat} {value : α}
    (known : tree.values.value? index = some value) (new : Option α) :
    putValue index new tree = .ok (some value)
      { tree with values := tree.values.put index new } := by
  rw [putValue, run_get_bind,
    run_lift_bind (ValueTable.set_eq (ValueTable.get_of_value? known) new)]
  rfl

end LinkedBTree
