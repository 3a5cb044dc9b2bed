import LinkedBTree.EntryList.Basic
import LinkedBTree.Proofs.Arena.Subtree

namespace LinkedBTree

/-! The entries of a tree of entry lists, and when its separators are in
place. -/

abbrev Shape (α : Type) : Type :=
  Subtree (EntryList α)

variable {α : Type}

namespace Subtree

def own (shape : Shape α) : List (Entry α) :=
  shape.payload.elim [] EntryList.entries

/-- The entries of all leaves, from left to right. -/
def entries : Shape α → List (Entry α)
  | node id payload children =>
      if children = [] then own (node id payload children)
      else children.flatMap entries

def ending? : Shape α → Option (Entry α)
  | node id payload children =>
      if children = [] then (own (node id payload children)).getLast?
      else (children.map ending?).getLast?.join

section

variable {id : NodeId} {payload : Option (EntryList α)} {list : EntryList α}
  {child : Shape α} {children before after : List (Shape α)}

@[simp] theorem own_node : (node id (some list) children).own = list.entries :=
  rfl

@[simp] theorem entries_leaf :
    (node id (some list) []).entries = list.entries := by
  rw [entries, if_pos rfl, own_node]

theorem entries_branch (inner : children ≠ []) :
    (node id payload children).entries = children.flatMap entries := by
  rw [entries, if_neg inner]

@[simp] theorem ending?_leaf :
    (node id (some list) []).ending? = list.entries.getLast? := by
  rw [ending?, if_pos rfl, own_node]

@[simp] theorem ending?_branch :
    (node id payload (before ++ [child])).ending? = child.ending? := by
  rw [ending?, if_neg (by simp), List.map_append, List.map_singleton,
    List.getLast?_concat]
  rfl

end

/-- Every leaf holds something, every branch parts at least two children, and
each of its separators is the last entry of the child before it. -/
inductive Sound : Shape α → Prop
  | leaf {id : NodeId} {list : EntryList α} :
      list.entries ≠ [] → Sound (node id (some list) [])
  | branch {id : NodeId} {list : EntryList α} {children : List (Shape α)} :
      2 ≤ children.length → (∀ child ∈ children, Sound child) →
      list.entries.map some = children.dropLast.map ending? →
      Sound (node id (some list) children)

namespace Sound

variable {shape : Shape α} {list : EntryList α} {children : List (Shape α)}
  {id : NodeId} {payload : Option (EntryList α)}

theorem children_sound (sound : Sound (node id payload children)) :
    ∀ child ∈ children, Sound child := by
  cases sound with
  | leaf _ => exact fun _ member => nomatch member
  | branch _ below _ => exact below

theorem of_inner (sound : Sound (node id (some list) children))
    (inner : children ≠ []) :
    2 ≤ children.length ∧
      list.entries.map some = children.dropLast.map ending? := by
  cases sound with
  | leaf _ => exact absurd rfl inner
  | branch two _ parted => exact ⟨two, parted⟩

theorem length_eq (sound : Sound (node id (some list) children))
    (inner : children ≠ []) : children.length = list.length + 1 := by
  obtain ⟨two, parted⟩ := sound.of_inner inner
  have := congrArg List.length parted
  rw [List.length_map, List.length_map, List.length_dropLast] at this
  unfold EntryList.length
  omega

theorem ending?_eq (sound : Sound shape) :
    shape.ending? = shape.entries.getLast? ∧ shape.entries ≠ [] := by
  induction shape using Subtree.induction with
  | node id payload children induction =>
      cases sound with
      | leaf filled =>
          rw [ending?_leaf, entries_leaf]
          exact ⟨rfl, filled⟩
      | branch two below parted =>
          have inner : children ≠ [] := by
            rintro rfl
            simp at two
          obtain ⟨before, child, rfl⟩ : ∃ before child,
              children = before ++ [child] :=
            ⟨_, _, (List.dropLast_concat_getLast inner).symm⟩
          have member : child ∈ before ++ [child] := by simp
          obtain ⟨last, filled⟩ := induction child member (below child member)
          rw [ending?_branch, entries_branch inner, List.flatMap_append,
            List.flatMap_singleton, List.getLast?_append, last]
          constructor
          · rw [List.getLast?_eq_some_getLast filled, Option.some_or]
          · exact List.append_ne_nil_of_right_ne_nil _ filled

theorem filled (sound : Sound shape) : shape.entries ≠ [] :=
  sound.ending?_eq.2

theorem last_eq (sound : Sound shape) :
    shape.ending? = shape.entries.getLast? :=
  sound.ending?_eq.1

end Sound

end Subtree

end LinkedBTree
