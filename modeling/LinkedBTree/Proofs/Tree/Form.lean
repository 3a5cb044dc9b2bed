import LinkedBTree.Proofs.Tree.Context

namespace LinkedBTree.Subtree

/-! The form of a tree, whatever its separators are: it is kept by every edit,
even where answers contradict each other. -/

variable {α : Type}

/-- Every leaf holds something, and every branch parts at least two children,
with a separator between any two. -/
inductive Formed : Shape α → Prop
  | leaf {id : NodeId} {list : EntryList α} :
      list.entries ≠ [] → Formed (node id (some list) [])
  | branch {id : NodeId} {list : EntryList α} {children : List (Shape α)} :
      2 ≤ children.length → (∀ child ∈ children, Formed child) →
      children.length = list.length + 1 → Formed (node id (some list) children)

theorem Sound.formed {shape : Shape α} (sound : Sound shape) : Formed shape := by
  induction shape using Subtree.induction with
  | node id payload children induction =>
      cases sound with
      | leaf filled => exact .leaf filled
      | @branch _ list _ two below parted =>
          have whole : Sound (node id (some list) children) :=
            .branch two below parted
          refine .branch two (fun child member =>
            induction child member (below child member)) (whole.length_eq ?_)
          rintro rfl
          simp at two

namespace Formed

variable {shape : Shape α} {list : EntryList α} {children : List (Shape α)}
  {id : NodeId} {payload : Option (EntryList α)}

theorem children_formed (formed : Formed (node id payload children)) :
    ∀ child ∈ children, Formed child := by
  cases formed with
  | leaf _ => exact fun _ member => nomatch member
  | branch _ below _ => exact below

theorem list_of (formed : Formed (node id payload children)) :
    ∃ list, payload = some list := by
  cases formed with
  | leaf _ => exact ⟨_, rfl⟩
  | branch _ _ _ => exact ⟨_, rfl⟩

theorem of_inner (formed : Formed (node id (some list) children))
    (inner : children ≠ []) :
    2 ≤ children.length ∧ children.length = list.length + 1 := by
  cases formed with
  | leaf _ => exact absurd rfl inner
  | branch two _ length => exact ⟨two, length⟩

theorem filled (formed : Formed shape) : shape.entries ≠ [] := by
  induction shape using Subtree.induction with
  | node id payload children induction =>
      cases formed with
      | leaf filled =>
          rw [entries_leaf]
          exact filled
      | branch two below _ =>
          cases children with
          | nil => simp at two
          | cons child rest =>
              rw [entries_branch (List.cons_ne_nil child rest), List.flatMap_cons]
              exact List.append_ne_nil_of_left_ne_nil
                (induction child (by simp) (below child (by simp))) _

theorem relabel (formed : Formed shape) (id : NodeId) :
    Formed (node id shape.payload shape.children) := by
  cases formed with
  | leaf filled => exact .leaf filled
  | branch two below length => exact .branch two below length

theorem join (some : children ≠ []) (formed : ∀ child ∈ children, Formed child)
    (length : children.length = list.length + 1) :
    Formed (joined id list children) := by
  unfold joined
  split
  · exact (formed _ (by simp)).relabel id
  · rename_i several
    refine .branch ?_ formed length
    match children with
    | [] => exact absurd rfl some
    | [child] => exact absurd rfl (several child)
    | _ :: _ :: rest => simp

variable {frame : Frame α} {path : List (Frame α)} {part other : Shape α}

theorem close_iff : Formed (frame.close part) ↔
    (frame.before ≠ [] ∨ frame.after ≠ []) ∧
      (∀ child ∈ frame.before, Formed child) ∧ Formed part ∧
      (∀ child ∈ frame.after, Formed child) ∧
      frame.list.length = frame.before.length + frame.after.length := by
  have length : (frame.before ++ part :: frame.after).length =
      frame.before.length + frame.after.length + 1 := by
    rw [List.length_append, List.length_cons]
    rfl
  have two : 2 ≤ (frame.before ++ part :: frame.after).length ↔
      frame.before ≠ [] ∨ frame.after ≠ [] := by
    rw [length]
    cases frame.before <;> cases frame.after <;> simp
    omega
  constructor
  · intro formed
    obtain ⟨enough, count⟩ := of_inner formed (by simp)
    have below := children_formed formed
    refine ⟨two.mp enough, ?_, ?_, ?_, by omega⟩
    · exact fun child member => below child (by simp [member])
    · exact below part (by simp)
    · exact fun child member => below child (by simp [member])
  · rintro ⟨enough, before, formed, after, count⟩
    refine .branch (two.mpr enough) ?_ (by omega)
    intro child member
    rcases List.mem_append.mp member with isBefore | later
    · exact before child isBefore
    · rcases List.mem_cons.mp later with rfl | isAfter
      · exact formed
      · exact after child isAfter

theorem of_plug (formed : Formed (plug path part)) : Formed part := by
  induction path generalizing part with
  | nil => exact formed
  | cons frame path induction =>
      exact (close_iff.mp (induction formed)).2.2.1

theorem enough (formed : Formed (plug path part)) :
    ∀ frame ∈ path, frame.before ≠ [] ∨ frame.after ≠ [] := by
  induction path generalizing part with
  | nil => exact fun _ member => nomatch member
  | cons frame path induction =>
      have whole : Formed (frame.close part) := of_plug formed
      exact List.forall_mem_cons.mpr ⟨(close_iff.mp whole).1, induction formed⟩

theorem swap (formed : Formed (plug path part)) (new : Formed other) :
    Formed (plug path other) := by
  induction path generalizing part other with
  | nil => exact new
  | cons frame path induction =>
      have whole : Formed (frame.close part) := of_plug formed
      obtain ⟨enough, before, _, after, length⟩ := close_iff.mp whole
      exact induction formed
        (close_iff.mpr ⟨enough, before, new, after, length⟩)

theorem exists_path {id : NodeId} (formed : Formed shape)
    (member : id ∈ shape.ids) :
    ∃ path part, shape = plug path part ∧ part.id = id := by
  induction shape using Subtree.induction with
  | node top payload children induction =>
      rw [ids_node, List.mem_cons] at member
      rcases member with rfl | below
      · exact ⟨[], _, rfl, rfl⟩
      · obtain ⟨child, isChild, inside⟩ := List.mem_flatMap.mp below
        obtain ⟨path, part, closed, isId⟩ := induction child isChild
          (formed.children_formed child isChild) inside
        obtain ⟨list, rfl⟩ := formed.list_of
        obtain ⟨before, after, rfl⟩ := List.append_of_mem isChild
        refine ⟨path ++ [⟨top, list, before, after⟩], part, ?_, isId⟩
        rw [plug_append, ← closed]
        rfl

end Formed

end LinkedBTree.Subtree
