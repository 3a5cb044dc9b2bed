import Mathlib.Algebra.Order.Floor.Div
import LinkedBTree.EntryList.Basic

namespace LinkedBTree.EntryList

/-! Cutting an entry list into pieces. Nothing is lost or reordered, and all
pieces but the last are of the size asked for. -/

variable {α β : Type}

/-- Consecutive pieces of `size` elements, the last one as long as it comes. -/
def cut (size : Nat) : List β → List (List β)
  | [] => []
  | first :: rest =>
      if size = 0 then
        [first :: rest]
      else
        (first :: rest.take (size - 1)) :: cut size (rest.drop (size - 1))
termination_by elements => elements.length
decreasing_by
  simp only [List.length_drop, List.length_cons]
  omega

def pieces (list : EntryList α) (size : Nat) : List (EntryList α) :=
  (cut size list.entries).map EntryList.mk

/-- The last entry of every list but the final one. -/
def separators (lists : List (EntryList α)) : EntryList α :=
  ⟨lists.dropLast.filterMap last?⟩

@[simp] theorem cut_nil (size : Nat) : cut size ([] : List β) = [] := by
  rw [cut]

theorem cut_zero (first : β) (rest : List β) : cut 0 (first :: rest) = [first :: rest] := by
  rw [cut, if_pos rfl]

theorem cut_cons {size : Nat} (positive : 0 < size) (first : β) (rest : List β) :
    cut size (first :: rest) =
      (first :: rest.take (size - 1)) :: cut size (rest.drop (size - 1)) := by
  rw [cut, if_neg (Nat.ne_of_gt positive)]

theorem flatten_cut (size : Nat) (elements : List β) :
    (cut size elements).flatten = elements := by
  induction elements using cut.induct size with
  | case1 => simp
  | case2 first rest none => simp [none, cut_zero]
  | case3 first rest some ih => simp [cut_cons (Nat.pos_of_ne_zero some), ih]

theorem ne_nil_of_mem_cut {size : Nat} {elements piece : List β}
    (member : piece ∈ cut size elements) : piece ≠ [] := by
  induction elements using cut.induct size with
  | case1 => simp at member
  | case2 first rest none =>
      rw [none, cut_zero, List.mem_singleton] at member
      exact member ▸ List.cons_ne_nil _ _
  | case3 first rest some ih =>
      rw [cut_cons (Nat.pos_of_ne_zero some), List.mem_cons] at member
      rcases member with rfl | later
      · exact List.cons_ne_nil _ _
      · exact ih later

theorem flatMap_entries_pieces (list : EntryList α) (size : Nat) :
    (list.pieces size).flatMap entries = list.entries := by
  simp [pieces, List.flatMap_map, List.flatMap_id', flatten_cut]

theorem pieces_eq_cons {size : Nat} (positive : 0 < size) {list : EntryList α}
    (some : list.entries ≠ []) :
    list.pieces size =
      ⟨list.entries.take size⟩ :: pieces ⟨list.entries.drop size⟩ size := by
  obtain ⟨size, rfl⟩ := Nat.exists_eq_add_one.mpr positive
  obtain ⟨first, rest, isCons⟩ := List.exists_cons_of_ne_nil some
  simp only [pieces, isCons, cut_cons positive]
  rfl

theorem separators_cons {first : EntryList α} {lists : List (EntryList α)}
    (some : lists ≠ []) : (separators (first :: lists)).entries =
      first.last?.toList ++ (separators lists).entries := by
  rw [separators, List.dropLast_cons_of_ne_nil some, List.filterMap_cons]
  cases first.last? <;> rfl

theorem splitAt_min (list : EntryList α) (size : Nat) :
    list.splitAt (min size list.length) =
      .ok (⟨list.entries.take size⟩, ⟨list.entries.drop size⟩) := by
  unfold splitAt
  rw [if_pos (Nat.min_le_right ..)]
  by_cases several : size ≤ list.length
  · rw [Nat.min_eq_left several]
    rfl
  · have short := Nat.le_of_not_le several
    rw [Nat.min_eq_right short, List.take_of_length_le short, List.drop_of_length_le short,
      length, List.take_length, List.drop_length]
    rfl

variable {size : Nat} {elements piece : List (Entry α)} {list : EntryList α}

theorem length_le_of_mem_cut (positive : 0 < size)
    (member : piece ∈ cut size elements) : piece.length ≤ size := by
  induction elements using cut.induct size with
  | case1 => simp at member
  | case2 first rest none => omega
  | case3 first rest _ ih =>
      rw [cut_cons positive, List.mem_cons] at member
      rcases member with rfl | later
      · rw [List.length_cons, List.length_take]
        omega
      · exact ih later

theorem length_of_mem_dropLast_cut (positive : 0 < size)
    (member : piece ∈ (cut size elements).dropLast) : piece.length = size := by
  induction elements using cut.induct size with
  | case1 => simp at member
  | case2 first rest none => omega
  | case3 first rest _ ih =>
      rw [cut_cons positive] at member
      by_cases last : cut size (rest.drop (size - 1)) = []
      · rw [last] at member
        cases member
      rw [List.dropLast_cons_of_ne_nil last] at member
      rcases List.mem_cons.mp member with rfl | later
      · have longer : rest.drop (size - 1) ≠ [] := by
          intro none
          rw [none, cut_nil] at last
          exact last rfl
        have := List.length_pos_iff.mpr longer
        rw [List.length_drop] at this
        rw [List.length_cons, List.length_take]
        omega
      · exact ih later

theorem length_cut (positive : 0 < size) (elements : List (Entry α)) :
    (cut size elements).length = elements.length ⌈/⌉ size := by
  induction elements using cut.induct size with
  | case1 => simp
  | case2 first rest none => omega
  | case3 first rest _ ih =>
      rw [cut_cons positive, List.length_cons, ih, List.length_drop, List.length_cons,
        Nat.ceilDiv_eq_add_pred_div, Nat.ceilDiv_eq_add_pred_div,
        Nat.add_right_comm, Nat.add_sub_cancel, Nat.add_div_right _ positive]
      apply congrArg (· + 1)
      -- What is left after the first piece fills as many pieces as it has room for.
      by_cases several : size ≤ rest.length
      · rw [show rest.length - (size - 1) + size - 1 = rest.length by omega]
      · rw [Nat.div_eq_of_lt (by omega), Nat.div_eq_of_lt (by omega)]

theorem length_pieces (positive : 0 < size) (list : EntryList α) :
    (list.pieces size).length = list.length ⌈/⌉ size := by
  rw [pieces, List.length_map, length_cut positive]
  rfl

theorem length_pieces_zero_lt (list : EntryList α) : (list.pieces 0).length < 2 := by
  rw [pieces, List.length_map]
  cases list.entries with
  | nil => simp
  | cons first rest => simp [cut_zero]

theorem chunks_lt_two_iff (list : EntryList α) (size : Nat) :
    (list.length + size - 1) / size < 2 ↔ (list.pieces size).length < 2 := by
  rcases Nat.eq_zero_or_pos size with rfl | positive
  · rw [Nat.div_zero]
    exact iff_of_true (by decide) (length_pieces_zero_lt list)
  · rw [length_pieces positive, Nat.ceilDiv_eq_add_pred_div]

theorem two_le_length_pieces (positive : 0 < size) (list : EntryList α) :
    2 ≤ (list.pieces size).length ↔ size < list.length := by
  rw [length_pieces positive, ← Nat.not_lt, Nat.lt_succ_iff,
    ceilDiv_le_iff_le_mul positive, Nat.mul_one, Nat.not_le]

/-- `list` in consecutive portions, all of one size but the last, which may be
smaller. -/
structure Portions (size : Nat) (list : EntryList α) (lists : List (EntryList α)) :
    Prop where
  number : lists.length = list.length ⌈/⌉ size
  whole : lists.flatMap entries = list.entries
  full : ∀ portion ∈ lists.dropLast, portion.length = size
  rest : ∀ portion ∈ lists.getLast?, 0 < portion.length ∧ portion.length ≤ size

theorem portions_pieces (positive : 0 < size) (list : EntryList α) :
    Portions size list (list.pieces size) where
  number := length_pieces positive list
  whole := flatMap_entries_pieces list size
  full := by
    intro portion member
    rw [pieces, ← List.map_dropLast] at member
    obtain ⟨piece, isPiece, rfl⟩ := List.mem_map.mp member
    exact length_of_mem_dropLast_cut positive isPiece
  rest := by
    intro portion isLast
    obtain ⟨piece, isPiece, rfl⟩ := List.mem_map.mp (List.mem_of_getLast? isLast)
    exact ⟨List.length_pos_iff.mpr (ne_nil_of_mem_cut isPiece),
      length_le_of_mem_cut positive isPiece⟩

end LinkedBTree.EntryList
