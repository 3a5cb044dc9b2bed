import LinkedBTree.Proofs.Pieces
import LinkedBTree.Proofs.Tree.Leaves
import LinkedBTree.Proofs.Tree.Reshaping

namespace LinkedBTree

/-! The leaves of a shape as chunks of entries. An edit changes the chunk of one
leaf, whatever becomes of the branches above it. -/

variable {α : Type}

theorem Config.overfull_iff {config : Config} (positive : 0 < config.chunkSize)
    (list : EntryList α) : config.Overfull list ↔
      config.maxValues ≤ list.entries.length ∧
        config.chunkSize < list.entries.length := by
  rw [Config.Overfull, EntryList.two_le_length_pieces positive]
  rfl

namespace Subtree

def tipsLeft : List (Frame α) → List (Shape α)
  | [] => []
  | frame :: path => tipsLeft path ++ frame.before.flatMap tips

def tipsRight : List (Frame α) → List (Shape α)
  | [] => []
  | frame :: path => frame.after.flatMap tips ++ tipsRight path

def chunks (shape : Shape α) : List (List (Entry α)) :=
  shape.tips.map own

def chunksLeft (path : List (Frame α)) : List (List (Entry α)) :=
  (tipsLeft path).map own

def chunksRight (path : List (Frame α)) : List (List (Entry α)) :=
  (tipsRight path).map own

section

variable {path : List (Frame α)} {frame : Frame α} {part shape : Shape α}
  {leaf : NodeId} {list : EntryList α} {index : Nat} {last : Option (Entry α)}

theorem tips_ne_nil (shape : Shape α) : shape.tips ≠ [] := by
  induction shape using Subtree.induction with
  | node id payload children induction =>
      cases children with
      | nil =>
          rw [tips_leaf]
          exact List.cons_ne_nil _ _
      | cons child rest =>
          rw [tips_branch (List.cons_ne_nil child rest), List.flatMap_cons]
          exact List.append_ne_nil_of_left_ne_nil (induction child (by simp)) _

theorem tips_plug :
    (plug path part).tips = tipsLeft path ++ part.tips ++ tipsRight path := by
  induction path generalizing part with
  | nil => simp [plug, tipsLeft, tipsRight]
  | cons frame path induction =>
      rw [plug, induction, Frame.close, tips_branch (by simp)]
      simp [tipsLeft, tipsRight]

theorem flatten_chunks (shape : Shape α) : shape.chunks.flatten = shape.entries :=
  ((entries_eq_tips shape).trans List.flatMap_def).symm

private theorem flatMap_own (children : List (Shape α)) :
    (children.flatMap tips).flatMap own = children.flatMap entries := by
  rw [List.flatMap_assoc, List.flatMap_def, List.flatMap_def]
  exact congrArg List.flatten
    (List.map_congr_left fun child _ => (entries_eq_tips child).symm)

theorem flatten_chunksLeft (path : List (Frame α)) :
    (chunksLeft path).flatten = leftOf path := by
  induction path with
  | nil => rfl
  | cons frame path induction =>
      rw [chunksLeft, ← List.flatMap_def] at induction ⊢
      rw [tipsLeft, leftOf, List.flatMap_append, induction, flatMap_own]

theorem flatten_chunksRight (path : List (Frame α)) :
    (chunksRight path).flatten = rightOf path := by
  induction path with
  | nil => rfl
  | cons frame path induction =>
      rw [chunksRight, ← List.flatMap_def] at induction ⊢
      rw [tipsRight, rightOf, List.flatMap_append, induction, flatMap_own]

theorem chunks_plug : (plug path part).chunks =
    chunksLeft path ++ part.chunks ++ chunksRight path := by
  simp [chunks, tips_plug, chunksLeft, chunksRight]

@[simp] theorem chunks_leaf :
    (node leaf (some list) []).chunks = [list.entries] := by
  rw [chunks, tips_leaf]
  rfl

theorem chunks_branch {id : NodeId} {payload : Option (EntryList α)}
    {children : List (Shape α)} (inner : children ≠ []) :
    (node id payload children).chunks = children.flatMap chunks := by
  rw [chunks, tips_branch inner, List.map_flatMap]
  rfl

@[simp] theorem chunksLeft_map_refresh :
    chunksLeft (path.map (Frame.refresh index last)) = chunksLeft path := by
  have same : tipsLeft (path.map (Frame.refresh index last)) = tipsLeft path := by
    induction path with
    | nil => rfl
    | cons frame path induction => simp [tipsLeft, induction]
  rw [chunksLeft, same, chunksLeft]

@[simp] theorem chunksRight_map_refresh :
    chunksRight (path.map (Frame.refresh index last)) = chunksRight path := by
  have same : tipsRight (path.map (Frame.refresh index last)) = tipsRight path := by
    induction path with
    | nil => rfl
    | cons frame path induction => simp [tipsRight, induction]
  rw [chunksRight, same, chunksRight]

theorem tipsRight_eq_nil (single : ∀ frame ∈ path, frame.after = []) :
    tipsRight path = [] := by
  induction path with
  | nil => rfl
  | cons frame path induction =>
      rw [tipsRight, single frame (by simp),
        induction fun other member => single other (by simp [member])]
      rfl

theorem chunksRight_eq_nil (single : ∀ frame ∈ path, frame.after = []) :
    chunksRight path = [] := by
  rw [chunksRight, tipsRight_eq_nil single]
  rfl

theorem chunksBeside_ne_nil
    (enough : ∀ frame ∈ path, frame.before ≠ [] ∨ frame.after ≠ []) :
    chunksLeft path ++ chunksRight path ≠ [] ↔ path ≠ [] := by
  have several : ∀ children : List (Shape α), children ≠ [] →
      children.flatMap tips ≠ [] := by
    intro children some
    obtain ⟨child, rest, rfl⟩ := List.exists_cons_of_ne_nil some
    rw [List.flatMap_cons]
    exact List.append_ne_nil_of_left_ne_nil (tips_ne_nil child) _
  cases path with
  | nil => simp [chunksLeft, chunksRight, tipsLeft, tipsRight]
  | cons frame path =>
      refine ⟨fun _ => List.cons_ne_nil _ _, fun _ none => ?_⟩
      simp only [chunksLeft, chunksRight, tipsLeft, tipsRight,
        List.append_eq_nil_iff, List.map_eq_nil_iff] at none
      exact (enough frame (by simp)).elim (several _ · none.1.2)
        (several _ · none.2.1)

theorem sublist_ids_tips (shape : Shape α) :
    (shape.tips.map Subtree.id).Sublist shape.ids := by
  induction shape using Subtree.induction with
  | node id payload children induction =>
      by_cases isLeaf : children = []
      · rw [isLeaf, tips_leaf]
        simp
      · rw [tips_branch isLeaf, ids_node, List.map_flatMap]
        apply List.Sublist.cons
        clear isLeaf
        induction children with
        | nil => exact .slnil
        | cons child rest following =>
            rw [List.flatMap_cons, List.flatMap_cons]
            exact (induction child (by simp)).append
              (following fun other member => induction other (by simp [member]))

end

section

variable {path : List (Frame α)} {frame : Frame α} {leaf : NodeId}
  {list : EntryList α} {front back : List (Entry α)} {entry : Entry α}
  {config : Config} {fresh : List NodeId} {children : List (Shape α)}

theorem tips_spread {lists : List (EntryList α)}
    (same : fresh.length = lists.length) (some : lists ≠ []) :
    (spread leaf fresh lists).tips = leavesOf fresh lists := by
  have isBranch : leavesOf fresh lists ≠ [] := by
    rw [← List.length_pos_iff, length_leavesOf same]
    exact List.length_pos_iff.mpr some
  rw [spread, tips_branch isBranch]
  refine Eq.trans ?_ (List.flatMap_singleton' (leavesOf fresh lists))
  rw [List.flatMap_def, List.flatMap_def]
  refine congrArg List.flatten (List.map_congr_left fun child member => ?_)
  obtain ⟨⟨id, list⟩, _, rfl⟩ := List.mem_map.mp member
  exact tips_leaf ..

theorem chunks_spread {lists : List (EntryList α)}
    (same : fresh.length = lists.length) (some : lists ≠ []) :
    (spread leaf fresh lists).chunks = lists.map EntryList.entries := by
  rw [chunks, tips_spread same some]
  exact map_leavesOf same fun id list => own_node

theorem chunks_grown (supplied : config.Supplied list fresh) :
    (grown config leaf list fresh).chunks =
      if config.Overfull list then EntryList.cut config.chunkSize list.entries
      else [list.entries] := by
  unfold grown
  split
  · rename_i full
    have some : list.pieces config.chunkSize ≠ [] := by
      rw [← List.length_pos_iff]
      have := full.2
      omega
    rw [chunks_spread (supplied full) some, EntryList.pieces, List.map_map]
    exact List.map_id _
  · exact chunks_leaf

theorem chunks_joined {id : NodeId} (some : children ≠ []) :
    (joined id list children).chunks = (children.flatMap tips).map own := by
  unfold joined
  split
  · rename_i child
    obtain ⟨old, payload, children⟩ := child
    rw [List.flatMap_singleton, payload_node, children_node]
    by_cases isLeaf : children = []
    · rw [isLeaf, chunks, tips_leaf, tips_leaf]
      rfl
    · rw [chunks, tips_branch isLeaf, tips_branch isLeaf]
  · rw [chunks, tips_branch some]

theorem chunks_dropped {index : Nat}
    (enough : frame.before ≠ [] ∨ frame.after ≠ []) :
    (dropped index frame path).chunks =
      chunksLeft (frame :: path) ++ chunksRight (frame :: path) := by
  rw [dropped, chunks_plug, chunks_joined (Frame.append_ne_nil enough),
    chunksLeft_map_refresh, chunksRight_map_refresh]
  simp [chunksLeft, chunksRight, tipsLeft, tipsRight]

theorem chunks_erased
    (enough : ∀ frame ∈ path, frame.before ≠ [] ∨ frame.after ≠ []) :
    (erased path leaf front entry back).chunks = chunksLeft path ++
      (if front ++ back = [] ∧ chunksLeft path ++ chunksRight path ≠ [] then []
        else [front ++ back]) ++ chunksRight path := by
  have beside := chunksBeside_ne_nil enough
  by_cases stays : path = [] ∨ front ++ back ≠ []
  · have isKept : ¬(front ++ back = [] ∧
        chunksLeft path ++ chunksRight path ≠ []) :=
      fun goes => stays.elim (beside.mp goes.2) (· goes.1)
    rw [if_neg isKept, erased_shortened stays, chunks_plug, chunksLeft_map_refresh,
      chunksRight_map_refresh, chunks_leaf]
  · rw [not_or, Classical.not_not] at stays
    rw [if_pos ⟨stays.2, beside.mpr stays.1⟩, List.append_nil]
    obtain ⟨rfl, rfl⟩ := List.append_eq_nil_iff.mp stays.2
    obtain ⟨frame, outer, rfl⟩ := List.exists_cons_of_ne_nil stays.1
    rw [erased_emptied, chunks_dropped (enough frame (by simp))]

theorem chunks_overwritten :
    (overwritten path leaf front entry back).chunks =
      chunksLeft path ++ (front ++ entry :: back) :: chunksRight path := by
  rw [overwritten, chunks_plug, chunksLeft_map_refresh, chunksRight_map_refresh,
    chunks_leaf, List.append_assoc]
  rfl

end

end Subtree

end LinkedBTree
