import Mathlib.Algebra.Order.Floor.Div
import LinkedBTree.Proofs.Pieces
import LinkedBTree.Proofs.Tree.Reachable

namespace LinkedBTree

/-! How long a leaf and how wide a branch may get. Only storing and splitting
can make one longer or wider; whatever else a call does, it shortens. -/

variable {α : Type}

namespace Config

def leafLimit (config : Config) : Nat :=
  max (config.maxValues - 1) config.chunkSize

def fanLimit (config : Config) : Nat :=
  max config.maxValues (config.chunkSize + 1) ⌈/⌉ config.chunkSize

theorem fanLimit_le {config : Config} (valid : config.Valid) :
    config.fanLimit ≤ config.leafLimit + 1 := by
  have := valid.maxValues_pos
  have positive := valid.chunkSize_pos
  have narrow : config.fanLimit ≤ max config.maxValues (config.chunkSize + 1) := by
    refine (ceilDiv_le_iff_le_smul positive).mpr ?_
    exact Nat.le_mul_of_pos_left _ positive
  unfold leafLimit
  omega

end Config

namespace Subtree

/-- No leaf is longer and no branch wider than the configuration lets them
get. -/
inductive Confined (config : Config) : Shape α → Prop
  | leaf {id : NodeId} {list : EntryList α} :
      list.length ≤ config.leafLimit → Confined config (node id (some list) [])
  | branch {id : NodeId} {payload : Option (EntryList α)}
      {children : List (Shape α)} :
      children ≠ [] → children.length ≤ config.fanLimit →
      (∀ child ∈ children, Confined config child) →
      Confined config (node id payload children)

namespace Confined

variable {config : Config} {shape part other : Shape α} {id : NodeId}
  {list : EntryList α} {payload : Option (EntryList α)}
  {children : List (Shape α)} {frame : Frame α} {path : List (Frame α)}

theorem length_le (confined : Confined config (node id (some list) [])) :
    list.length ≤ config.leafLimit := by
  cases confined with
  | leaf short => exact short
  | branch inner _ _ => exact absurd rfl inner

theorem of_inner (confined : Confined config (node id payload children))
    (inner : children ≠ []) : children.length ≤ config.fanLimit ∧
      ∀ child ∈ children, Confined config child := by
  cases confined with
  | leaf _ => exact absurd rfl inner
  | branch _ narrow below => exact ⟨narrow, below⟩

theorem relabel (confined : Confined config shape) (id : NodeId) :
    Confined config (node id shape.payload shape.children) := by
  cases confined with
  | leaf short => exact .leaf short
  | branch inner narrow below => exact .branch inner narrow below

theorem close_iff : Confined config (frame.close part) ↔
    (frame.before ++ frame.after).length < config.fanLimit ∧
      (∀ child ∈ frame.before ++ frame.after, Confined config child) ∧
      Confined config part := by
  have length : (frame.before ++ part :: frame.after).length =
      (frame.before ++ frame.after).length + 1 := by
    simp only [List.length_append, List.length_cons]
    omega
  constructor
  · intro confined
    obtain ⟨narrow, below⟩ := of_inner confined (by simp)
    refine ⟨by omega, fun child beside => ?_, below part (by simp)⟩
    exact below child (by grind)
  · rintro ⟨narrow, beside, confined⟩
    refine .branch (by simp) (by omega) fun child member => ?_
    by_cases isPart : child = part
    · exact isPart ▸ confined
    · exact beside child (by grind)

theorem of_plug (confined : Confined config (plug path part)) :
    Confined config part := by
  induction path generalizing part with
  | nil => exact confined
  | cons frame path induction => exact (close_iff.mp (induction confined)).2.2

theorem swap (confined : Confined config (plug path part))
    (new : Confined config other) : Confined config (plug path other) := by
  induction path generalizing part other with
  | nil => exact new
  | cons frame path induction =>
      have closed : Confined config (frame.close part) := of_plug confined
      obtain ⟨narrow, beside, _⟩ := close_iff.mp closed
      exact induction confined (close_iff.mpr ⟨narrow, beside, new⟩)

theorem refresh {index : Nat} {last : Option (Entry α)}
    (confined : Confined config (plug path part)) :
    Confined config (plug (path.map (Frame.refresh index last)) part) := by
  induction path generalizing part with
  | nil => exact confined
  | cons frame path induction =>
      have whole : Confined config (plug path (frame.close part)) := confined
      have refreshed : Confined config ((frame.refresh index last).close part) := by
        rw [close_iff, Frame.before_refresh, Frame.after_refresh]
        exact close_iff.mp whole.of_plug
      exact induction (whole.swap refreshed)

theorem join (some : children ≠ []) (narrow : children.length ≤ config.fanLimit)
    (below : ∀ child ∈ children, Confined config child) :
    Confined config (joined id list children) := by
  unfold joined
  split
  · exact (below _ (by simp)).relabel id
  · exact .branch some narrow below

theorem spread {fresh : List NodeId} (valid : config.Valid)
    (short : list.length ≤ config.leafLimit + 1)
    (length : fresh.length = (list.pieces config.chunkSize).length)
    (several : 2 ≤ (list.pieces config.chunkSize).length) :
    Confined config (Subtree.spread id fresh (list.pieces config.chunkSize)) := by
  have positive := valid.chunkSize_pos
  refine .branch ?_ ?_ fun child member => ?_
  · rw [← List.length_pos_iff, length_leavesOf length]
    omega
  · rw [length_leavesOf length, EntryList.length_pieces positive]
    refine (gc_mul_ceilDiv positive).monotone_l (short.trans ?_)
    have := valid.maxValues_pos
    unfold Config.leafLimit
    omega
  · obtain ⟨⟨leaf, piece⟩, isPair, rfl⟩ := List.mem_map.mp member
    obtain ⟨entries, isPiece, rfl⟩ := List.mem_map.mp (List.of_mem_zip isPair).2
    exact .leaf ((EntryList.length_le_of_mem_cut positive isPiece).trans
      (Nat.le_max_right ..))

theorem grown {fresh : List NodeId} (valid : config.Valid)
    (short : list.length ≤ config.leafLimit + 1)
    (supplied : config.Supplied list fresh) :
    Confined config (Subtree.grown config id list fresh) := by
  unfold Subtree.grown
  split
  · rename_i full
    exact spread valid short (supplied full) full.2
  · rename_i fits
    refine .leaf ?_
    have few : config.maxValues ≤ list.length → list.length ≤ config.chunkSize := by
      intro full
      by_contra longer
      exact fits ⟨full, (EntryList.two_le_length_pieces valid.chunkSize_pos list).mpr
        (Nat.lt_of_not_le longer)⟩
    unfold Config.leafLimit
    omega

theorem dropped {index : Nat} (confined : Confined config (plug (frame :: path) part))
    (enough : frame.before ≠ [] ∨ frame.after ≠ []) :
    Confined config (Subtree.dropped index frame path) := by
  have whole : Confined config (plug path (frame.close part)) := confined
  obtain ⟨narrow, beside, _⟩ := close_iff.mp whole.of_plug
  exact refresh (whole.swap
    (join (Frame.append_ne_nil enough) (Nat.le_of_lt narrow) beside))

theorem erased {leaf : NodeId} {front back : List (Entry α)} {entry : Entry α}
    (confined : Confined config
      (plug path (node leaf (some ⟨front ++ entry :: back⟩) [])))
    (enough : ∀ frame ∈ path, frame.before ≠ [] ∨ frame.after ≠ []) :
    Confined config (Subtree.erased path leaf front entry back) := by
  by_cases stays : path = [] ∨ front ++ back ≠ []
  · rw [erased_shortened stays]
    refine refresh (confined.swap (.leaf (Nat.le_trans ?_ confined.of_plug.length_le)))
    simp only [EntryList.length, List.length_append, List.length_cons]
    omega
  · rw [not_or, Classical.not_not] at stays
    obtain ⟨rfl, rfl⟩ := List.append_eq_nil_iff.mp stays.2
    obtain ⟨frame, outer, rfl⟩ := List.exists_cons_of_ne_nil stays.1
    exact dropped confined (enough frame (by simp))

theorem overwritten {leaf : NodeId} {front back : List (Entry α)}
    {old entry : Entry α} (confined : Confined config
      (plug path (node leaf (some ⟨front ++ old :: back⟩) []))) :
    Confined config (Subtree.overwritten path leaf front entry back) := by
  refine refresh (confined.swap (.leaf (Nat.le_trans ?_ confined.of_plug.length_le)))
  simp [EntryList.length]

theorem of_likened {copies : Tree.Copies α} {templates images : List (Shape α)}
    (likened : Likened (Tree.Recalled copies) templates images)
    (confined : ∀ shape ∈ templates, Confined config shape) :
    ∀ shape ∈ images, Confined config shape := by
  induction likened with
  | nil => exact fun _ member => nomatch member
  | @cons id copy payload copied children others rest besides payloads likened _
      below beside =>
      refine List.forall_mem_cons.mpr ⟨?_, beside fun shape member =>
        confined shape (by simp [member])⟩
      have length := (Tree.likened_reads likened).1
      cases confined _ List.mem_cons_self with
      | @leaf _ list short =>
          obtain rfl := List.length_eq_zero_iff.mp length.symm
          cases payloads with
          | @some _ image same =>
              have same := congrArg List.length
                (show list.entries.map (Tree.imageOf copies) =
                  image.entries.map some from same)
              rw [List.length_map, List.length_map] at same
              exact .leaf (Nat.le_trans (Nat.le_of_eq same.symm) short)
      | branch inner narrow confinedBelow =>
          refine .branch ?_ (length ▸ narrow) (below confinedBelow)
          rwa [Ne, ← List.length_eq_zero_iff, ← length, List.length_eq_zero_iff]

end Confined

end Subtree

open Subtree

namespace Tree

variable {config : Config} {tree : Tree α} {shape final : Shape α}

theorem Reshapes.confined (reshapes : Reshapes config shape final)
    (upright : tree.Upright shape) (valid : config.Valid)
    (confined : Confined config shape) : Confined config final := by
  cases reshapes with
  | same => exact confined
  | grown supplied =>
      refine confined.swap (.grown valid ?_ supplied)
      have short := confined.of_plug.length_le
      simp only [EntryList.length, List.length_append, List.length_cons] at short ⊢
      omega
  | erased =>
      exact confined.erased (upright.formed_of_filled (by simp)).enough
  | overwritten => exact confined.overwritten
  | spread length several =>
      exact confined.swap (.spread valid
        (Nat.le_succ_of_le confined.of_plug.length_le) length several)
  | copied likened =>
      exact Confined.of_likened likened (by simpa using confined) final (by simp)

theorem Abides.confined_history (abides : tree.Abides config shape)
    (valid : config.Valid) (confined : Confined config shape)
    (requests : List (Request α)) :
    ∃ final, (requests.foldl Tree.perform tree).Abides config final ∧
      Confined config final := by
  induction requests generalizing tree shape with
  | nil => exact ⟨shape, abides, confined⟩
  | cons request rest induction =>
      obtain ⟨final, after, reshapes⟩ := abides.perform request
      exact induction after (reshapes.confined abides.upright valid confined)

theorem confined_after_requests (valid : config.Valid) :
    ∃ start : Tree α, withConfig config = .ok start ∧
      ∀ requests : List (Request α), ∃ shape,
        (requests.foldl Tree.perform start).Abides config shape ∧
          Confined config shape := by
  obtain ⟨start, created, abides⟩ := @abides_empty α config valid
  exact ⟨start, created, abides.confined_history valid (.leaf (Nat.zero_le _))⟩

end Tree

end LinkedBTree
