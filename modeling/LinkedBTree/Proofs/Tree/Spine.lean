import Mathlib.Algebra.BigOperators.Group.List.Defs
import LinkedBTree.Proofs.Tree.Chunks
import LinkedBTree.Proofs.Tree.Confined
import LinkedBTree.Proofs.Tree.Walking

namespace LinkedBTree

/-! Trees that only grow at their right end. Every split leaves full leaves behind
and moves what goes on growing one level down. -/

variable {α : Type}

namespace Config

/-- A leaf with this many values is split. -/
def brim (config : Config) : Nat :=
  max config.maxValues (config.chunkSize + 1)

/-- Values in the leaves that a split makes, the last one apart. -/
def stride (config : Config) : Nat :=
  config.chunkSize * (config.fanLimit - 1)

/-- How often leaves are split while so many values arrive in ascending order. -/
def splitsAfter (config : Config) (count : Nat) : Nat :=
  if count < config.brim then 0
  else 1 + (count - config.brim) / config.stride

/-- After `levels` splits `length` of `count` ascending values are in the last
leaf. -/
structure Fills (config : Config) (count levels length : Nat) : Prop where
  total : count = config.stride * levels + length
  short : length < config.brim
  /-- What a split has left in the last leaf stays there. -/
  rest : levels = 0 ∨ config.brim ≤ config.stride + length

section

variable {config : Config} {count levels length : Nat}

theorem overfull_iff_brim (positive : 0 < config.chunkSize) (list : EntryList α) :
    config.Overfull list ↔ config.brim ≤ list.length := by
  rw [overfull_iff positive, brim, max_le_iff]
  exact Iff.rfl

theorem splitsAfter_mono : Monotone config.splitsAfter := by
  intro first second le
  unfold splitsAfter
  split
  · exact Nat.zero_le _
  · rw [if_neg (by omega)]
    exact Nat.add_le_add_left
      (Nat.div_le_div_right (Nat.sub_le_sub_right le config.brim)) 1

theorem brim_pos (config : Config) : 0 < config.brim := by
  unfold brim
  omega

theorem fanLimit_le_iff (positive : 0 < config.chunkSize) (bound : Nat) :
    config.fanLimit ≤ bound ↔ config.brim ≤ config.chunkSize * bound :=
  gc_mul_ceilDiv positive ..

theorem one_lt_fanLimit (positive : 0 < config.chunkSize) : 1 < config.fanLimit := by
  refine Nat.lt_of_not_le fun single => ?_
  have := (fanLimit_le_iff positive 1).mp single
  unfold brim at this
  omega

theorem stride_pos (positive : 0 < config.chunkSize) : 0 < config.stride :=
  Nat.mul_pos positive (Nat.sub_pos_of_lt (one_lt_fanLimit positive))

theorem stride_lt_brim (positive : 0 < config.chunkSize) :
    config.stride < config.brim := by
  refine Nat.lt_of_not_le fun enough => ?_
  have := (fanLimit_le_iff positive _).mpr enough
  have := one_lt_fanLimit positive
  omega

theorem length_pieces_of_full {list : EntryList α} (positive : 0 < config.chunkSize)
    (full : list.length = config.brim) :
    (list.pieces config.chunkSize).length = config.fanLimit := by
  rw [EntryList.length_pieces positive, full]
  rfl

namespace Fills

theorem empty : config.Fills 0 0 0 :=
  ⟨rfl, config.brim_pos, .inl rfl⟩

theorem next (fills : config.Fills count levels length)
    (room : length + 1 < config.brim) : config.Fills (count + 1) levels (length + 1) where
  total := congrArg (· + 1) fills.total
  short := room
  rest := fills.rest.imp_right fun rest => by omega

theorem split (fills : config.Fills count levels length)
    (positive : 0 < config.chunkSize) (full : length + 1 = config.brim) :
    config.Fills (count + 1) (levels + 1) (config.brim - config.stride) := by
  have := stride_pos positive
  have := stride_lt_brim positive
  refine ⟨?_, by omega, .inr (by omega)⟩
  have := fills.total
  rw [Nat.mul_add_one]
  omega

theorem splitsAfter_eq (fills : config.Fills count levels length)
    (positive : 0 < config.chunkSize) : config.splitsAfter count = levels := by
  obtain ⟨total, short, rest⟩ := fills
  have := stride_pos positive
  have := stride_lt_brim positive
  unfold splitsAfter
  cases levels with
  | zero => rw [if_pos (by omega)]
  | succ levels =>
      have rest := rest.resolve_left (Nat.succ_ne_zero levels)
      rw [Nat.mul_add_one] at total
      have beyond : count - config.brim =
          config.stride * levels + (length - (config.brim - config.stride)) := by
        omega
      rw [if_neg (by omega), beyond, Nat.mul_add_div (by omega),
        Nat.div_eq_of_lt (by omega)]
      omega

theorem lt_brim_iff (fills : config.Fills count levels length) :
    count < config.brim ↔ levels = 0 := by
  obtain ⟨total, short, rest⟩ := fills
  cases levels with
  | zero => omega
  | succ levels =>
      have rest := rest.resolve_left (Nat.succ_ne_zero levels)
      rw [Nat.mul_add_one] at total
      omega

end Fills

end

end Config

namespace Subtree

/-- Branches one below the other, over leaves that a split has filled and, as the
last child, the next branch. Below them all is a leaf with `length` values. -/
inductive Spine (config : Config) : Nat → Nat → Shape α → Prop
  | leaf {id : NodeId} {list : EntryList α} {length : Nat} :
      list.length = length → Spine config 0 length (node id (some list) [])
  | branch {id : NodeId} {payload : Option (EntryList α)} {before : List (Shape α)}
      {last : Shape α} {levels length : Nat} :
      before.length + 1 = config.fanLimit →
      (∀ child ∈ before, Spine config 0 config.chunkSize child) →
      Spine config levels length last →
      Spine config (levels + 1) length (node id payload (before ++ [last]))

private theorem length_flatMap_of_same {β γ : Type} {items : List β}
    {read : β → List γ} {size : Nat} (same : ∀ item ∈ items, (read item).length = size) :
    (items.flatMap read).length = items.length * size := by
  rw [List.length_flatMap, List.sum_eq_card_nsmul _ size (List.forall_mem_map.mpr same),
    List.length_map, smul_eq_mul]

theorem leavesOf_concat {ids : List NodeId} {lists : List (EntryList α)}
    (same : ids.length = lists.length) (id : NodeId) (list : EntryList α) :
    leavesOf (ids ++ [id]) (lists ++ [list]) =
      leavesOf ids lists ++ [node id (some list) []] := by
  rw [leavesOf, List.zip_append same, List.map_append]
  rfl

namespace Spine

variable {config : Config} {levels length lower count : Nat}
  {shape part other : Shape α} {frame : Frame α} {path : List (Frame α)}
  {leaf : NodeId} {list : EntryList α} {fresh : List NodeId}

theorem leaf_eq (spine : Spine config 0 length shape) :
    ∃ id list, shape = node id (some list) [] ∧ list.length = length := by
  cases spine with
  | leaf isLength => exact ⟨_, _, rfl, isLength⟩

theorem close_iff (isLast : frame.after = []) :
    Spine config levels length (frame.close part) ↔
      ∃ lower, levels = lower + 1 ∧ frame.before.length + 1 = config.fanLimit ∧
        (∀ child ∈ frame.before, Spine config 0 config.chunkSize child) ∧
        Spine config lower length part := by
  rw [Frame.close, isLast]
  constructor
  · intro spine
    generalize children : frame.before ++ [part] = list at spine
    cases spine with
    | leaf _ => cases List.concat_ne_nil _ _ children
    | branch wide full spine =>
        obtain ⟨rfl, same⟩ := List.append_inj' children rfl
        obtain rfl := List.singleton_inj.mp same
        exact ⟨_, rfl, wide, full, spine⟩
  · rintro ⟨lower, rfl, wide, full, spine⟩
    exact .branch wide full spine

theorem of_plug (single : ∀ frame ∈ path, frame.after = [])
    (spine : Spine config levels length (plug path part)) :
    ∃ lower, levels = lower + path.length ∧ Spine config lower length part := by
  induction path generalizing part with
  | nil => exact ⟨levels, rfl, spine⟩
  | cons frame path induction =>
      obtain ⟨isLast, single⟩ := List.forall_mem_cons.mp single
      obtain ⟨middle, isMiddle, closed⟩ := induction single spine
      obtain ⟨lower, rfl, _, _, spine⟩ := (close_iff isLast).mp closed
      refine ⟨lower, ?_, spine⟩
      rw [isMiddle, List.length_cons]
      omega

theorem of_plug_leaf (single : ∀ frame ∈ path, frame.after = [])
    (spine : Spine config levels length (plug path (node leaf (some list) []))) :
    levels = path.length ∧ list.length = length := by
  obtain ⟨lower, isLevels, spine⟩ := of_plug single spine
  generalize none : ([] : List (Shape α)) = children at spine
  cases spine with
  | leaf isLength => exact ⟨isLevels.trans (Nat.zero_add _), isLength⟩
  | branch _ _ _ => cases List.concat_ne_nil _ _ none.symm

theorem swap (single : ∀ frame ∈ path, frame.after = [])
    (spine : Spine config levels length (plug path part))
    (new : Spine config lower count other) :
    Spine config (lower + path.length) count (plug path other) := by
  induction path generalizing part other lower with
  | nil => exact new
  | cons frame path induction =>
      have whole : Spine config levels length (plug path (frame.close part)) := spine
      obtain ⟨isLast, single⟩ := List.forall_mem_cons.mp single
      obtain ⟨_, _, closed⟩ := of_plug single whole
      obtain ⟨_, _, wide, full, _⟩ := (close_iff isLast).mp closed
      have := induction single whole ((close_iff isLast).mpr ⟨_, rfl, wide, full, new⟩)
      rwa [Nat.add_right_comm] at this

theorem spread (positive : 0 < config.chunkSize)
    (full : list.length = config.brim)
    (supplied : fresh.length = (list.pieces config.chunkSize).length) :
    Spine config 1 (config.brim - config.stride)
      (Subtree.spread leaf fresh (list.pieces config.chunkSize)) := by
  have portions := EntryList.portions_pieces positive list
  have number := Config.length_pieces_of_full positive full
  have several := Config.one_lt_fanLimit positive
  obtain ⟨front, last, isLists⟩ := List.eq_nil_or_concat' (list.pieces config.chunkSize)
    |>.resolve_left (List.ne_nil_of_length_pos (by omega))
  obtain ⟨ids, id, rfl⟩ := List.eq_nil_or_concat' fresh
    |>.resolve_left (List.ne_nil_of_length_pos (by omega))
  rw [isLists] at portions number supplied ⊢
  simp only [List.length_append, List.length_singleton] at number supplied
  have whole : ∀ portion ∈ front, portion.length = config.chunkSize := by
    simpa using portions.full
  have rest : last.length = config.brim - config.stride := by
    have total := congrArg List.length portions.whole
    rw [List.flatMap_append, List.flatMap_singleton, List.length_append,
      length_flatMap_of_same whole] at total
    have total : front.length * config.chunkSize + last.length = list.length := total
    rw [Config.stride, ← number, Nat.add_sub_cancel, Nat.mul_comm]
    omega
  rw [Subtree.spread, leavesOf_concat (by omega)]
  refine .branch ?_ ?_ (.leaf rest)
  · rw [length_leavesOf (by omega), number]
  · intro child member
    obtain ⟨⟨id, portion⟩, isPair, rfl⟩ := List.mem_map.mp member
    exact .leaf (whole portion (List.of_mem_zip isPair).2)

section

variable {entries : List (Entry α)} (entry : Entry α)
  (positive : 0 < config.chunkSize) (single : ∀ frame ∈ path, frame.after = [])
  (spine : Spine config levels length (plug path (node leaf (some ⟨entries⟩) [])))
include single spine

theorem length_concat :
    (⟨entries ++ [entry]⟩ : EntryList α).length = length + 1 := by
  obtain ⟨_, isLength⟩ := of_plug_leaf single spine
  rw [← isLength, EntryList.length, List.length_append]
  rfl

variable (fills : config.Fills count levels length)
include positive fills

theorem overfull_concat_iff :
    config.Overfull ⟨entries ++ [entry]⟩ ↔ length + 1 = config.brim := by
  have short := fills.short
  rw [Config.overfull_iff_brim positive, length_concat entry single spine]
  omega

theorem extend (supplied : config.Supplied ⟨entries ++ [entry]⟩ fresh) :
    ∃ length, config.Fills (count + 1)
        (levels + if config.Overfull ⟨entries ++ [entry]⟩ then 1 else 0) length ∧
      Spine config (levels + if config.Overfull ⟨entries ++ [entry]⟩ then 1 else 0) length
        (plug path (grown config leaf ⟨entries ++ [entry]⟩ fresh)) := by
  obtain ⟨isLevels, _⟩ := of_plug_leaf single spine
  have longer := length_concat entry single spine
  have isFull := overfull_concat_iff entry positive single spine fills
  unfold grown
  by_cases full : config.Overfull ⟨entries ++ [entry]⟩
  · have brim := isFull.mp full
    rw [if_pos full, if_pos full]
    refine ⟨_, fills.split positive brim, ?_⟩
    rw [isLevels, Nat.add_comm]
    exact swap single spine (spread positive (longer.trans brim) (supplied full))
  · have short := fills.short
    have room := isFull.not.mp full
    rw [if_neg full, if_neg full]
    refine ⟨length + 1, fills.next (by omega), ?_⟩
    rw [isLevels, Nat.add_comm]
    exact swap single spine (.leaf longer)

end

theorem length_children (spine : Spine config levels length shape) :
    shape.children.length = if levels = 0 then 0 else config.fanLimit := by
  cases spine with
  | leaf _ => rfl
  | branch wide _ _ =>
      rw [children_node, List.length_append, List.length_singleton, wide,
        if_neg (Nat.succ_ne_zero _)]

theorem height_eq (spine : Spine config levels length shape) :
    shape.height = levels + 1 := by
  induction spine with
  | leaf _ => simp [height]
  | @branch _ _ before last levels _ _ _ _ low high =>
      have deepest : ∀ items : List (Shape α), (∀ child ∈ items, child.height = 1) →
          ((items ++ [last]).map height).foldr max 0 = levels + 1 := by
        intro items flat
        induction items with
        | nil => simp [high]
        | cons child rest following =>
            rw [List.cons_append, List.map_cons, List.foldr_cons, flat child (by simp),
              following fun other member => flat other (by simp [member])]
            omega
      rw [height, deepest before low]

theorem length_ids (spine : Spine config levels length shape) :
    shape.ids.length = 1 + config.fanLimit * levels := by
  induction spine with
  | leaf _ => simp
  | @branch _ _ before last levels _ wide _ _ low high =>
      have single : ∀ child ∈ before, child.ids.length = 1 := by
        simpa using low
      rw [ids_node, List.length_cons, List.flatMap_append, List.length_append,
        length_flatMap_of_same single, List.flatMap_singleton, high,
        Nat.mul_one, Nat.mul_add_one]
      omega

theorem chunks_eq (spine : Spine config levels length shape) :
    ∃ full last, shape.chunks = full ++ [last] ∧
      full.length = (config.fanLimit - 1) * levels ∧
      (∀ chunk ∈ full, chunk.length = config.chunkSize) ∧ last.length = length := by
  induction spine with
  | @leaf _ list _ isLength =>
      exact ⟨[], list.entries, chunks_leaf, rfl, by simp, isLength⟩
  | @branch _ _ before child levels _ wide isFull _ _ high =>
      obtain ⟨full, last, same, number, whole, isLength⟩ := high
      have single : ∀ child ∈ before, ∃ chunk : List (Entry α),
          child.chunks = [chunk] ∧ chunk.length = config.chunkSize := by
        intro child member
        obtain ⟨_, list, rfl, isSize⟩ := (isFull child member).leaf_eq
        exact ⟨list.entries, chunks_leaf, isSize⟩
      refine ⟨before.flatMap chunks ++ full, last, ?_, ?_, ?_, isLength⟩
      · rw [chunks_branch (List.concat_ne_nil _ _), List.flatMap_append,
          List.flatMap_singleton, same, List.append_assoc]
      · have one : ∀ child ∈ before, child.chunks.length = 1 := by
          intro child member
          obtain ⟨chunk, isChunk, _⟩ := single child member
          rw [isChunk, List.length_singleton]
        rw [List.length_append, length_flatMap_of_same one, number, ← wide,
          Nat.add_sub_cancel, Nat.mul_one, Nat.mul_add_one, Nat.add_comm]
      · intro chunk member
        rcases List.mem_append.mp member with early | late
        · obtain ⟨child, isChild, inside⟩ := List.mem_flatMap.mp early
          obtain ⟨other, isOther, isSize⟩ := single child isChild
          rw [isOther, List.mem_singleton] at inside
          rwa [inside]
        · exact whole chunk late

end Spine

end Subtree

end LinkedBTree
