import LinkedBTree.Proofs.Tree.Calls

namespace LinkedBTree.Tree

/-! All ways in which a call on an upright tree can end, and what it leaves
behind then. -/

variable {α σ : Type}

open Subtree

/-- An allocation was refused, and everything taken for it given back. -/
structure Refused (tree : Tree α) (shape : Shape α) (error : Error)
    (last : Tree α) : Prop where
  cause : error.root = .arenaExhausted tree.arena.capacity
  same : ∃ arena, last = { tree with arena }
  setting : last.arena.setting = tree.arena.setting
  upright : last.Upright shape

section

variable (tree : Tree α) (shape : Shape α)

inductive InsertEnds (value : α) (compare : Comparator σ α) :
    EStateM.Result Error (Tree α × σ) (InsertResult α) → Prop
  | found {path id children front entry back after}
      (landed : Landed value compare false shape
        ⟨path, id, children, .equal front entry back⟩) :
      InsertEnds value compare (.ok (.existing entry.value value) (tree, after))
  | stored {path leaf children front back fresh arena after}
      (landed : Landed value compare false shape
        ⟨path, leaf, children, .before front back⟩)
      (supplied : tree.config.Supplied
        ⟨front ++ ⟨value, tree.values.size⟩ :: back⟩ fresh)
      (kept : arena.setting = (tree.arena.capacity, tree.arena.stats.splits +
        if tree.config.Overfull ⟨front ++ ⟨value, tree.values.size⟩ :: back⟩
        then 1 else 0))
      (embodied : ({ tree with arena, values := tree.values.push value } :
        Tree α).Embodies (plug path (grown tree.config leaf
          ⟨front ++ ⟨value, tree.values.size⟩ :: back⟩ fresh))) :
      InsertEnds value compare (.ok (.inserted tree.values.size)
        ({ tree with arena, values := tree.values.push value }, after))
  | refused {path leaf children front back state error last after}
      (refused : Refused tree shape error last)
      (descended : descend value compare false [] shape state =
        .ok ⟨path, leaf, children, .before front back⟩ after)
      (none : ¬Edit.Room tree ⟨front ++ ⟨value, tree.values.size⟩ :: back⟩) :
      InsertEnds value compare (.error error (last, after))
  | raised {error after} (raised : compare.Raises error.root after) :
      InsertEnds value compare (.error error (tree, after))

inductive RemoveEnds (value : α) (compare : Comparator σ α) :
    EStateM.Result Error (Tree α × σ) (Option α) → Prop
  | found {path leaf children front entry back arena after}
      (landed : Landed value compare true shape
        ⟨path, leaf, children, .equal front entry back⟩)
      (kept : arena.setting = tree.arena.setting)
      (embodied : ({ tree with
        arena
        values := tree.values.put entry.index none } :
        Tree α).Embodies (erased path leaf front entry back)) :
      RemoveEnds value compare (.ok (some entry.value)
        ({ tree with
          arena
          values := tree.values.put entry.index none }, after))
  | absent {path leaf children front back after}
      (landed : Landed value compare true shape
        ⟨path, leaf, children, .before front back⟩) :
      RemoveEnds value compare (.ok none (tree, after))
  | raised {error after} (raised : compare.Raises error.root after) :
      RemoveEnds value compare (.error error (tree, after))

inductive ReplaceEnds (old new : α) (compare : Comparator σ α) :
    EStateM.Result Error (Tree α × σ) α → Prop
  | replaced {path leaf children front entry back arena after}
      (landed : Landed old compare true shape
        ⟨path, leaf, children, .equal front entry back⟩)
      (fits : ∀ answer, compare.Steady answer →
        Between answer new (leftOf path ++ front) (back ++ rightOf path))
      (kept : arena.setting = tree.arena.setting)
      (embodied : ({ tree with
        arena
        values := tree.values.put entry.index
          (some new) } : Tree α).Embodies
        (overwritten path leaf front ⟨new, entry.index⟩ back)) :
      ReplaceEnds old new compare (.ok entry.value
        ({ tree with
          arena
          values := tree.values.put entry.index
            (some new) }, after))
  | misfit {path leaf children front entry back error after}
      (landed : Landed old compare true shape
        ⟨path, leaf, children, .equal front entry back⟩)
      (misfit : Misfit new compare (leftOf path ++ front) (back ++ rightOf path)
        error.root after) :
      ReplaceEnds old new compare (.error error (tree, after))
  | absent {path leaf children front back after}
      (landed : Landed old compare true shape
        ⟨path, leaf, children, .before front back⟩) :
      ReplaceEnds old new compare
        (.error (.cause .nothingToReplace) (tree, after))
  | raised {error after} (raised : compare.Raises error.root after) :
      ReplaceEnds old new compare (.error error (tree, after))

inductive SplitEnds (id : NodeId) : EStateM.Result Error (Tree α) Bool → Prop
  | cut {path list fresh arena}
      (whole : shape = plug path (.node id (some list) []))
      (several : 2 ≤ (list.pieces tree.config.chunkSize).length)
      (length : fresh.length = (list.pieces tree.config.chunkSize).length)
      (kept : arena.setting = (tree.arena.capacity, tree.arena.stats.splits + 1))
      (embodied : ({ tree with arena } : Tree α).Embodies
        (plug path (spread id fresh (list.pieces tree.config.chunkSize)))) :
      SplitEnds id (.ok true { tree with arena })
  | short {path list} (whole : shape = plug path (.node id (some list) []))
      (few : (list.pieces tree.config.chunkSize).length < 2) :
      SplitEnds id (.ok false tree)
  | refused {path list error last} (refused : Refused tree shape error last)
      (whole : shape = plug path (.node id (some list) []))
      (several : 2 ≤ (list.pieces tree.config.chunkSize).length)
      (full : tree.arena.capacity < tree.arena.liveCount +
        (list.pieces tree.config.chunkSize).length) :
      SplitEnds id (.error error last)
  | branch {path list children}
      (whole : shape = plug path (.node id (some list) children))
      (inner : children ≠ []) :
      SplitEnds id (.error (.cause (.notALeaf id children.length)) tree)
  | dead (dead : id ∉ shape.ids) : SplitEnds id (.error (.cause (.stale id)) tree)

end

section

variable {tree last : Tree α} {shape : Shape α} {compare : Comparator σ α}
  {value : α} {state after : σ} {error : Error} {id : NodeId}

theorem insert_ends (upright : tree.Upright shape) (value : α)
    (compare : Comparator σ α) (state : σ) :
    InsertEnds tree shape value compare (insert value compare (tree, state)) := by
  rcases (descend_meets upright value compare false).cases state with
    ⟨⟨path, leaf, children, stop⟩, after, descended, landed⟩ |
    ⟨error, after, stopped, raised⟩
  · cases stop with
    | equal front entry back =>
        rw [insert_found upright descended]
        exact .found landed
    | before front back =>
        by_cases room : Edit.Room tree
          ⟨front ++ ⟨value, tree.values.size⟩ :: back⟩
        · obtain ⟨fresh, arena, done, supplied, kept, embodied⟩ :=
            insert_room upright descended room
          rw [done]
          exact .stored landed supplied kept embodied
        · obtain ⟨arena, error, refused, cause, unwound, stays⟩ :=
            insert_refused upright descended room
          rw [refused]
          exact .refused ⟨cause, ⟨arena, rfl⟩, unwound.setting, stays⟩ descended room
  · obtain ⟨other, failed, same⟩ := insert_raised upright stopped
    rw [failed]
    exact .raised (same ▸ raised)

theorem remove_ends (upright : tree.Upright shape) (value : α)
    (compare : Comparator σ α) (state : σ) :
    RemoveEnds tree shape value compare (remove value compare (tree, state)) := by
  rcases (descend_meets upright value compare true).cases state with
    ⟨⟨path, leaf, children, stop⟩, after, descended, landed⟩ |
    ⟨error, after, stopped, raised⟩
  · cases stop with
    | equal front entry back =>
        obtain ⟨arena, done, kept, embodied⟩ := remove_found upright descended
        rw [done]
        exact .found landed kept embodied
    | before front back =>
        rw [remove_gap upright descended]
        exact .absent landed
  · obtain ⟨other, failed, same⟩ := remove_raised upright stopped
    rw [failed]
    exact .raised (same ▸ raised)

theorem replace_ends (upright : tree.Upright shape) (old new : α)
    (compare : Comparator σ α) (state : σ) :
    ReplaceEnds tree shape old new compare
      (replace old new compare (tree, state)) := by
  rcases (descend_meets upright old compare true).cases state with
    ⟨⟨path, leaf, children, stop⟩, between, descended, landed⟩ |
    ⟨error, after, stopped, raised⟩
  · cases stop with
    | equal front entry back =>
        rcases (checkBetween_meets new compare (leftOf path ++ front)
          (back ++ rightOf path)).cases between with
          ⟨_, after, checked, fits⟩ | ⟨error, after, refused, misfit⟩
        · obtain ⟨arena, done, kept, embodied⟩ :=
            replace_found upright descended checked
          rw [done]
          exact .replaced landed fits kept embodied
        · rw [replace_misfit upright descended refused]
          exact .misfit landed misfit
    | before front back =>
        rw [replace_gap upright descended]
        exact .absent landed
  · obtain ⟨other, failed, same⟩ : ∃ other,
        replace old new compare (tree, state) = .error other (tree, after) ∧
          other.root = error.root := replace_raised upright stopped
    rw [failed]
    exact .raised (same ▸ raised)

theorem split_ends (upright : tree.Upright shape) (id : NodeId) :
    SplitEnds tree shape id (Edit.split id tree) := by
  by_cases live : id ∈ shape.ids
  · obtain ⟨path, list, children, rfl⟩ := upright.exists_node live
    by_cases inner : children = []
    · obtain rfl := inner
      by_cases few : (list.pieces tree.config.chunkSize).length < 2
      · rw [Edit.split_few upright.embodies few]
        exact .short rfl few
      have several : 2 ≤ (list.pieces tree.config.chunkSize).length := by omega
      by_cases room : tree.arena.liveCount +
          (list.pieces tree.config.chunkSize).length ≤ tree.arena.capacity
      · obtain ⟨fresh, arena, done, length, kept, embodied⟩ :=
          Edit.split_several upright.embodies several room
        rw [done]
        exact .cut rfl several length kept embodied
      · have full := Nat.lt_of_not_le room
        obtain ⟨arena, refused, unwound, embodied⟩ :=
          Edit.split_refused upright.embodies several full
        rw [refused]
        exact .refused ⟨rfl, ⟨arena, rfl⟩, unwound.setting,
          ⟨embodied, upright.formed, upright.mirrors⟩⟩ rfl several full
    · rw [split_branch upright inner]
      exact .branch rfl inner
  · rw [split_dead upright live]
    exact .dead live

theorem insert_failed (upright : tree.Upright shape)
    (failed : insert value compare (tree, state) = .error error (last, after)) :
    last = tree ∧ compare.Raises error.root after ∨
      Refused tree shape error last := by
  have ends := insert_ends upright value compare state
  rw [failed] at ends
  cases ends with
  | refused refused _ _ => exact .inr refused
  | raised raised => exact .inl ⟨rfl, raised⟩

theorem remove_failed (upright : tree.Upright shape)
    (failed : remove value compare (tree, state) = .error error (last, after)) :
    last = tree ∧ compare.Raises error.root after := by
  have ends := remove_ends upright value compare state
  rw [failed] at ends
  cases ends with
  | raised raised => exact ⟨rfl, raised⟩

theorem replace_failed {old new : α} (upright : tree.Upright shape)
    (failed : replace old new compare (tree, state) =
      .error error (last, after)) :
    last = tree ∧ (compare.Raises error.root after ∨
      error.root = .nothingToReplace ∨ error.root = .replacementTooLow ∨
      error.root = .replacementTooHigh) := by
  have ends := replace_ends upright old new compare state
  rw [failed] at ends
  cases ends with
  | misfit _ misfit =>
      exact ⟨rfl, misfit.imp_right fun misplaced => .inr misplaced.1⟩
  | absent _ => exact ⟨rfl, .inr (.inl rfl)⟩
  | raised raised => exact ⟨rfl, .inl raised⟩

theorem split_failed (upright : tree.Upright shape)
    (failed : Edit.split id tree = .error error last) :
    last = tree ∧ (error.root = .stale id ∧ id ∉ shape.ids ∨
      ∃ path list children, shape = plug path (.node id (some list) children) ∧
        children ≠ [] ∧ error.root = .notALeaf id children.length) ∨
      Refused tree shape error last := by
  have ends := split_ends upright id
  rw [failed] at ends
  cases ends with
  | refused refused _ _ _ => exact .inr refused
  | branch whole inner => exact .inl ⟨rfl, .inr ⟨_, _, _, whole, inner, rfl⟩⟩
  | dead dead => exact .inl ⟨rfl, .inl ⟨rfl, dead⟩⟩

end

end LinkedBTree.Tree
