import LinkedBTree.Proofs.Tree.Erasing
import LinkedBTree.Proofs.Tree.Overwriting
import LinkedBTree.Proofs.Tree.Storing

namespace LinkedBTree

/-! An edited tree is upright again, and stands if the place of a new value was
not behind the entry that a separator copies. -/

variable {α : Type}

open Subtree

namespace Tree

variable {tree : Tree α} {path : List (Frame α)} {leaf : NodeId}
  {list : EntryList α} {front back : List (Entry α)} {entry : Entry α}
  {arena : Arena (EntryList α)}

section

variable {value : α} {fresh : List NodeId}

theorem entries_stored
    (supplied : tree.config.Supplied ⟨front ++ entry :: back⟩ fresh) :
    (plug path (grown tree.config leaf ⟨front ++ entry :: back⟩ fresh)).entries =
      (leftOf path ++ front) ++ entry :: (back ++ rightOf path) := by
  rw [entries_plug, entries_grown supplied]
  simp

theorem Upright.stored
    (upright : tree.Upright (plug path (.node leaf (some list) [])))
    (split : list.entries = front ++ back) (supplied : tree.config.Supplied
      ⟨front ++ ⟨value, tree.values.size⟩ :: back⟩ fresh)
    (embodies : ({ tree with arena, values := tree.values.push value } :
      Tree α).Embodies (plug path (grown tree.config leaf
        ⟨front ++ ⟨value, tree.values.size⟩ :: back⟩ fresh))) :
    ({ tree with arena, values := tree.values.push value } : Tree α).Upright
      (plug path (grown tree.config leaf
        ⟨front ++ ⟨value, tree.values.size⟩ :: back⟩ fresh)) := by
  have new := (@sound_grown _ leaf _ _ _ (by simp) supplied).formed
  refine ⟨embodies, .inl ?_, ?_⟩
  · rcases upright.formed_or_empty with formed | ⟨rfl, _⟩
    · exact formed.swap new
    · exact new
  · have mirrors := upright.mirrors
    rw [entries_plug, entries_leaf, split] at mirrors
    rw [entries_stored supplied]
    refine ValueTable.Mirrors.push ?_ value
    simpa using mirrors

theorem Standing.stored
    (standing : tree.Standing (plug path (.node leaf (some list) [])))
    (split : list.entries = front ++ back) (fits : Edit.Fits path back)
    (supplied : tree.config.Supplied
      ⟨front ++ ⟨value, tree.values.size⟩ :: back⟩ fresh)
    (embodies : ({ tree with arena, values := tree.values.push value } :
      Tree α).Embodies (plug path (grown tree.config leaf
        ⟨front ++ ⟨value, tree.values.size⟩ :: back⟩ fresh))) :
    ({ tree with arena, values := tree.values.push value } : Tree α).Standing
      (plug path (grown tree.config leaf
        ⟨front ++ ⟨value, tree.values.size⟩ :: back⟩ fresh)) := by
  have new := @sound_grown _ leaf _ _ _ (by simp) supplied
  refine ⟨embodies, .inl ?_,
    (standing.upright.stored split supplied embodies).mirrors⟩
  rcases standing.sound_or_empty with sound | ⟨rfl, _⟩
  · apply sound.swap new
    by_cases atEnd : back = []
    · exact .inr (fits atEnd)
    · left
      have last := List.getLast?_eq_some_getLast atEnd
      rw [new.last_eq, entries_grown supplied, ending?_leaf, split]
      simp [List.getLast?_append, List.getLast?_cons, last]
  · exact new

end

section

variable {lists : List (EntryList α)} {fresh : List NodeId}

theorem entries_splitted (length : fresh.length =
      (list.pieces tree.config.chunkSize).length)
    (several : 2 ≤ (list.pieces tree.config.chunkSize).length) :
    (plug path (Subtree.spread leaf fresh
      (list.pieces tree.config.chunkSize))).entries =
      (plug path (.node leaf (some list) [])).entries := by
  rw [entries_plug, entries_plug, entries_spread length several,
    EntryList.flatMap_entries_pieces, entries_leaf]

theorem Upright.splitted
    (upright : tree.Upright (plug path (.node leaf (some list) [])))
    (length : fresh.length = (list.pieces tree.config.chunkSize).length)
    (several : 2 ≤ (list.pieces tree.config.chunkSize).length)
    (embodies : ({ tree with arena } : Tree α).Embodies (plug path
      (Subtree.spread leaf fresh (list.pieces tree.config.chunkSize)))) :
    ({ tree with arena } : Tree α).Upright (plug path
      (Subtree.spread leaf fresh (list.pieces tree.config.chunkSize))) := by
  have new := (@sound_spread _ _ _ leaf length filled_pieces several).formed
  refine ⟨embodies, .inl ?_, ?_⟩
  · rcases upright.formed_or_empty with formed | ⟨rfl, _⟩
    · exact formed.swap new
    · exact new
  · rw [entries_splitted length several]
    exact upright.mirrors

theorem Standing.splitted
    (standing : tree.Standing (plug path (.node leaf (some list) [])))
    (length : fresh.length = (list.pieces tree.config.chunkSize).length)
    (several : 2 ≤ (list.pieces tree.config.chunkSize).length)
    (embodies : ({ tree with arena } : Tree α).Embodies (plug path
      (Subtree.spread leaf fresh (list.pieces tree.config.chunkSize)))) :
    ({ tree with arena } : Tree α).Standing (plug path
      (Subtree.spread leaf fresh (list.pieces tree.config.chunkSize))) := by
  have new := @sound_spread _ _ _ leaf length filled_pieces several
  refine ⟨embodies, .inl ?_,
    (standing.upright.splitted length several embodies).mirrors⟩
  rcases standing.sound_or_empty with sound | ⟨rfl, _⟩
  · refine sound.swap new (.inl ?_)
    rw [new.last_eq, entries_spread length several,
      EntryList.flatMap_entries_pieces, ending?_leaf]
  · exact new

end

section

private theorem mirrors_split
    (mirrors : tree.values.Mirrors (plug path (.node leaf (some list) [])).entries)
    (split : list.entries = front ++ entry :: back) :
    tree.values.Mirrors
      ((leftOf path ++ front) ++ entry :: (back ++ rightOf path)) := by
  rw [entries_plug, entries_leaf, split] at mirrors
  simpa using mirrors

theorem entries_of_erased
    (upright : tree.Upright (plug path (.node leaf (some list) [])))
    (split : list.entries = front ++ entry :: back) :
    (erased path leaf front entry back).entries =
      (leftOf path ++ front) ++ (back ++ rightOf path) :=
  entries_erased (upright.formed_of_filled (by simp [split])).enough

variable {values : ValueTable α}

private theorem empty_of_emptied
    (embodies : ({ tree with arena, values } : Tree α).Embodies
      (erased path leaf front entry back))
    (emptied : path = [] ∧
      erased path leaf front entry back = .node leaf (some {}) []) :
    erased path leaf front entry back = .node tree.root (some {}) [] := by
  have isRoot := embodies.1
  rw [emptied.2] at isRoot ⊢
  exact congrArg (Subtree.node · _ _) isRoot

theorem Upright.erased
    (upright : tree.Upright (plug path (.node leaf (some list) [])))
    (split : list.entries = front ++ entry :: back)
    (embodies : ({ tree with
      arena
      values := tree.values.put entry.index none } :
      Tree α).Embodies (erased path leaf front entry back)) :
    ({ tree with
      arena
      values := tree.values.put entry.index none } :
      Tree α).Upright (Subtree.erased path leaf front entry back) := by
  refine ⟨embodies, ?_, ?_⟩
  · exact (formed_erased (upright.formed_of_filled (by simp [split]))).imp_right
      (empty_of_emptied embodies)
  · rw [entries_of_erased upright split]
    exact (mirrors_split upright.mirrors split).erase

theorem Standing.erased
    (standing : tree.Standing (plug path (.node leaf (some list) [])))
    (split : list.entries = front ++ entry :: back)
    (embodies : ({ tree with
      arena
      values := tree.values.put entry.index none } :
      Tree α).Embodies (erased path leaf front entry back)) :
    ({ tree with
      arena
      values := tree.values.put entry.index none } :
      Tree α).Standing (Subtree.erased path leaf front entry back) := by
  refine ⟨embodies, ?_, (standing.upright.erased split embodies).mirrors⟩
  exact (sound_erased (standing.sound_of_filled (by simp [split]))
    standing.mirrors.distinct split).imp_right (empty_of_emptied embodies)

variable {value : α}

theorem Upright.overwritten
    (upright : tree.Upright (plug path (.node leaf (some list) [])))
    (split : list.entries = front ++ entry :: back)
    (embodies : ({ tree with
      arena
      values := tree.values.put entry.index (some value) } :
      Tree α).Embodies
        (overwritten path leaf front ⟨value, entry.index⟩ back)) :
    ({ tree with
      arena
      values := tree.values.put entry.index (some value) } :
      Tree α).Upright
        (Subtree.overwritten path leaf front ⟨value, entry.index⟩ back) := by
  refine ⟨embodies, .inl ?_, ?_⟩
  · exact formed_overwritten (upright.formed_of_filled (by simp [split]))
  · rw [entries_overwritten]
    exact (mirrors_split upright.mirrors split).overwrite value

theorem Standing.overwritten
    (standing : tree.Standing (plug path (.node leaf (some list) [])))
    (split : list.entries = front ++ entry :: back)
    (embodies : ({ tree with
      arena
      values := tree.values.put entry.index (some value) } :
      Tree α).Embodies
        (overwritten path leaf front ⟨value, entry.index⟩ back)) :
    ({ tree with
      arena
      values := tree.values.put entry.index (some value) } :
      Tree α).Standing
        (Subtree.overwritten path leaf front ⟨value, entry.index⟩ back) := by
  refine ⟨embodies, .inl ?_, (standing.upright.overwritten split embodies).mirrors⟩
  exact sound_overwritten (standing.sound_of_filled (by simp [split]))
    standing.mirrors.distinct split rfl

end

end Tree

end LinkedBTree
