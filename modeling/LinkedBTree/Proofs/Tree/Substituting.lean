import LinkedBTree.Proofs.Tree.Bookkeeping
import LinkedBTree.Proofs.Tree.Occurrences

namespace LinkedBTree

/-! Replacing a value puts the new one wherever the old one stood, and changes
nothing else. -/

variable {α σ : Type}

open Subtree

namespace Subtree

variable {path : List (Frame α)} {leaf : NodeId} {front back : List (Entry α)}
  {entry old : Entry α}

private theorem refresh_eq_renew
    (sound : Sound (plug path (node leaf (some ⟨front ++ old :: back⟩) [])))
    (distinct : Distinct (plug path (node leaf (some ⟨front ++ old :: back⟩) [])).entries) :
    path.map (Frame.refresh old.index (if back = [] then some entry else none)) =
      path.map (Frame.renew old.index entry) := by
  by_cases atEnd : back = []
  · rw [if_pos atEnd]
    rfl
  · rw [if_neg atEnd, Frame.map_refresh_none]
    refine (sound.renew_idle distinct (by simp) fun last isEnd => ?_).symm
    have apart := distinct.of_plug
    rw [entries_leaf] at apart
    rw [ending?_leaf, List.getLast?_append_cons,
      List.getLast?_cons_of_ne_nil atEnd] at isEnd
    have later : last ∈ back := List.mem_of_getLast? isEnd
    exact (ValueTable.Mirrors.middle_iff.mp apart).2 last (by simp [later])

theorem overwritten_eq_recast
    (sound : Sound (plug path (node leaf (some ⟨front ++ old :: back⟩) [])))
    (distinct : Distinct (plug path (node leaf (some ⟨front ++ old :: back⟩) [])).entries)
    (value : α) : overwritten path leaf front ⟨value, old.index⟩ back =
      (plug path (node leaf (some ⟨front ++ old :: back⟩) [])).recast
        (EntryList.exchange old.index ⟨value, old.index⟩) := by
  have apart := distinct.of_plug
  rw [entries_leaf] at apart
  have inLeaf : EntryList.exchange old.index ⟨value, old.index⟩ ⟨front ++ old :: back⟩ =
      ⟨front ++ ⟨value, old.index⟩ :: back⟩ :=
    EntryList.exchange_of_split rfl rfl (ValueTable.Mirrors.middle_iff.mp apart).2
  have above : path.map (Frame.recast (EntryList.exchange old.index ⟨value, old.index⟩)) =
      path.map (Frame.renew old.index ⟨value, old.index⟩) :=
    @Sound.recast_path _ _ _ _ (some _) sound distinct (by simp)
  rw [overwritten, refresh_eq_renew sound distinct, recast_plug, above,
    recast_node, Option.map_some, inLeaf]
  rfl

end Subtree

namespace Tree

/-- `new` stands for `old` wherever the index is, and all else is as it was. -/
structure Substituted (tree last : Tree α) (index : Nat) (old new : α) : Prop where
  held : tree.valueAt index = .ok (some old)
  values : last.values = (tree.values.put index (some new))
  same : last = { tree with arena := last.arena, values := last.values }
  dumps : ∃ rows, tree.dump = .ok rows ∧
    last.dump = .ok (rows.map (Row.recast (EntryList.exchange index ⟨new, index⟩)))
  /-- The handles and all links are the same, those that a dump does not show
  among them. -/
  nodes : ∀ id, last.arena.node? id = (tree.arena.node? id).map fun node =>
    { node with payload := node.payload.map (EntryList.exchange index ⟨new, index⟩) }
  single : ∃ entries separators, tree.leafEntries = .ok entries ∧
    entries.countP (·.index = index) = 1 ∧ tree.separators = .ok separators ∧
    separators.countP (·.index = index) ≤ 1

section

variable {tree last : Tree α} {shape : Shape α} {old new replaced : α}
  {compare : Comparator σ α} {state after : σ}

theorem Standing.substituted (standing : tree.Standing shape)
    (done : replace old new compare (tree, state) = .ok replaced (last, after)) :
    ∃ index, tree.Substituted last index replaced new := by
  have ends := replace_ends standing.upright old new compare state
  rw [done] at ends
  cases ends with
  | @replaced path leaf _ front entry back arena _ landed _ _ embodied =>
      obtain rfl := landed.found
      have sound := standing.sound_of_filled (by simp)
      have distinct := standing.mirrors.distinct
      have isEntry : entry ∈
          (plug path (.node leaf (some ⟨front ++ entry :: back⟩) [])).entries := by
        simp [entries_plug]
      rw [overwritten_eq_recast sound distinct new] at embodied
      obtain ⟨_, kids, whole⟩ := standing.embodies
      obtain ⟨_, others, again⟩ := id embodied
      refine ⟨entry.index, ?_, rfl, rfl, ?_, ?_, ?_⟩
      · exact ValueTable.get_of_value? (standing.mirrors.stored entry isEntry)
      · refine ⟨_, dump_eq standing.embodies, ?_⟩
        rw [dump_eq embodied, rows_recast]
      · exact whole.node?_recast again
      · exact ⟨_, _, leafEntries_eq standing.upright, distinct.countP_eq_one isEntry,
          separators_eq standing.embodies, sound.countP_separators_le distinct _⟩

end

/-- Wherever a value is replaced, its entry and the one separator that may copy it
are the only things that change. -/
theorem replacements_substitute {config : Config} (valid : config.Valid) :
    ∃ start : Tree α, withConfig config = .ok start ∧
      ∀ requests : List (Request α), (∀ request ∈ requests, request.Steady) →
        ∀ (old new : α) (compare : Comparator σ α) (state : σ) replaced last after,
          replace old new compare (requests.foldl perform start, state) =
            .ok replaced (last, after) →
          ∃ index, (requests.foldl perform start).Substituted last index replaced new := by
  obtain ⟨start, created, stands⟩ := @standing_after_requests α config valid
  refine ⟨start, created, ?_⟩
  intro requests steady old new compare state replaced last after done
  obtain ⟨shape, standing, _⟩ := stands requests steady
  exact standing.substituted done

/-- The value replaced is the last one of its leaf, and the root separates the leaf
from the next. -/
theorem replacements_substitute_separator :
    ({ maxValues := 2, chunkSize := 1, nodeCapacity := 8 } : Config).Valid ∧
      ∃ start : Tree Nat,
        withConfig { maxValues := 2, chunkSize := 1, nodeCapacity := 8 } =
          .ok start ∧
        ∃ last after index,
          replace 5 6 (.answering compare) ([
            .insert 5 (.answering compare) (),
            .insert 7 (.answering compare) ()].foldl perform start, ()) =
              .ok 5 (last, after) ∧
          ([.insert 5 (.answering compare) (),
            .insert 7 (.answering compare) ()].foldl perform start).Substituted
              last index 5 6 := by
  have valid : ({ maxValues := 2, chunkSize := 1, nodeCapacity := 8 } :
      Config).Valid := by
    constructor <;> decide
  obtain ⟨start, created, substitute⟩ := @replacements_substitute Nat Unit _ valid
  have done : returned? (replace 5 6 (.answering compare) ([
      .insert 5 (.answering compare) (),
      .insert 7 (.answering compare) ()].foldl perform start, ())) = some 5 := by
    obtain rfl := Except.ok.inj created
    decide +kernel
  obtain ⟨⟨last, after⟩, done⟩ := returned?_eq_some.mp done
  obtain ⟨index, substituted⟩ := substitute [
    .insert 5 (.answering compare) (), .insert 7 (.answering compare) ()] (by
      have steady := Comparator.steady_answering (compare : Nat → Nat → Ordering)
      intro request member
      simp only [List.mem_cons, List.not_mem_nil, or_false] at member
      rcases member with rfl | rfl <;> exact ⟨_, steady⟩) _ _ _ _ _ _ _ done
  exact ⟨valid, start, created, last, after, index, done, substituted⟩

end Tree

end LinkedBTree
