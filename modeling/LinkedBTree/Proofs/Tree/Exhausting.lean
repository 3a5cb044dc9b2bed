import LinkedBTree.Proofs.Tree.Bookkeeping
import LinkedBTree.Proofs.Tree.Portions

namespace LinkedBTree

/-! When a value cannot be inserted for want of nodes. -/

variable {α σ : Type}

open Subtree

namespace Tree

structure Exhausted (tree last : Tree α) (error : Error) : Prop where
  cause : error.root = .arenaExhausted tree.config.nodeCapacity
  same : last = { tree with arena := last.arena }
  live : last.arena.liveCount = tree.arena.liveCount
  stats : last.arena.stats = { tree.arena.stats with
    allocated := tree.arena.stats.allocated +
      .ofNat (tree.config.nodeCapacity - tree.arena.liveCount)
    freed := tree.arena.stats.freed +
      .ofNat (tree.config.nodeCapacity - tree.arena.liveCount)
    refused := tree.arena.stats.refused + 1 }

structure Admitted (tree last : Tree α) (value : α) (list : EntryList α) (element : Nat) :
    Prop where
  same : last = { tree with arena := last.arena, values := tree.values.push value }
  leaves : ∃ before after,
    tree.leafEntries = .ok (before ++ list.entries ++ after) ∧
    last.leafEntries = .ok (before ++ (list.entries.take element ++
      ⟨value, tree.values.size⟩ :: list.entries.drop element) ++ after)

/-- How an insertion ends whose value belongs at `element` of a leaf with `list`. -/
structure InsertOutcome (tree : Tree α) (config : Config) (value : α)
    (compare : Comparator σ α) (state after : σ) (list : EntryList α) (element : Nat) :
    Prop where
  fails_iff : (∃ error last, insert value compare (tree, state) = .error error last ∧
      error.root.category = .allocation) ↔
    config.OutOfNodes tree.arena.liveCount list.length
  fails : config.OutOfNodes tree.arena.liveCount list.length → ∃ error last,
    insert value compare (tree, state) = .error error (last, after) ∧
      tree.Exhausted last error
  stores : ¬config.OutOfNodes tree.arena.liveCount list.length → ∃ last,
    insert value compare (tree, state) = .ok (.inserted tree.values.size) (last, after) ∧
      tree.Admitted last value list element

section

variable {tree : Tree α} {config : Config} {shape : Shape α}
  (abides : tree.Abides config shape)
include abides

variable {value : α} {compare : Comparator σ α} {state after : σ}
  {path : List (Frame α)} {leaf : NodeId} {children : List (Shape α)}
  {front back : List (Entry α)}
  (descended : descend value compare false [] shape state =
    .ok ⟨path, leaf, children, .before front back⟩ after)
include descended

private theorem exhausted
    (none : ¬Edit.Room tree ⟨front ++ ⟨value, tree.values.size⟩ :: back⟩) :
    ∃ error last, insert value compare (tree, state) = .error error (last, after) ∧
      tree.Exhausted last error := by
  obtain ⟨arena, error, refused, cause, unwound, _⟩ :=
    insert_refused abides.upright descended none
  have capacity : tree.config.nodeCapacity = tree.arena.capacity := by
    rw [abides.config, abides.capacity]
  refine ⟨error, _, refused, ?_, rfl, unwound.liveCount, ?_⟩
  · rw [cause, capacity]
  · rw [capacity]
    exact unwound.stats

private theorem admitted
    (room : Edit.Room tree ⟨front ++ ⟨value, tree.values.size⟩ :: back⟩) :
    ∃ last, insert value compare (tree, state) =
        .ok (.inserted tree.values.size) (last, after) ∧
      tree.Admitted last value ⟨front ++ back⟩ front.length := by
  obtain ⟨fresh, arena, done, supplied, _, embodied⟩ :=
    insert_room abides.upright descended room
  have upright := abides.upright
  rw [(upright.landed descended).gap] at upright
  refine ⟨_, done, rfl, leftOf path, rightOf path, ?_, ?_⟩
  · rw [leafEntries_eq upright, entries_plug, entries_leaf]
  · rw [leafEntries_eq (upright.stored rfl supplied embodied), entries_stored supplied,
      List.take_left, List.drop_left]
    simp

end

/-- An insertion fails for want of nodes exactly when its leaf needs more than there
are left, and then those that were left are left again. Otherwise the value is
stored. -/
theorem inserts_run_out_of_nodes {config : Config} (valid : config.Valid) :
    ∃ start : Tree α, withConfig config = .ok start ∧
      ∀ (requests : List (Request α)) (value : α) (compare : Comparator σ α) (state : σ)
        leaf element after list,
        (requests.foldl perform start).locate value compare state =
          .ok (.gap leaf element) after →
        (requests.foldl perform start).list leaf = .ok list →
        (requests.foldl perform start).InsertOutcome config value compare state after
          list element := by
  obtain ⟨start, created, shape, abides⟩ := @abides_withConfig α config valid
  refine ⟨start, created, ?_⟩
  intro requests value compare state leaf element after list located isList
  obtain ⟨shape, abides⟩ := abides.history requests
  generalize requests.foldl perform start = tree at *
  have upright := abides.upright
  obtain ⟨⟨path, id, children, stop⟩, descended, isGap⟩ :=
    (locate_alike upright value compare).symm.of_ok located
  cases stop with
  | equal front entry back => cases isGap
  | before front back =>
      obtain ⟨rfl, rfl⟩ := Location.gap.inj isGap
      have embodies := upright.embodies
      rw [(upright.landed descended).gap] at embodies
      obtain rfl := Except.ok.inj (isList.symm.trans embodies.list_eq)
      have isLength : (⟨front ++ ⟨value, tree.values.size⟩ :: back⟩ : EntryList α).length =
          (⟨front ++ back⟩ : EntryList α).length + 1 := by
        simp only [EntryList.length, List.length_append, List.length_cons]
        omega
      have full := abides.not_room_iff valid.chunkSize_pos isLength
      have fails := fun lacking => exhausted abides descended (full.mpr lacking)
      have stores := fun enough =>
        admitted abides descended (Classical.not_not.mp (full.not.mpr enough))
      refine ⟨⟨?_, fun lacking => ?_⟩, fails, stores⟩
      · rintro ⟨error, last, failed, _⟩
        by_contra enough
        obtain ⟨_, done, _⟩ := stores enough
        cases failed.symm.trans done
      · obtain ⟨error, last, failed, exhausted⟩ := fails lacking
        exact ⟨error, _, failed, by rw [exhausted.cause]; rfl⟩

/-- One node is left, and the leaf would need two. -/
theorem inserts_run_out_of_nodes_narrowly :
    ({ maxValues := 2, chunkSize := 1, nodeCapacity := 2 } : Config).Valid ∧
      ∃ start : Tree Nat,
        withConfig { maxValues := 2, chunkSize := 1, nodeCapacity := 2 } = .ok start ∧
        ∃ error last,
          insert 7 (.answering compare)
            ([.insert 5 (.answering compare) ()].foldl perform start, ()) =
              .error error (last, ()) ∧
          ([.insert 5 (.answering compare) ()].foldl perform start).Exhausted last error := by
  have valid : ({ maxValues := 2, chunkSize := 1, nodeCapacity := 2 } :
      Config).Valid := by
    constructor <;> decide
  obtain ⟨start, created, outcome⟩ := @inserts_run_out_of_nodes Nat Unit _ valid
  have located : ([.insert 5 (.answering compare) ()].foldl perform start).locate 7
      (.answering compare) () = .ok (.gap start.root 1) () := by
    obtain rfl := Except.ok.inj created
    decide +kernel
  have isList : ([.insert 5 (.answering compare) ()].foldl perform start).list start.root =
      .ok ⟨[⟨5, 0⟩]⟩ := by
    obtain rfl := Except.ok.inj created
    decide +kernel
  have one : ([.insert 5 (.answering compare) ()].foldl perform start).arena.liveCount = 1 := by
    obtain rfl := Except.ok.inj created
    decide +kernel
  refine ⟨valid, start, created, (outcome _ _ _ _ _ _ _ _ located isList).fails ?_⟩
  rw [one]
  decide

end Tree

end LinkedBTree
