import LinkedBTree.Proofs.ChunkList
import LinkedBTree.Proofs.Tree.Chunks
import LinkedBTree.Proofs.Tree.Refinement

namespace LinkedBTree

/-! Under a comparator that orders the values the leaves are chunks: what is
above them has no bearing on what they hold. -/

variable {α σ : Type}

open Subtree

/-- What becomes of the chunks when a call on the tree succeeds. -/
def ChunkList.after (answer : α → α → Ordering) (tree : Tree α)
    (state : ChunkList α) : Tree.Call α → ChunkList α
  | .insert value => state.insert answer tree.config value
  | .remove value => state.remove answer value
  | .replace old new => state.replace answer old new
  | .split leaf =>
      match tree.arena.leaves tree.root with
      | .ok leaves => state.split tree.config (leaves.idxOf leaf)
      | .error _ => state
  | .get _ | .contains _ | .list => state

namespace Tree

/-- A tree and the chunks beside it, after calls made one after another. Calls
that fail leave the chunks alone. -/
def Call.tracked (answer : α → α → Ordering) (compare : Comparator σ α) :
    List (Call α) → Tree α × σ → ChunkList α → Tree α × ChunkList α
  | [], start, chunks => (start.1, chunks)
  | call :: rest, start, chunks =>
      match call.act compare start with
      | .ok _ next => tracked answer compare rest next (chunks.after answer start.1 call)
      | .error _ next => tracked answer compare rest next chunks

/-- The leaves hold these chunks, and every split has cut one. -/
structure Chunked (tree : Tree α) (state : ChunkList α) : Prop where
  lists : tree.arena.leafPayloads tree.root = .ok (state.chunks.map EntryList.mk)
  arrivals : tree.values.size = state.arrivals
  splits : tree.arena.stats.splits = .ofNat state.cuts

private structure Tracks (config : Config) (answer : α → α → Ordering)
    (tree : Tree α) (shape : Shape α) (state : ChunkList α) : Prop where
  standing : tree.Standing shape
  config : tree.config = config
  chunks : state.chunks = shape.chunks
  ascending : Ascending answer (shape.entries.map Entry.value)
  arrivals : state.arrivals = tree.values.size
  splits : tree.arena.stats.splits = .ofNat state.cuts

section

variable {config : Config} {answer : α → α → Ordering} {tree : Tree α}
  {shape final : Shape α} {state : ChunkList α} {compare : Comparator σ α}
  {value : α} {left right : List (Entry α)} {entry : Entry α}

private theorem Tracks.chunked (tracks : Tracks config answer tree shape state) :
    tree.Chunked state where
  lists := by
    rw [leafPayloads_eq tracks.standing.upright, tracks.chunks, Subtree.chunks,
      List.map_map]
    rfl
  arrivals := tracks.arrivals.symm
  splits := tracks.splits

private theorem around_of_cut
    (cut : Cut answer value (left.map Entry.value) (right.map Entry.value)) :
    Around answer value left right where
  below _ member := cut.below _ (List.mem_map_of_mem member)
  above _ member := cut.above _ (List.mem_map_of_mem member)

private theorem Tracks.alter {arena : Arena (EntryList α)} {values : ValueTable α}
    {next : ChunkList α} (tracks : Tracks config answer tree shape state)
    (standing : ({ tree with arena, values } : Tree α).Standing final)
    (chunks : next.chunks = final.chunks)
    (ascending : Ascending answer (final.entries.map Entry.value))
    (arrivals : next.arrivals = values.size)
    (splits : arena.stats.splits = .ofNat next.cuts) :
    Tracks config answer { tree with arena, values } final next :=
  ⟨standing, tracks.config, chunks, ascending, arrivals, splits⟩

private theorem Tracks.rearranged {arena : Arena (EntryList α)}
    {values : ValueTable α} {chunks : List (List (Entry α))}
    (tracks : Tracks config answer tree shape state)
    (kept : arena.setting = tree.arena.setting)
    (size : values.size = tree.values.size)
    (standing : ({ tree with arena, values } : Tree α).Standing final)
    (areChunks : chunks = final.chunks)
    (ascending : Ascending answer (final.entries.map Entry.value)) :
    Tracks config answer { tree with arena, values } final { state with chunks } :=
  tracks.alter standing areChunks ascending (tracks.arrivals.trans size.symm)
    ((congrArg Prod.snd kept).trans tracks.splits)

private theorem Tracks.refused {error : Error} {last : Tree α}
    (tracks : Tracks config answer tree shape state)
    (refused : Refused tree shape error last) :
    Tracks config answer last shape state := by
  obtain ⟨arena, rfl⟩ := refused.same
  have standing := tracks.standing
  exact tracks.rearranged refused.setting rfl
    ⟨refused.upright.embodies, standing.sound, standing.mirrors⟩ tracks.chunks
    tracks.ascending

private theorem ascending_without
    (ascending : Ascending answer ((left ++ entry :: right).map Entry.value)) :
    Ascending answer ((left ++ right).map Entry.value) := by
  refine List.Pairwise.sublist (List.Sublist.map _ ?_) ascending
  exact (List.Sublist.refl left).append (List.sublist_cons_self entry right)

section

variable {path : List (Frame α)} {leaf : NodeId} {front back : List (Entry α)}
  {list : EntryList α}

private theorem Tracks.chunks_eq
    (tracks : Tracks config answer tree (plug path (.node leaf (some list) [])) state) :
    state.chunks = chunksLeft path ++ list.entries :: chunksRight path := by
  rw [tracks.chunks, chunks_plug, chunks_leaf, List.append_assoc]
  rfl

private theorem idxOf_leaf
    (nodup : (plug path (.node leaf (some list) [])).ids.Nodup) :
    ((plug path (.node leaf (some list) [])).tips.map Subtree.id).idxOf leaf =
      (chunksLeft path).length := by
  have apart := (sublist_ids_tips _).nodup nodup
  rw [tips_plug, tips_leaf, List.append_assoc, List.singleton_append,
    List.map_append, List.map_cons, id_node] at apart ⊢
  have absent : leaf ∉ (tipsLeft path).map Subtree.id := fun inside =>
    (List.nodup_append.mp apart).2.2 leaf inside leaf (by simp) rfl
  rw [List.idxOf_append, if_neg absent, List.idxOf_cons_self]
  simp [chunksLeft]

private theorem Tracks.split_eq
    (tracks : Tracks config answer tree (plug path (.node leaf (some list) [])) state) :
    state.after answer tree (.split leaf) =
      if config.chunkSize < list.entries.length then
        { state with
          chunks := chunksLeft path ++ EntryList.cut config.chunkSize list.entries ++
            chunksRight path
          cuts := state.cuts + 1 }
      else
        state := by
  obtain ⟨_, kids, whole⟩ := tracks.standing.embodies
  rw [ChunkList.after, leaves_eq tracks.standing.upright]
  simp only
  rw [idxOf_leaf whole.nodup, ChunkList.split_middle tracks.chunks_eq, tracks.config]

private theorem Tracks.insert_eq {fresh : List NodeId}
    (tracks : Tracks config answer tree
      (plug path (.node leaf (some ⟨front ++ back⟩) [])) state)
    (positive : 0 < tree.config.chunkSize)
    (around : Around answer value (leftOf path ++ front) (back ++ rightOf path))
    (fits : Edit.Fits path back) (supplied : tree.config.Supplied
      ⟨front ++ ⟨value, tree.values.size⟩ :: back⟩ fresh) :
    state.insert answer tree.config value =
      ⟨(plug path (grown tree.config leaf
          ⟨front ++ ⟨value, tree.values.size⟩ :: back⟩ fresh)).chunks,
        state.arrivals + 1,
        state.cuts + if tree.config.Overfull
          ⟨front ++ ⟨value, tree.values.size⟩ :: back⟩ then 1 else 0⟩ := by
  have full := Config.overfull_iff positive
    (⟨front ++ ⟨value, tree.values.size⟩ :: back⟩ : EntryList α)
  rw [← flatten_chunksLeft, ← flatten_chunksRight] at around
  rw [ChunkList.insert_middle tracks.chunks_eq around fun none =>
    chunksRight_eq_nil (fits none), tracks.arrivals, chunks_plug,
    chunks_grown supplied]
  by_cases isFull : tree.config.Overfull
    ⟨front ++ ⟨value, tree.values.size⟩ :: back⟩
  · simp only [if_pos isFull, if_pos (full.mp isFull)]
  · simp only [if_neg isFull, if_neg (isFull ∘ full.mpr)]
    simp

end

private def Heeds (config : Config) (answer : α → α → Ordering) (tree : Tree α)
    (call : Call α) (state : ChunkList α) (outcome : Outcome σ α) : Prop :=
  ∃ final, Tracks config answer (reached outcome).1 final
    (match outcome with
      | .ok _ _ => state.after answer tree call
      | .error _ _ => state)

private theorem heeds_split (tracks : Tracks config answer tree shape state)
    (valid : config.Valid) (leaf : NodeId) (start : σ) :
    Heeds config answer tree (.split leaf) state
      ((Call.split leaf).act compare (tree, start)) := by
  have standing := tracks.standing
  have ends := split_ends standing.upright leaf
  rw [Call.act, run_map, run_apply]
  generalize Edit.split leaf tree = outcome at ends ⊢
  have long (list : EntryList α) : 2 ≤ (list.pieces tree.config.chunkSize).length ↔
      config.chunkSize < list.entries.length := by
    rw [tracks.config]
    exact EntryList.two_le_length_pieces valid.chunkSize_pos list
  cases ends with
  | @cut path list fresh arena whole several length kept embodied =>
      subst whole
      have some : list.pieces tree.config.chunkSize ≠ [] :=
        List.ne_nil_of_length_pos (Nat.lt_of_lt_of_le Nat.two_pos several)
      refine ⟨plug path (spread leaf fresh (list.pieces tree.config.chunkSize)), ?_⟩
      show Tracks config answer _ _ (state.after answer tree (.split leaf))
      rw [tracks.split_eq, if_pos ((long list).mp several)]
      apply tracks.alter (standing.splitted length several embodied)
      · rw [chunks_plug, chunks_spread length some, tracks.config, EntryList.pieces,
          List.map_map]
        exact congrArg (chunksLeft path ++ · ++ chunksRight path)
          (List.map_id _).symm
      · rw [entries_splitted length several]
        exact tracks.ascending
      · exact tracks.arrivals
      · refine (congrArg Prod.snd kept).trans ?_
        rw [tracks.splits]
        exact (UInt64.ofNat_add ..).symm
  | @short path list whole few =>
      subst whole
      refine ⟨plug path (.node leaf (some list) []), ?_⟩
      show Tracks config answer _ _ (state.after answer tree (.split leaf))
      rw [tracks.split_eq, if_neg (Nat.not_le_of_lt few ∘ (long list).mpr)]
      exact tracks
  | refused refused => exact ⟨shape, tracks.refused refused⟩
  | branch _ _ => exact ⟨shape, tracks⟩
  | dead _ => exact ⟨shape, tracks⟩

private theorem heeds_consult {β : Type} {query : Tree α → EStateM Error σ β}
    {reply : β → Reply α} {call : Call α}
    (tracks : Tracks config answer tree shape state)
    (isCall : call.act compare = reply <$> Session.consult query)
    (same : state.after answer tree call = state) (start : σ) :
    Heeds config answer tree call state (call.act compare (tree, start)) := by
  rw [isCall, run_map, run_consult]
  cases query tree start with
  | error error after => exact ⟨shape, tracks⟩
  | ok result after =>
      refine ⟨shape, ?_⟩
      show Tracks config answer tree shape (state.after answer tree call)
      rw [same]
      exact tracks

section

variable [Std.TransCmp answer]

private theorem around_of_between (ascending : Ascending answer
      ((left ++ right).map Entry.value))
    (between : Between answer value left right) : Around answer value left right := by
  rw [List.map_append] at ascending
  obtain ⟨isLeft, isRight, _⟩ := List.pairwise_append.mp ascending
  exact around_of_cut (cut_of_fits isLeft isRight (between_iff_fits.mp between))

private theorem around_of_equal (ascending : Ascending answer
      ((left ++ entry :: right).map Entry.value))
    (equal : answer value entry.value = .eq) : Around answer value left right := by
  rw [List.map_append, List.map_cons] at ascending
  exact around_of_cut (cut_of_equal ascending equal)

private theorem ascending_with {index : Nat}
    (ascending : Ascending answer ((left ++ right).map Entry.value))
    (around : Around answer value left right) :
    Ascending answer ((left ++ ⟨value, index⟩ :: right).map Entry.value) := by
  have cut : Cut answer value (left.map Entry.value) (right.map Entry.value) :=
    ⟨List.forall_mem_map.mpr around.below, List.forall_mem_map.mpr around.above⟩
  rw [List.map_append] at ascending ⊢
  obtain ⟨isLeft, isRight, _⟩ := List.pairwise_append.mp ascending
  exact cut.ascending isLeft isRight

private theorem Tracks.around_of_gap
    (tracks : Tracks config answer tree shape state)
    (gap : Gap answer value shape left right) :
    Ascending answer ((left ++ right).map Entry.value) ∧
      Around answer value left right := by
  have ascending := tracks.ascending
  rw [gap.entries_eq] at ascending
  exact ⟨ascending,
    around_of_between ascending (between_of_gap tracks.standing gap)⟩

private theorem Tracks.around_of_found {path : List (Frame α)} {leaf : NodeId}
    {front back : List (Entry α)}
    (tracks : Tracks config answer tree
      (plug path (.node leaf (some ⟨front ++ entry :: back⟩) [])) state)
    (equal : answer value entry.value = .eq) :
    Ascending answer
        (((leftOf path ++ front) ++ (back ++ rightOf path)).map Entry.value) ∧
      Around answer value ((chunksLeft path).flatten ++ front)
        (back ++ (chunksRight path).flatten) := by
  have entries : (plug path (.node leaf (some ⟨front ++ entry :: back⟩) [])).entries =
      (leftOf path ++ front) ++ entry :: (back ++ rightOf path) := by
    simp [entries_plug]
  have ascending := tracks.ascending
  rw [entries] at ascending
  rw [flatten_chunksLeft, flatten_chunksRight]
  exact ⟨ascending_without ascending, around_of_equal ascending equal⟩

private theorem heeds_insert (tracks : Tracks config answer tree shape state)
    (valid : config.Valid) (steady : compare.Steady answer) (value : α)
    (start : σ) : Heeds config answer tree (.insert value) state
      ((Call.insert value).act compare (tree, start)) := by
  have standing := tracks.standing
  have ends := insert_ends standing.upright value compare start
  rw [Call.act, run_map]
  generalize Tree.insert value compare (tree, start) = outcome at ends ⊢
  cases ends with
  | @found path id children front entry back after landed =>
      refine ⟨shape, ?_⟩
      have member : entry ∈ state.chunks.flatten := by
        rw [tracks.chunks, flatten_chunks]
        rw [landed.whole] at standing ⊢
        exact standing.mem_entries (by simp [Stop.entries])
      show Tracks config answer tree shape (state.insert answer tree.config value)
      rw [ChunkList.insert_present member (landed.told answer steady).2]
      exact tracks
  | @stored path leaf children front back fresh arena after landed supplied kept
      embodied =>
      obtain ⟨ascending, around⟩ := tracks.around_of_gap (landed.exists_gap steady)
      obtain rfl := landed.gap
      have fits := fits_of_routed standing rfl
        (landed.routed answer steady) (landed.told answer steady).1
      refine ⟨plug path (grown tree.config leaf
        ⟨front ++ ⟨value, tree.values.size⟩ :: back⟩ fresh), ?_⟩
      show Tracks config answer _ _ (state.insert answer tree.config value)
      rw [tracks.insert_eq (tracks.config ▸ valid.chunkSize_pos) around fits supplied]
      apply tracks.alter (standing.stored rfl fits supplied embodied) rfl
      · rw [entries_stored supplied]
        exact ascending_with ascending around
      · rw [tracks.arrivals, ValueTable.size_push]
      · refine (congrArg Prod.snd kept).trans ?_
        rw [tracks.splits, UInt64.ofNat_add]
        split <;> rfl
  | refused refused => exact ⟨shape, tracks.refused refused⟩
  | raised _ => exact ⟨shape, tracks⟩

private theorem heeds_remove (tracks : Tracks config answer tree shape state)
    (steady : compare.Steady answer) (value : α) (start : σ) :
    Heeds config answer tree (.remove value) state
      ((Call.remove value).act compare (tree, start)) := by
  have standing := tracks.standing
  have upright := standing.upright
  have ends := remove_ends upright value compare start
  rw [Call.act, run_map]
  generalize Tree.remove value compare (tree, start) = outcome at ends ⊢
  cases ends with
  | @found path leaf children front entry back arena after landed kept embodied =>
      have equal := (landed.told answer steady).2
      obtain rfl := landed.found
      obtain ⟨ascending, around⟩ := tracks.around_of_found equal
      refine ⟨erased path leaf front entry back, ?_⟩
      show Tracks config answer _ _ (state.remove answer value)
      rw [ChunkList.remove_middle tracks.chunks_eq around equal]
      apply tracks.rearranged kept (ValueTable.size_put ..)
        (standing.erased rfl embodied)
      · rw [chunks_erased (upright.formed_of_filled (by simp)).enough]
      · rw [entries_of_erased upright rfl]
        exact ascending
  | absent landed =>
      have gap := landed.exists_gap steady
      obtain ⟨_, around⟩ := tracks.around_of_gap gap
      refine ⟨shape, ?_⟩
      show Tracks config answer tree shape (state.remove answer value)
      rw [ChunkList.remove_absent around (by
        rw [tracks.chunks, flatten_chunks, gap.entries_eq])]
      exact tracks
  | raised _ => exact ⟨shape, tracks⟩

private theorem heeds_replace (tracks : Tracks config answer tree shape state)
    (steady : compare.Steady answer) (old new : α) (start : σ) :
    Heeds config answer tree (.replace old new) state
      ((Call.replace old new).act compare (tree, start)) := by
  have standing := tracks.standing
  have ends := replace_ends standing.upright old new compare start
  rw [Call.act, run_map]
  generalize Tree.replace old new compare (tree, start) = outcome at ends ⊢
  cases ends with
  | @replaced path leaf children front entry back arena after landed fits kept
      embodied =>
      have equal := (landed.told answer steady).2
      obtain rfl := landed.found
      obtain ⟨ascending, around⟩ := tracks.around_of_found equal
      have renewed := around_of_between ascending (fits answer steady)
      refine ⟨overwritten path leaf front ⟨new, entry.index⟩ back, ?_⟩
      show Tracks config answer _ _ (state.replace answer old new)
      rw [ChunkList.replace_middle tracks.chunks_eq around equal]
      apply tracks.rearranged kept (ValueTable.size_put ..)
        (standing.overwritten rfl embodied)
      · rw [chunks_overwritten]
      · rw [entries_overwritten]
        exact ascending_with ascending renewed
  | misfit _ _ => exact ⟨shape, tracks⟩
  | absent _ => exact ⟨shape, tracks⟩
  | raised _ => exact ⟨shape, tracks⟩

private theorem Tracks.act (tracks : Tracks config answer tree shape state)
    (valid : config.Valid) (steady : compare.Steady answer) (call : Call α)
    (start : σ) :
    Heeds config answer tree call state (call.act compare (tree, start)) := by
  cases call with
  | insert value => exact heeds_insert tracks valid steady value start
  | remove value => exact heeds_remove tracks steady value start
  | replace old new => exact heeds_replace tracks steady old new start
  | split leaf => exact heeds_split tracks valid leaf start
  | get value => exact heeds_consult tracks rfl rfl start
  | contains value => exact heeds_consult tracks rfl rfl start
  | list => exact heeds_consult tracks rfl rfl start

private theorem Tracks.tracked (tracks : Tracks config answer tree shape state)
    (valid : config.Valid) (steady : compare.Steady answer) (calls : List (Call α))
    (start : σ) : ∃ final,
      Tracks config answer (Call.tracked answer compare calls (tree, start) state).1
        final (Call.tracked answer compare calls (tree, start) state).2 := by
  induction calls generalizing tree shape state start with
  | nil => exact ⟨shape, tracks⟩
  | cons call rest induction =>
      obtain ⟨final, tracks⟩ := tracks.act valid steady call start
      rw [Call.tracked]
      cases outcome : call.act compare (tree, start) with
      | ok reply next =>
          rw [outcome] at tracks
          exact induction tracks next.2
      | error error next =>
          rw [outcome] at tracks
          exact induction tracks next.2

/-- Whatever calls are made, the leaves are what a list of chunks would be. -/
theorem leaves_follow_chunks (valid : config.Valid)
    (steady : compare.Steady answer) :
    ∃ start : Tree α, withConfig config = .ok start ∧
      ∀ (calls : List (Call α)) (state : σ),
        (Call.tracked answer compare calls (start, state) {}).1.Chunked
          (Call.tracked answer compare calls (start, state) {}).2 := by
  obtain ⟨start, created, stands, _, fresh, isConfig, setting⟩ :=
    @standing_withConfig α _ valid
  refine ⟨start, created, fun calls state => ?_⟩
  have tracks : Tracks config answer start (.node start.root (some {}) []) {} := by
    refine ⟨stands, isConfig, ?_, ?_, ?_, congrArg Prod.snd setting⟩
    · rw [chunks_leaf]
    · rw [entries_leaf]
      exact .nil
    · rw [fresh]
      rfl
  obtain ⟨final, tracks⟩ := tracks.tracked valid steady calls state
  exact tracks.chunked

end

end

/-- Seven gets a chunk of its own when it arrives, and six another one. -/
theorem leaves_follow_chunks_cut :
    ({ maxValues := 2, chunkSize := 1, nodeCapacity := 8 } : Config).Valid ∧
      ∃ start : Tree Nat,
        withConfig { maxValues := 2, chunkSize := 1, nodeCapacity := 8 } =
          .ok start ∧
        ∃ (after : Tree Nat) (chunks : ChunkList Nat),
          Call.tracked compare (.answering compare)
            [.insert 5, .insert 7, .insert 6, .remove 5, .replace 7 8] (start, ()) {} =
              (after, chunks) ∧
          chunks.chunks = [[⟨6, 2⟩], [⟨8, 1⟩]] ∧ chunks.cuts = 2 ∧
          after.Chunked chunks := by
  have valid : ({ maxValues := 2, chunkSize := 1, nodeCapacity := 8 } :
      Config).Valid := by
    constructor <;> decide
  obtain ⟨start, created, follows⟩ := leaves_follow_chunks valid
    (Comparator.steady_answering (compare : Nat → Nat → Ordering))
  refine ⟨valid, start, created, _, _, (Prod.eta _).symm, ?_, ?_, follows _ ()⟩
  · obtain rfl := Except.ok.inj created
    decide +kernel
  · obtain rfl := Except.ok.inj created
    decide +kernel

end Tree

end LinkedBTree
