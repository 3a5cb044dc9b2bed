import LinkedBTree.Proofs.Tree.Refinement
import LinkedBTree.Proofs.Tree.Spine

namespace LinkedBTree

/-! Values that arrive in ascending order all go to the last leaf, so that only this
one is ever split. -/

variable {α σ : Type}

open Subtree

namespace Tree

/-- What ascending values make of an empty tree. -/
structure Ascended (tree : Tree α) (config : Config) (values : List α) : Prop where
  inOrder : tree.inOrder = .ok values
  splits : tree.arena.stats.splits.toNat = config.splitsAfter values.length
  depth : tree.depth = .ok (config.splitsAfter values.length + 1)
  root : ∃ children, tree.arena.children tree.root = .ok children ∧
    children.length = if values.length < config.brim then 0 else config.fanLimit
  leaves : ∃ full last, tree.arena.leafPayloads tree.root = .ok (full ++ [last]) ∧
    full.length = (config.fanLimit - 1) * config.splitsAfter values.length ∧
    ∀ list ∈ full, list.length = config.chunkSize

structure AscentOutcome (config : Config) (values : List α)
    (outcome : EStateM.Result Error (Tree α × σ) (List (InsertResult α))) : Prop where
  refused_iff : (∃ error last, outcome = .error error last ∧
      error.root.category = .allocation) ↔
    config.nodeCapacity < 1 + config.fanLimit * config.splitsAfter values.length
  grows : (¬∃ error last, outcome = .error error last ∧
      error.root.category = .allocation) →
    ∃ last after, outcome =
        .ok ((List.range values.length).map .inserted) (last, after) ∧
      last.Ascended config values

/-- What is known of a tree that these values were put into. -/
private structure Climbs (config : Config) (tree : Tree α) (shape : Shape α)
    (values : List α) (levels length : Nat) : Prop where
  standing : tree.Standing shape
  spine : Spine config levels length shape
  fills : config.Fills values.length levels length
  members : shape.entries.map Entry.value = values
  arrivals : tree.values.size = values.length
  setting : tree.arena.setting = (config.nodeCapacity, .ofNat levels)
  config : tree.config = config

section

variable {config : Config} {tree : Tree α} {shape : Shape α} {values : List α}
  {levels length : Nat} {answer : α → α → Ordering} {compare : Comparator σ α}
  {value : α}

namespace Climbs

variable (climbs : Climbs config tree shape values levels length)
include climbs

private theorem capacity : tree.arena.capacity = config.nodeCapacity :=
  congrArg Prod.fst climbs.setting

private theorem splits : tree.arena.stats.splits = .ofNat levels :=
  congrArg Prod.snd climbs.setting

private theorem liveCount_eq : tree.arena.liveCount = 1 + config.fanLimit * levels := by
  obtain ⟨_, kids, whole⟩ := climbs.standing.embodies
  rw [whole.liveCount_eq, climbs.spine.length_ids]

private theorem room : 1 + config.fanLimit * levels ≤ config.nodeCapacity := by
  obtain ⟨_, kids, whole⟩ := climbs.standing.embodies
  have bounded := whole.tidy.bounded
  rw [← climbs.liveCount_eq, ← climbs.capacity]
  unfold Arena.liveCount
  omega

private theorem ascended (valid : config.Valid) : tree.Ascended config values := by
  have upright := climbs.standing.upright
  have spine := climbs.spine
  have isLevels := climbs.fills.splitsAfter_eq valid.chunkSize_pos
  have isRoot : shape.id = tree.root := upright.embodies.1
  constructor
  · rw [inOrder_eq upright, climbs.members]
  · rw [climbs.splits, isLevels]
    apply UInt64.toNat_ofNat_of_lt'
    have := Config.one_lt_fanLimit valid.chunkSize_pos
    calc levels
      _ ≤ config.fanLimit * levels := Nat.le_mul_of_pos_left levels (by omega)
      _ < 1 + config.fanLimit * levels := by omega
      _ ≤ config.nodeCapacity := climbs.room
      _ ≤ largestCapacity := valid.nodeCapacity_le
      _ < UInt64.size := by decide
  · rw [depth_eq upright.embodies, spine.height_eq, isLevels]
  · refine ⟨shape.children.map Subtree.id, ?_, ?_⟩
    · rw [← isRoot]
      exact @Embodies.children_eq _ _ [] _ upright.embodies
    · simp only [List.length_map, spine.length_children, climbs.fills.lt_brim_iff]
  · obtain ⟨full, last, isChunks, number, whole, _⟩ := spine.chunks_eq
    refine ⟨full.map EntryList.mk, ⟨last⟩, ?_, ?_, List.forall_mem_map.mpr whole⟩
    · have lists : shape.tips.map (fun tip => (⟨tip.own⟩ : EntryList α)) =
          shape.chunks.map EntryList.mk := by
        rw [chunks, List.map_map]
        rfl
      rw [leafPayloads_eq upright, lists, isChunks, List.map_append]
      rfl
    · rw [List.length_map, number, isLevels]

end Climbs

private theorem last_of_greater {path : List (Frame α)} {leaf : NodeId}
    {children : List (Shape α)} {front back : List (Entry α)}
    (standing : tree.Standing shape) (steady : compare.Steady answer)
    (greater : ∀ entry ∈ shape.entries, answer value entry.value = .gt)
    (landed : Landed value compare false shape ⟨path, leaf, children, .before front back⟩) :
    back = [] ∧ ∀ frame ∈ path, frame.after = [] := by
  have gap := landed.exists_gap steady
  have none : back ++ rightOf path = [] := by
    rw [← List.head?_eq_none_iff, Option.eq_none_iff_forall_ne_some]
    intro entry first
    have member : entry ∈ shape.entries := by
      rw [gap.entries_eq]
      exact List.mem_append_right _ (List.mem_of_head? first)
    have less := (between_of_gap standing gap).2 entry first
    cases less.symm.trans (greater entry member)
  obtain ⟨rfl, _⟩ := List.append_eq_nil_iff.mp none
  rw [landed.gap] at standing
  exact ⟨rfl, fits_of_routed standing rfl (landed.routed answer steady)
    (landed.told answer steady).1 rfl⟩

section

variable {path : List (Frame α)} {leaf : NodeId} {front : List (Entry α)}
  (climbs : Climbs config tree (plug path (.node leaf (some ⟨front⟩) [])) values levels
    length)
  (positive : 0 < config.chunkSize) (single : ∀ frame ∈ path, frame.after = [])
include climbs positive single

private theorem Climbs.stored {arena : Arena (EntryList α)} {fresh : List NodeId}
    (supplied : tree.config.Supplied ⟨front ++ [⟨value, tree.values.size⟩]⟩ fresh)
    (kept : arena.setting = (tree.arena.capacity, tree.arena.stats.splits +
      if tree.config.Overfull ⟨front ++ [⟨value, tree.values.size⟩]⟩ then 1 else 0))
    (embodied : ({ tree with arena, values := tree.values.push value } :
      Tree α).Embodies (plug path (grown tree.config leaf
        ⟨front ++ [⟨value, tree.values.size⟩]⟩ fresh))) :
    ∃ final levels length,
      Climbs config { tree with arena, values := tree.values.push value } final
        (values ++ [value]) levels length := by
  obtain rfl := climbs.config
  obtain ⟨rest, fills, spine⟩ := climbs.spine.extend _ positive single climbs.fills supplied
  have right : rightOf path = [] := rightOf_eq_nil single
  have members := climbs.members
  rw [entries_plug, entries_leaf, right, List.append_nil] at members
  refine ⟨_, _, rest, ?_, spine, ?_, ?_, ?_, ?_, rfl⟩
  · exact climbs.standing.stored (List.append_nil front).symm (fun _ => single) supplied
      embodied
  · rw [List.length_append]
    exact fills
  · rw [entries_stored supplied, right, List.map_append, members]
    rfl
  · rw [ValueTable.size_push, climbs.arrivals, List.length_append]
    rfl
  · rw [kept, climbs.capacity, climbs.splits, UInt64.ofNat_add]
    split <;> rfl

/-- Without room for the last leaf there is none for the leaves that one split more
would have made. -/
private theorem Climbs.exhausted
    (none : ¬Edit.Room tree ⟨front ++ [⟨value, tree.values.size⟩]⟩) :
    config.nodeCapacity < 1 + config.fanLimit * config.splitsAfter (values.length + 1) := by
  obtain ⟨full, lacking⟩ := Classical.not_imp.mp none
  rw [climbs.config] at full lacking
  have brim := (climbs.spine.overfull_concat_iff _ positive single climbs.fills).mp full
  have longer := (climbs.spine.length_concat ⟨value, tree.values.size⟩ single).trans brim
  rw [Config.length_pieces_of_full positive longer, climbs.liveCount_eq,
    climbs.capacity] at lacking
  rw [(climbs.fills.split positive brim).splitsAfter_eq positive, Nat.mul_add_one]
  omega

end

variable (valid : config.Valid) (answers : compare.Answers answer)
include valid answers

private theorem Climbs.insert (climbs : Climbs config tree shape values levels length)
    (greater : ∀ member ∈ values, answer value member = .gt) (state : σ) :
    (∃ last after final levels length, insert value compare (tree, state) =
        .ok (.inserted values.length) (last, after) ∧
      Climbs config last final (values ++ [value]) levels length) ∨
    ∃ error last, insert value compare (tree, state) = .error error last ∧
      error.root.category = .allocation ∧
      config.nodeCapacity <
        1 + config.fanLimit * config.splitsAfter (values.length + 1) := by
  have standing := climbs.standing
  have upright := standing.upright
  have arrivals := climbs.arrivals
  have steady := answers.steady
  have greater : ∀ entry ∈ shape.entries, answer value entry.value = .gt := by
    intro entry member
    apply greater
    rw [← climbs.members]
    exact List.mem_map_of_mem member
  rcases (descend_meets upright value compare false).cases state with
    ⟨⟨path, leaf, children, stop⟩, after, descended, landed⟩ |
    ⟨error, after, stopped, raised⟩
  · cases stop with
    | equal front entry back =>
        have member := standing.mem_of_landed landed
        cases (greater entry member).symm.trans (landed.told answer steady).2
    | before front back =>
        obtain ⟨rfl, single⟩ := last_of_greater standing steady greater landed
        have whole := landed.gap
        rw [List.append_nil] at whole
        obtain rfl := whole
        by_cases room : Edit.Room tree ⟨front ++ [⟨value, tree.values.size⟩]⟩
        · left
          obtain ⟨fresh, arena, done, supplied, kept, embodied⟩ :=
            insert_room upright descended room
          obtain ⟨final, levels, length, climbs⟩ :=
            climbs.stored valid.chunkSize_pos single supplied kept embodied
          rw [arrivals] at done
          exact ⟨_, after, final, levels, length, done, climbs⟩
        · right
          obtain ⟨arena, error, refused, cause, _⟩ :=
            insert_refused upright descended room
          refine ⟨error, _, refused, ?_, climbs.exhausted valid.chunkSize_pos single room⟩
          rw [cause]
          rfl
  · exact absurd raised (answers.not_raises _ _)

private def GoesOn (config : Config) (values rest : List α) :
    EStateM.Result Error (Tree α × σ) (List (InsertResult α)) → Prop
  | .ok results (last, _) =>
      results = (List.range' values.length rest.length).map .inserted ∧
        ∃ final levels length, Climbs config last final (values ++ rest) levels length
  | .error error _ => error.root.category = .allocation ∧
      config.nodeCapacity <
        1 + config.fanLimit * config.splitsAfter (values.length + rest.length)

private theorem Climbs.goesOn [Std.TransCmp answer]
    (climbs : Climbs config tree shape values levels length) {rest : List α}
    (ascending : Ascending answer (values ++ rest)) (state : σ) :
    GoesOn config values rest
      (rest.mapM (fun value => Tree.insert value compare) (tree, state)) := by
  induction rest generalizing tree shape values levels length state with
  | nil =>
      refine ⟨rfl, shape, levels, length, ?_⟩
      rwa [List.append_nil]
  | cons value rest induction =>
      have greater : ∀ member ∈ values, answer value member = .gt := fun member early =>
        Std.OrientedCmp.gt_of_lt
          ((List.pairwise_append.mp ascending).2.2 member early value (by simp))
      have total : values.length + (value :: rest).length =
          (values ++ [value]).length + rest.length := by
        simp only [List.length_append, List.length_cons, List.length_nil]
        omega
      rw [List.append_cons] at ascending
      rw [List.mapM_cons, run_bind]
      rcases climbs.insert valid answers greater state with
        ⟨next, between, _, _, _, done, climbs⟩ | ⟨error, last, failed, cause, full⟩
      · have goesOn := induction climbs ascending between
        rw [done]
        simp only
        rw [run_bind]
        cases outcome : rest.mapM (fun value => Tree.insert value compare)
            (next, between) with
        | error error last =>
            rw [outcome] at goesOn
            exact ⟨goesOn.1, total ▸ goesOn.2⟩
        | ok results last =>
            rw [outcome] at goesOn
            obtain ⟨rfl, final, levels, length, climbs⟩ := goesOn
            refine ⟨?_, final, levels, length, ?_⟩
            · rw [List.length_append]
              rfl
            · rw [List.append_cons]
              exact climbs
      · rw [failed]
        refine ⟨cause, Nat.lt_of_lt_of_le full ?_⟩
        have sooner : values.length + 1 ≤ values.length + (value :: rest).length := by
          simp
        exact Nat.add_le_add_left
          (Nat.mul_le_mul_left _ (Config.splitsAfter_mono sooner)) 1

/-- Unless the nodes run out, ascending values make a tree whose leaves are all full
but the last one, and which is one level deeper than it has been split. -/
theorem ascending_inserts_grow_right [Std.TransCmp answer] :
    ∃ start : Tree α, withConfig config = .ok start ∧
      ∀ (values : List α) (state : σ), Ascending answer values →
        AscentOutcome config values
          (values.mapM (fun value => Tree.insert value compare) (start, state)) := by
  obtain ⟨start, created, stands, _, fresh, isConfig, setting⟩ :=
    @standing_withConfig α _ valid
  refine ⟨start, created, fun values state ascending => ?_⟩
  have climbs : Climbs config start (.node start.root (some {}) []) [] 0 0 := by
    refine ⟨stands, .leaf rfl, .empty, ?_, ?_, setting, isConfig⟩
    · rw [entries_leaf]
      rfl
    · rw [fresh]
      rfl
  have goesOn := climbs.goesOn valid answers ascending state
  generalize values.mapM (fun value => Tree.insert value compare) (start, state) =
    outcome at goesOn ⊢
  rcases outcome with ⟨results, last, after⟩ | ⟨error, last⟩
  · obtain ⟨rfl, final, levels, length, climbs⟩ := goesOn
    have room := climbs.room
    rw [← climbs.fills.splitsAfter_eq valid.chunkSize_pos] at room
    refine ⟨⟨nofun, fun full => ?_⟩, fun _ => ⟨last, after, ?_, climbs.ascended valid⟩⟩
    · exact absurd room (Nat.not_le_of_lt full)
    · rw [List.range_eq_range']
      rfl
  · obtain ⟨cause, full⟩ := goesOn
    rw [List.length_nil, Nat.zero_add] at full
    exact ⟨⟨fun _ => full, fun _ => ⟨error, last, rfl, cause⟩⟩,
      fun enough => absurd ⟨error, last, rfl, cause⟩ enough⟩

end

theorem ascending_inserts_grow_right_twice :
    ({ maxValues := 5, chunkSize := 2, nodeCapacity := 8 } : Config).Valid ∧
      (Comparator.answering (compare : Nat → Nat → Ordering)).Answers compare ∧
      ∃ start : Tree Nat,
        withConfig { maxValues := 5, chunkSize := 2, nodeCapacity := 8 } = .ok start ∧
        Ascending compare (List.range 10) ∧
        ∃ last, (List.range 10).mapM
            (fun value => Tree.insert value (.answering compare)) (start, ()) =
              .ok ((List.range 10).map .inserted) (last, ()) ∧
          last.Ascended { maxValues := 5, chunkSize := 2, nodeCapacity := 8 }
            (List.range 10) := by
  have valid : ({ maxValues := 5, chunkSize := 2, nodeCapacity := 8 } :
      Config).Valid := by
    constructor <;> decide
  have answers := Comparator.answers_answering (compare : Nat → Nat → Ordering)
  have ascending : Ascending (compare : Nat → Nat → Ordering) (List.range 10) := by
    unfold Ascending
    decide
  obtain ⟨start, created, grows⟩ := ascending_inserts_grow_right valid answers
  have outcome := grows (List.range 10) () ascending
  have enough := outcome.refused_iff.not.mpr (by decide)
  obtain ⟨last, _, done, ascended⟩ := outcome.grows enough
  exact ⟨valid, answers, start, created, ascending, last, done, ascended⟩

example : ({ maxValues := 4, chunkSize := 2 } : Config).splitsAfter 40 = 19 := by
  decide

end Tree

end LinkedBTree
