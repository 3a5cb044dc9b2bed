import LinkedBTree.Tree.Split
import LinkedBTree.Proofs.Arena.Batches
import LinkedBTree.Proofs.Arena.Running
import LinkedBTree.Proofs.Tree.Embodiment
import LinkedBTree.Proofs.Tree.Reshaping

namespace LinkedBTree

/-! Splitting a leaf keeps its entries, and ends on what it ended on. -/

variable {α : Type}

open Subtree

namespace Arena

variable {arena grown : Arena (EntryList α)}

def fillLeaves (pairs : List (NodeId × EntryList α)) (arena : Arena (EntryList α)) :
    Arena (EntryList α) :=
  pairs.foldl (fun arena pair =>
    arena.modify pair.1 ({ · with payload := some pair.2 })) arena

/-- Shares `lists` out among `leaves`; node `id` keeps what parts them. -/
def portioned (arena : Arena (EntryList α)) (id : NodeId) (leaves : List NodeId)
    (lists : List (EntryList α)) : Arena (EntryList α) :=
  (fillLeaves (leaves.zip lists)
    (arena.modify id ({ · with payload := some {} }))).modify id
      ({ · with payload := some (EntryList.separators lists) })

def spreadOver (arena : Arena (EntryList α)) (id : NodeId) (leaves : List NodeId)
    (lists : List (EntryList α)) : Arena (EntryList α) :=
  leaves.foldl (fun arena leaf => arena.attachLast id leaf)
    (arena.portioned id leaves lists)

private theorem carried?_fillLeaves {leaves : List NodeId}
    {lists : List (EntryList α)} (nodup : leaves.Nodup)
    (arena : Arena (EntryList α)) :
    (∀ id, id ∉ leaves →
      (fillLeaves (leaves.zip lists) arena).carried? id = arena.carried? id) ∧
    ∀ pair ∈ leaves.zip lists,
      (fillLeaves (leaves.zip lists) arena).carried? pair.1 =
        (arena.carried? pair.1).map fun _ => some pair.2 := by
  unfold fillLeaves
  induction leaves generalizing lists arena with
  | nil => simp
  | cons leaf rest induction =>
      cases lists with
      | nil => simp
      | cons list lists =>
          rw [List.nodup_cons] at nodup
          rw [List.zip_cons_cons, List.foldl_cons]
          obtain ⟨outside, inside⟩ := @induction lists nodup.2
            (arena.modify leaf ({ · with payload := some list }))
          constructor
          · intro id absent
            rw [List.mem_cons, not_or] at absent
            rw [outside id absent.2, carried?_modify]
            simp [absent.1]
          · intro pair member
            rcases List.mem_cons.mp member with rfl | later
            · rw [outside leaf nodup.1, carried?_modify]
              simp
            · have different : pair.1 ≠ leaf := by
                intro same
                exact nodup.1 (same ▸ (List.of_mem_zip later).1)
              rw [inside pair later, carried?_modify]
              simp [different]

private structure Loose (kids : NodeId → List NodeId) (leaves : List NodeId)
    (arena : Arena (EntryList α)) : Prop where
  forest : arena.Forest kids
  tidy : arena.Tidy
  top : ∀ leaf ∈ leaves, (arena.node? leaf).map Node.parent = some none

private theorem Loose.modify {kids : NodeId → List NodeId}
    {leaves : List NodeId} (loose : Loose kids leaves arena) (id : NodeId)
    (list : EntryList α) :
    Loose kids leaves (arena.modify id ({ · with payload := some list })) where
  forest := loose.forest.modify_payload id fun _ => some list
  tidy := loose.tidy.modify id _
  top := by
    intro leaf member
    rw [← loose.top leaf member, node?_modify, Option.map_map]
    congr 1
    funext node
    by_cases same : leaf = id <;> simp [same]

private theorem Loose.portioned {kids : NodeId → List NodeId} {leaves : List NodeId}
    (loose : Loose kids leaves arena) (id : NodeId) (lists : List (EntryList α)) :
    Loose kids leaves (arena.portioned id leaves lists) := by
  have fill : ∀ (pairs : List (NodeId × EntryList α)) (arena : Arena (EntryList α)),
      Loose kids leaves arena → Loose kids leaves (fillLeaves pairs arena) := by
    intro pairs
    induction pairs with
    | nil => exact fun _ loose => loose
    | cons pair rest induction =>
        exact fun arena loose => induction _ (loose.modify pair.1 pair.2)
  exact (fill _ _ (loose.modify id {})).modify id _

private theorem foldl_attachLast_keeps (parent : NodeId) (children : List NodeId)
    (arena : Arena (EntryList α)) :
    (∀ id, (children.foldl (fun arena child => arena.attachLast parent child)
      arena).carried? id = arena.carried? id) ∧
    (arena.Tidy → (children.foldl
      (fun arena child => arena.attachLast parent child) arena).Tidy) := by
  induction children generalizing arena with
  | nil => exact ⟨fun _ => rfl, id⟩
  | cons child rest induction =>
      obtain ⟨same, tidy⟩ := induction (arena.attachLast parent child)
      rw [List.foldl_cons]
      constructor
      · intro id
        rw [same, carried?_attachLast]
      · exact fun wasTidy => tidy (wasTidy.attachLast parent child)

section

variable {β : Type} {read : Arena (EntryList α) → β} (unmoved : Unmoved read)
  (arena : Arena (EntryList α)) (id : NodeId) (leaves : List NodeId)
  (lists : List (EntryList α))
include unmoved

theorem Unmoved.portioned : read (arena.portioned id leaves lists) = read arena := by
  unfold Arena.portioned fillLeaves
  rw [unmoved]
  exact (foldl_keeps (fun arena (pair : NodeId × EntryList α) => unmoved arena pair.1 _)
    ..).trans (unmoved ..)

theorem Unmoved.spreadOver : read (arena.spreadOver id leaves lists) = read arena := by
  unfold Arena.spreadOver
  rw [foldl_keeps fun arena leaf => unmoved.attachLast arena id leaf, unmoved.portioned]

end

section

variable {kids : NodeId → List NodeId} {id : NodeId} {leaves : List NodeId}
  {lists : List (EntryList α)} {after : Arena (EntryList α)}

/-- What the leaf `id` carried is spread over fresh leaves below it. -/
structure Spread (arena after : Arena (EntryList α)) (kids : NodeId → List NodeId)
    (id : NodeId) (leaves : List NodeId) (lists : List (EntryList α)) : Prop where
  same : leaves.length = lists.length
  nodup : leaves.Nodup
  dead : ∀ leaf ∈ leaves, arena.node? leaf = none
  was : arena.Forest kids
  live : ∃ node, arena.node? id = some node
  childless : kids id = []
  forest : after.Forest (Function.update kids id leaves)
  tidy : after.Tidy
  branch : after.carried? id = some (some (EntryList.separators lists))
  leaf : ∀ pair ∈ leaves.zip lists, after.carried? pair.1 = some (some pair.2)
  others : ∀ other, other ≠ id → other ∉ leaves →
    after.carried? other = arena.carried? other

namespace Sprouted

variable {node : Node (EntryList α)} (sprouted : Sprouted arena grown leaves)
  (found : arena.node? id = some node)

include sprouted found in
private theorem carried : id ∉ leaves ∧ grown.carried? id = some node.payload := by
  have notLeaf : id ∉ leaves := by
    intro member
    cases found.symm.trans (sprouted.dead id member)
  refine ⟨notLeaf, ?_⟩
  rw [carried?, sprouted.lookup, if_neg notLeaf, found]
  rfl

variable (forest : arena.Forest kids) (tidy : arena.Tidy)
include sprouted forest tidy

private theorem loose (id : NodeId) (lists : List (EntryList α)) :
    Loose kids leaves (grown.portioned id leaves lists) :=
  Loose.portioned ⟨sprouted.forest kids forest, sprouted.tidy tidy, fun leaf member => by
    rw [sprouted.lookup, if_pos member]
    rfl⟩ id lists

include found

theorem pending (lists : List (EntryList α)) :
    Forest.Pending (grown.portioned id leaves lists) kids id leaves where
  forest := (sprouted.loose forest tidy id lists).forest
  live := ((unmoved_contains id).portioned ..).trans
    (contains_of_carried? (sprouted.carried found).2)
  nodup := List.nodup_cons.mpr ⟨(sprouted.carried found).1, sprouted.nodup⟩
  ready := fun leaf member => ⟨(sprouted.loose forest tidy id lists).top leaf member,
    forest.none_of_dead (sprouted.dead leaf member)⟩

theorem spread (childless : kids id = []) (same : leaves.length = lists.length) :
    arena.Spread (grown.spreadOver id leaves lists) kids id leaves lists := by
  obtain ⟨notLeaf, carried⟩ := sprouted.carried found
  have attached := (sprouted.pending found forest tidy lists).attachAll
  rw [childless, List.nil_append] at attached
  obtain ⟨outside, inside⟩ := @carried?_fillLeaves _ leaves lists sprouted.nodup
    (grown.modify id ({ · with payload := some {} }))
  refine ⟨same, sprouted.nodup, sprouted.dead, forest, ⟨node, found⟩, childless, attached,
    (foldl_attachLast_keeps id leaves _).2 (sprouted.loose forest tidy id lists).tidy, ?_,
    fun pair isPair => ?_, fun other different isOther => ?_⟩
  all_goals
    unfold spreadOver portioned
    simp only [(foldl_attachLast_keeps id leaves _).1]
  · rw [carried?_modify, outside id notLeaf, carried?_modify, carried]
    simp
  · have isLeaf := (List.of_mem_zip isPair).1
    have different : pair.1 ≠ id := by
      intro same
      exact notLeaf (same ▸ isLeaf)
    rw [carried?_modify, inside pair isPair, carried?_modify, carried?, sprouted.lookup,
      if_pos isLeaf]
    simp [different]
  · have unchanged : grown.carried? other = arena.carried? other := by
      rw [carried?, sprouted.lookup, if_neg isOther, carried?]
    rw [carried?_modify, outside other isOther, carried?_modify, unchanged]
    simp [different]

end Sprouted

namespace Spread

variable (spread : arena.Spread after kids id leaves lists)
include spread

theorem count (counter : Counter) :
    arena.Spread (after.count counter) kids id leaves lists :=
  { spread with
    forest := spread.forest.congr fun _ => rfl
    tidy := spread.tidy.count counter }

theorem not_mem_of_carried {other : NodeId} {payload : Option (EntryList α)}
    (carried : arena.carried? other = some payload) : other ∉ leaves := by
  intro member
  rw [carried?, spread.dead other member] at carried
  cases carried

theorem not_mem : id ∉ leaves := by
  obtain ⟨node, found⟩ := spread.live
  exact spread.not_mem_of_carried (carried?_of_node? found)

theorem holds : after.Holds (Function.update kids id leaves)
    (Subtree.spread id leaves lists) := by
  refine holds_node.mpr ⟨spread.branch, ?_, fun child member => ?_⟩
  · rw [Function.update_self, map_id_leavesOf spread.same]
  · obtain ⟨⟨leaf, list⟩, isPair, rfl⟩ := List.mem_map.mp member
    have isLeaf := (List.of_mem_zip isPair).1
    have different : leaf ≠ id := by
      rintro rfl
      exact spread.not_mem isLeaf
    refine holds_node.mpr ⟨spread.leaf _ isPair, ?_, by simp⟩
    rw [Function.update_of_ne different,
      spread.was.none_of_dead (spread.dead leaf isLeaf)]
    rfl

end Spread

/-- A leaf that spreads its list over fresh leaves becomes the branch over
them. -/
theorem Whole.spread {path : List (Frame α)} {payload : Option (EntryList α)}
    (whole : arena.Whole kids (plug path (.node id payload [])))
    (spread : arena.Spread after kids id leaves lists) :
    after.Whole (Function.update kids id leaves)
      (plug path (Subtree.spread id leaves lists)) := by
  have ids : (Subtree.spread id leaves lists).ids = id :: leaves := by
    rw [Subtree.spread, ids_node, flatMap_ids_leavesOf spread.same]
  refine whole.exchange spread.forest spread.tidy spread.holds rfl ?_ ?_ ?_
  · intro other
    rw [Function.update_apply]
    split
    · obtain ⟨node, found⟩ := whole.held.live (id_mem_ids _)
      exact spread.not_mem_of_carried (carried?_of_node? found)
    · exact whole.root_not_mem other
  · intro other payload carried notId
    have different : other ≠ id := by simpa using notId
    rw [spread.others other different (spread.not_mem_of_carried carried)]
    exact ⟨carried, Function.update_of_ne different ..⟩
  · intro other payload carried notNew
    rw [ids, List.mem_cons, not_or] at notNew
    rw [spread.others other notNew.1 notNew.2] at carried
    exact ⟨⟨payload, carried⟩, by simpa using notNew.1⟩

end

end Arena

namespace Edit

section

variable {arena grown : Arena (EntryList α)} {kids : NodeId → List NodeId} {id : NodeId}
  {leaves : List NodeId} {list : EntryList α} {size : Nat} (positive : 0 < size)
include positive

/-- The chunks that come off one after the other are the pieces of the list. -/
theorem run_portion {rest : EntryList α}
    (length : leaves.length = (rest.pieces size).length)
    (live : ∀ leaf ∈ leaves, arena.contains leaf = true) (separators : EntryList α) :
    portion size leaves rest separators arena =
      .ok ⟨separators.entries ++ (EntryList.separators (rest.pieces size)).entries⟩
        (arena.fillLeaves (leaves.zip (rest.pieces size))) := by
  induction leaves generalizing rest arena separators with
  | nil =>
      have none : rest.pieces size = [] := List.eq_nil_of_length_eq_zero length.symm
      rw [none, EntryList.separators, List.dropLast_nil, List.filterMap_nil, List.append_nil]
      rfl
  | cons leaf leaves induction =>
      have nonempty : rest.entries ≠ [] := by
        intro none
        rw [EntryList.pieces, none, EntryList.cut_nil] at length
        cases length
      have isCons := EntryList.pieces_eq_cons positive nonempty
      have parted : rest.splitAt (min size rest.length) =
          .ok (⟨rest.entries.take size⟩, ⟨rest.entries.drop size⟩) :=
        EntryList.splitAt_min ..
      rw [isCons, List.length_cons, List.length_cons, Nat.succ_inj] at length
      obtain ⟨node, found⟩ := Arena.contains_iff.mp (live leaf List.mem_cons_self)
      unfold portion
      rw [run_lift_bind parted]
      dsimp only
      have stillLive : ∀ other ∈ leaves, (arena.modify leaf
          ({ · with payload := some ⟨rest.entries.take size⟩ })).contains other = true :=
        fun other member =>
          (Arena.contains_modify ..).trans (live other (List.mem_cons_of_mem _ member))
      rw [run_bind_of_ok (Arena.run_setPayload found _), induction length stillLive, isCons,
        List.zip_cons_cons]
      have chunk : (⟨rest.entries.take size⟩ : EntryList α).last? ≠ none := by
        rw [EntryList.last?, ne_eq, List.getLast?_eq_none_iff, List.take_eq_nil_iff, not_or]
        exact ⟨Nat.ne_of_gt positive, nonempty⟩
      obtain ⟨last, isLast⟩ := Option.ne_none_iff_exists'.mp chunk
      refine congrArg (EStateM.Result.ok · _) (congrArg EntryList.mk ?_)
      rw [isLast]
      cases leaves with
      | nil =>
          rw [List.eq_nil_of_length_eq_zero length.symm]
          rfl
      | cons _ _ =>
          rw [EntryList.separators_cons (List.ne_nil_of_length_eq_add_one length.symm), isLast]
          simp [EntryList.push]

theorem run_spread {node : Node (EntryList α)} (sprouted : Arena.Sprouted arena grown leaves)
    (forest : arena.Forest kids) (tidy : arena.Tidy) (found : arena.node? id = some node)
    (length : leaves.length = (list.pieces size).length) :
    spread id size leaves list grown =
      .ok () ((grown.spreadOver id leaves (list.pieces size)).count .splits) := by
  have live : ∀ leaf ∈ leaves,
      (grown.modify id ({ · with payload := some {} })).contains leaf = true := by
    intro leaf member
    rw [Arena.contains_modify, Arena.contains, sprouted.lookup, if_pos member]
    rfl
  have linked := (sprouted.pending found forest tidy (list.pieces size)).run_linkChildren
  unfold spread
  rw [run_bind_of_ok (Arena.run_alter ..), run_bind_of_ok (run_portion positive length live {}),
    run_bind_of_ok (Arena.run_alter ..), run_bind, run_within]
  unfold Arena.portioned at linked
  rw [List.nil_append, linked]
  rfl

end

variable {tree : Tree α} {path : List (Frame α)} {id : NodeId}
  {list : EntryList α}

theorem run_split {kids : NodeId → List NodeId} {node : Node (EntryList α)}
    (forest : tree.arena.Forest kids) (tidy : tree.arena.Tidy)
    (found : tree.arena.node? id = some node) (childless : kids id = [])
    (carried : node.payload = some list) :
    split id tree =
      if (list.pieces tree.config.chunkSize).length < 2 then .ok false tree
      else match Arena.allocateMany (list.pieces tree.config.chunkSize).length []
          tree.arena with
        | .ok leaves arena => .ok true { tree with
            arena := (arena.spreadOver id leaves
              (list.pieces tree.config.chunkSize)).count .splits }
        | .error error arena =>
            .error (.context s!"unable to split {id}" error)
              { tree with arena } := by
  unfold split
  rw [run_get_bind, run_lift_bind (Arena.read_eq found)]
  simp only [(forest.isLeaf_iff found).mpr childless, Bool.not_true, Bool.false_eq_true,
    if_false]
  rw [run_lift_bind (Tree.listOf_eq carried)]
  by_cases few : (list.pieces tree.config.chunkSize).length < 2
  · rw [if_pos few, if_pos ((list.chunks_lt_two_iff _).mpr few)]
    rfl
  · have positive : 0 < tree.config.chunkSize := by
      refine Nat.pos_of_ne_zero fun none => few ?_
      rw [none]
      exact list.length_pieces_zero_lt
    rw [if_neg few, if_neg ((list.chunks_lt_two_iff _).not.mpr few),
      ← Nat.ceilDiv_eq_add_pred_div, ← EntryList.length_pieces positive, run_bind, run_within]
    cases done : Arena.allocateMany (list.pieces tree.config.chunkSize).length []
        tree.arena with
    | error error arena => rw [inArena_error done]
    | ok leaves grown =>
        obtain ⟨_, rfl, length, sprouted⟩ := Arena.allocateMany_ok done
        rw [inArena_eq done]
        dsimp only
        rw [run_bind_of_ok (inArena_eq (run_spread positive sprouted forest tidy found length))]
        rfl

theorem split_few
    (embodies : tree.Embodies (plug path (.node id (some list) [])))
    (few : (list.pieces tree.config.chunkSize).length < 2) :
    split id tree = .ok false tree := by
  obtain ⟨kids, whole⟩ := embodies.2
  obtain ⟨node, found, carried, below, _⟩ := whole.node_of_part
  exact (run_split whole.forest whole.tidy found below carried).trans (if_pos few)

theorem split_spreads {kids : NodeId → List NodeId} {node : Node (EntryList α)}
    (forest : tree.arena.Forest kids) (tidy : tree.arena.Tidy)
    (found : tree.arena.node? id = some node) (childless : kids id = [])
    (carried : node.payload = some list)
    (several : 2 ≤ (list.pieces tree.config.chunkSize).length)
    (room : tree.arena.liveCount + (list.pieces tree.config.chunkSize).length ≤
      tree.arena.capacity) :
    ∃ fresh arena, split id tree = .ok true { tree with arena } ∧
      tree.arena.Spread arena kids id fresh (list.pieces tree.config.chunkSize) ∧
      arena.capacity = tree.arena.capacity ∧
      arena.stats = (tree.arena.stats.add .allocated
        (.ofNat (list.pieces tree.config.chunkSize).length)).add .splits 1 := by
  rw [run_split forest tidy found childless carried, if_neg (by omega)]
  obtain ⟨leaves, grown, sprouts⟩ := tidy.allocateMany_eq_ok room []
  obtain ⟨_, rfl, length, sprouted⟩ := Arena.allocateMany_ok sprouts
  have kept := (Arena.stable_setting tree.arena).allocateMany
    (list.pieces tree.config.chunkSize).length [] tree.arena rfl
  rw [sprouts, reached_ok] at kept
  simp only [sprouts]
  refine ⟨leaves, _, rfl,
    (sprouted.spread found forest tidy childless length).count .splits, ?_, ?_⟩
  · exact (Arena.Unmoved.spreadOver (fun _ _ _ => rfl) ..).trans
      (Arena.capacity_of_setting kept)
  · rw [← Arena.stats_allocateMany sprouts]
    exact congrArg (Stats.add · .splits 1) (Arena.Unmoved.spreadOver (fun _ _ _ => rfl) ..)

theorem split_several
    (embodies : tree.Embodies (plug path (.node id (some list) [])))
    (several : 2 ≤ (list.pieces tree.config.chunkSize).length)
    (room : tree.arena.liveCount + (list.pieces tree.config.chunkSize).length ≤
      tree.arena.capacity) :
    ∃ fresh arena, split id tree = .ok true { tree with arena } ∧
      fresh.length = (list.pieces tree.config.chunkSize).length ∧
      arena.setting =
        (tree.arena.capacity, tree.arena.stats.splits + 1) ∧
      ({ tree with arena } : Tree α).Embodies (plug path
        (Subtree.spread id fresh (list.pieces tree.config.chunkSize))) := by
  obtain ⟨kids, whole⟩ := embodies.2
  obtain ⟨node, found, carried, below, _⟩ := whole.node_of_part
  obtain ⟨fresh, arena, done, spread, capacity, stats⟩ :=
    split_spreads whole.forest whole.tidy found below carried several room
  refine ⟨fresh, arena, done, spread.same, ?_,
    embodies.exchange rfl (whole.spread spread)⟩
  exact Prod.ext capacity (congrArg Stats.splits stats)

theorem split_refused
    (embodies : tree.Embodies (plug path (.node id (some list) [])))
    (several : 2 ≤ (list.pieces tree.config.chunkSize).length)
    (full : tree.arena.capacity < tree.arena.liveCount +
      (list.pieces tree.config.chunkSize).length) :
    ∃ arena, split id tree = .error (.context s!"unable to split {id}"
        (.cause (.arenaExhausted tree.arena.capacity))) { tree with arena } ∧
      tree.arena.Unwound arena ∧
      ({ tree with arena } : Tree α).Embodies
        (plug path (.node id (some list) [])) := by
  obtain ⟨kids, whole⟩ := embodies.2
  obtain ⟨node, found, carried, below, _⟩ := whole.node_of_part
  obtain ⟨arena, failed⟩ := whole.tidy.allocateMany_eq_error full (.nil tree.arena)
  obtain ⟨same, tidy, _⟩ := Arena.allocateMany_error whole.tidy (.nil tree.arena) failed
  refine ⟨arena, ?_, whole.tidy.unwound failed, embodies.1, kids,
    whole.congr (fun other => ?_) tidy⟩
  · refine (run_split whole.forest whole.tidy found below carried).trans ?_
    rw [if_neg (by omega)]
    simp only [failed, id_node]
  · rw [same, if_neg List.not_mem_nil]

end Edit

end LinkedBTree
