import LinkedBTree.Proofs.Ledger
import LinkedBTree.Proofs.Tree.Dropping
import LinkedBTree.Proofs.Tree.Reachable

namespace LinkedBTree

/-! Removing a value changes the leaf it stood in and what hangs together with
that, and nothing else. -/

variable {α σ : Type}

open Subtree

namespace Tree

section

variable (tree last : Tree α) (leaf : NodeId) (index : Nat)

/-- The leaf goes on without the entry between `front` and `back`. What copied it
copies the entry that the leaf ends on now. -/
structure Shortened (front back : List (Entry α)) : Prop where
  stays : front ++ back ≠ [] ∨ leaf = tree.root
  own : last.arena.node? leaf = (tree.arena.node? leaf).map fun node =>
    { node with payload := some ⟨front ++ back⟩ }
  others : ∀ id, id ≠ leaf → last.arena.node? id =
    (tree.arena.node? id).map fun node => { node with
      payload := node.payload.map
        (EntryList.refresh index (if back = [] then front.getLast? else none)) }

variable (parent : NodeId) (list : EntryList α) (before after : List NodeId)

/-- The leaf is gone from its place under `parent`, whose separators were those of
`list`. -/
structure Dropped : Prop where
  separators : tree.list parent = .ok list
  children : tree.arena.children parent = .ok (before ++ leaf :: after)
  gone : last.arena.node? leaf = none
  /-- A leaf that is not the last one is bounded by the copy of its entry. -/
  bounded : after ≠ [] → list.index? before.length = some index
  /-- Where the last leaf goes, there is no copy in the branch, which now ends on
  what its last separator copies. -/
  ends : after = [] → index ∉ list.indexes ∧ ∃ edge entries,
    last.edgeLeaf .left parent = .ok edge ∧ last.list edge = .ok entries ∧
      entries.last? = list.last?

structure Unlinked : Prop where
  several : 2 ≤ (before ++ after).length
  children : last.arena.children parent = .ok (before ++ after)
  branch : last.arena.node? parent = (tree.arena.node? parent).map fun node =>
    { node with
      payload := some ⟨list.entries.eraseIdx
        (if after = [] then before.length - 1 else before.length)⟩
      firstChild := (before ++ after).head?
      lastChild := (before ++ after).getLast?
      childCount := (before ++ after).length }
  others : ∀ id, id ≠ leaf → id ≠ parent → last.arena.node? id =
    (tree.arena.node? id).map fun node => { node with
      payload := node.payload.map
        (EntryList.refresh index (if after = [] then list.last? else none))
      previous := if after.head? = some id then before.getLast? else node.previous
      next := if before.getLast? = some id then after.head? else node.next }

/-- The branch has lost its one separator, and taken the place of the child that was
left, which is gone too. -/
structure Absorbed (only : NodeId) (child : Node (EntryList α))
    (grandchildren : List NodeId) : Prop where
  single : before ++ after = [only]
  absorbed : tree.arena.node? only = some child
  gone : last.arena.node? only = none
  children : tree.arena.children only = .ok grandchildren ∧
    last.arena.children parent = .ok grandchildren
  branch : last.arena.node? parent = (tree.arena.node? parent).map fun node =>
    { node with
      payload := child.payload
      firstChild := child.firstChild
      lastChild := child.lastChild
      childCount := child.childCount }
  others : ∀ id, id ≠ leaf → id ≠ parent → id ≠ only → last.arena.node? id =
    (tree.arena.node? id).map fun node => { node with
      payload := node.payload.map
        (EntryList.refresh index (if after = [] then list.last? else none))
      parent := if id ∈ grandchildren then some parent else node.parent }

/-- What became of the leaf and of the nodes around it. -/
inductive Settled : List NodeId → List (Entry α) → List (Entry α) → Prop
  | shortened {ancestors front back} :
      Shortened tree last leaf index front back → Settled ancestors front back
  | unlinked {parent above list before after} :
      Dropped tree last leaf index parent list before after →
      Unlinked tree last leaf index parent list before after →
      Settled (parent :: above) [] []
  | absorbed {parent above list before after only child grandchildren} :
      Dropped tree last leaf index parent list before after →
      Absorbed tree last leaf index parent list before after only child grandchildren →
      Settled (parent :: above) [] []

end

/-- `old` is gone, and nothing has changed but what hangs together with that. -/
structure Withdrawn (tree last : Tree α) (index : Nat) (old : α) : Prop where
  held : tree.valueAt index = .ok (some old)
  values : last.values = (tree.values.put index none)
  same : last = { tree with arena := last.arena, values := last.values }
  absent : ∀ id list, last.list id = .ok list → index ∉ list.indexes
  single : ∃ separators, tree.separators = .ok separators ∧
    separators.countP (·.index = index) ≤ 1
  settled : ∃ leaf ancestors front back,
    tree.arena.children leaf = .ok [] ∧
    tree.list leaf = .ok ⟨front ++ ⟨old, index⟩ :: back⟩ ∧
    tree.arena.Lineage leaf ancestors ∧
    (∀ id list, tree.list id = .ok list → index ∈ list.indexes →
      id = leaf ∨ id ∈ ancestors) ∧
    Settled tree last leaf index ancestors front back

section

variable {tree last : Tree α} {shape : Shape α} {value old : α}
  {compare : Comparator σ α} {state after : σ}

theorem Embodies.exists_twig {id : NodeId} {list : EntryList α}
    (embodies : tree.Embodies shape) (isList : tree.list id = .ok list) :
    ∃ twig ∈ shape.twigs, twig.id = id ∧ twig.payload = some list := by
  obtain ⟨_, kids, whole⟩ := embodies
  have isList := list_eq_ok.mp isList
  obtain ⟨node, found, _⟩ := Arena.carried?_eq_some.mp isList
  obtain ⟨twig, isTwig, rfl⟩ := List.mem_map.mp (whole.covered id node found)
  exact ⟨twig, isTwig, rfl, Option.some.inj ((whole.held twig isTwig).1.symm.trans isList)⟩

theorem Standing.mem_of_list {id : NodeId} {list : EntryList α} {entry : Entry α}
    (standing : tree.Standing shape) (isList : tree.list id = .ok list)
    (member : entry ∈ list.entries) : entry ∈ shape.entries := by
  obtain ⟨twig, isTwig, rfl, _⟩ := standing.embodies.exists_twig isList
  obtain ⟨path, other, children, rfl⟩ :=
    standing.upright.exists_node (List.mem_map_of_mem isTwig)
  obtain rfl := Except.ok.inj (isList.symm.trans standing.embodies.list_eq)
  exact standing.mem_entries member

section

variable {path : List (Frame α)} {leaf : NodeId} {front back : List (Entry α)}
  {entry : Entry α}

private theorem above_of_listed {id : NodeId} {list : EntryList α}
    (standing : tree.Standing (plug path (.node leaf (some ⟨front ++ entry :: back⟩) [])))
    (isList : tree.list id = .ok list) (listed : entry.index ∈ list.indexes) :
    id = leaf ∨ id ∈ path.map Frame.id := by
  have sound := standing.sound_of_filled (by simp)
  obtain ⟨twig, isTwig, rfl, payload⟩ := standing.embodies.exists_twig isList
  obtain ⟨other, member, same⟩ := List.mem_map.mp listed
  rcases mem_twigs_plug.mp isTwig with within | around
  · rw [twigs_node, List.flatMap_nil, List.map_nil, List.mem_singleton] at within
    exact .inl (congrArg Twig.id within)
  · exact .inr (sound.mem_path_of_around standing.mirrors.distinct (by simp) around payload
      member same)

private theorem shortened
    (standing : tree.Standing (plug path (.node leaf (some ⟨front ++ entry :: back⟩) [])))
    (stays : path = [] ∨ front ++ back ≠ [])
    (embodied : last.Embodies (erased path leaf front entry back)) :
    Shortened tree last leaf entry.index front back := by
  have sound := standing.sound_of_filled (by simp)
  have distinct := standing.mirrors.distinct
  have apart := distinct.of_plug
  rw [entries_leaf] at apart
  have idle : EntryList.refresh entry.index (if back = [] then front.getLast? else none)
      ⟨front ++ back⟩ = ⟨front ++ back⟩ :=
    EntryList.refresh_of_absent (ValueTable.Mirrors.middle_iff.mp apart).2
  rw [erased_shortened stays, ← sound.recast_path distinct (by simp), ← idle] at embodied
  have embodied : last.Embodies ((plug path (.node leaf (some ⟨front ++ back⟩) [])).recast
      (EntryList.refresh entry.index (if back = [] then front.getLast? else none))) := by
    rw [recast_plug, recast_node]
    exact embodied
  obtain ⟨isRoot, kids, whole⟩ := standing.embodies
  obtain ⟨_, others, again⟩ := embodied
  have changed := @Arena.Whole.node?_map _ _ _ _ _ _ _
    (fun id payload => if id = leaf then some ⟨front ++ back⟩ else payload.map
      (EntryList.refresh entry.index (if back = [] then front.getLast? else none)))
    whole again ?_ ?_
  · refine ⟨?_, ?_, fun id different => ?_⟩
    · refine stays.symm.imp_right ?_
      rintro rfl
      exact isRoot
    · rw [changed]
      simp only [if_true]
    · rw [changed]
      simp only [different, if_false]
  · intro twig isTwig
    rw [twigs_recast]
    rcases mem_twigs_plug.mp isTwig with within | around
    · rw [twigs_node, List.flatMap_nil, List.map_nil, List.mem_singleton] at within
      subst within
      have isTwig : ⟨leaf, some ⟨front ++ back⟩, []⟩ ∈
          (plug path (.node leaf (some ⟨front ++ back⟩) [])).twigs :=
        mem_twigs_plug.mpr (.inl (by simp))
      refine List.mem_map.mpr ⟨_, isTwig, ?_⟩
      simp only [Option.map_some, idle, if_true]
    · have different := disjoint_around whole.nodup around
      rw [ids_node, List.flatMap_nil, List.mem_singleton] at different
      rw [if_neg different]
      exact List.mem_map_of_mem (mem_twigs_plug.mpr (.inr around))
  · intro id member
    rw [ids_recast, mem_ids_plug] at member
    rw [mem_ids_plug]
    simpa using member

variable {frame : Frame α} {outer : List (Frame α)}

private theorem dropped
    (standing : tree.Standing (plug (frame :: outer) (.node leaf (some ⟨[entry]⟩) [])))
    (embodied : last.Embodies (Subtree.dropped entry.index frame outer)) :
    ∃ kids others,
      Arena.Whole.Dropping tree.arena last.arena kids others outer frame leaf (some ⟨[entry]⟩)
        (EntryList.refresh entry.index frame.newLast) ∧
      Dropped tree last leaf entry.index frame.id frame.list
        (frame.before.map Subtree.id) (frame.after.map Subtree.id) := by
  have sound : Sound (plug outer (frame.close (.node leaf (some ⟨[entry]⟩) []))) :=
    standing.sound_of_filled (by simp)
  have distinct : Distinct
      (plug outer (frame.close (.node leaf (some ⟨[entry]⟩) []))).entries :=
    standing.mirrors.distinct
  have whole := sound.of_plug
  have apart := distinct.of_plug
  have member : entry ∈ (Subtree.node leaf (some (⟨[entry]⟩ : EntryList α)) []).entries := by
    simp
  have idle : frame.rejoined.recast (EntryList.refresh entry.index frame.newLast) =
      frame.rejoined := whole.rejoined_recast apart member
  have closed : tree.Embodies (plug outer (frame.close (.node leaf (some ⟨[entry]⟩) []))) :=
    standing.embodies
  rw [dropped_eq_recast sound distinct member] at embodied
  have stays := embodied
  rw [recast_plug, idle] at stays
  obtain ⟨_, kids, holds⟩ := id closed
  obtain ⟨_, others, again⟩ := embodied
  have dropping : Arena.Whole.Dropping tree.arena last.arena kids others outer frame leaf
      (some ⟨[entry]⟩) (EntryList.refresh entry.index frame.newLast) := ⟨holds, again, idle⟩
  refine ⟨kids, others, dropping, closed.list_eq, ?_, (dropping.dead (.inl rfl)).1, ?_, ?_⟩
  · have isChildren := closed.children_eq
    rw [Frame.close, id_node, children_node, List.map_append, List.map_cons,
      id_node] at isChildren
    exact isChildren
  · intro inner
    have isSeparator := whole.separators_eq.2 (by simpa using inner)
    rw [ending?_leaf] at isSeparator
    unfold EntryList.index? EntryList.entry?
    rw [List.length_map, isSeparator]
    rfl
  · intro isLast
    have isLast : frame.after = [] := by simpa using isLast
    have joins : Sound frame.rejoined := whole.join_remaining
    obtain ⟨edge, list, reached, isList, ends⟩ := edgeLeaf_eq .left joins.formed stays
    refine ⟨?_, edge, list, ?_, isList, ?_⟩
    · intro listed
      obtain ⟨other, isSeparator, same⟩ := List.mem_map.mp listed
      exact (whole.absent_separators apart member).1 isLast other isSeparator same
    · rw [← reached]
      exact congrArg _ id_joined.symm
    · unfold EntryList.last?
      rw [← whole.ending?_remaining isLast]
      exact ends.trans joins.last_eq.symm

private theorem newLast_eq : frame.newLast =
    if frame.after.map Subtree.id = [] then frame.list.last? else none := by
  simp only [Frame.newLast, List.map_eq_nil_iff]
  rfl

section

variable {kids others : NodeId → List NodeId}
  (dropping : Arena.Whole.Dropping tree.arena last.arena kids others outer frame leaf
    (some ⟨[entry]⟩) (EntryList.refresh entry.index frame.newLast))
include dropping

private theorem unlinked (several : 2 ≤ (frame.before ++ frame.after).length) :
    Unlinked tree last leaf entry.index frame.id frame.list
      (frame.before.map Subtree.id) (frame.after.map Subtree.id) := by
  have isBranch := dropping.node?_branch
  have areChildren := dropping.children_branch
  rw [Frame.rejoined_of_several several, children_node, List.map_append]
    at isBranch areChildren
  refine ⟨by simpa using several, areChildren, ?_, fun id notLeaf notParent => ?_⟩
  · rw [isBranch]
    simp only [payload_node, Frame.remaining, List.map_eq_nil_iff, List.length_map]
  · rw [dropping.node?_beside several notLeaf notParent, newLast_eq]

private theorem absorbed {only : Shape α} (single : frame.before ++ frame.after = [only]) :
    ∃ child grandchildren,
      Absorbed tree last leaf entry.index frame.id frame.list
        (frame.before.map Subtree.id) (frame.after.map Subtree.id) only.id child
          grandchildren := by
  have isRejoined : frame.rejoined = node frame.id only.payload only.children := by
    rw [Frame.rejoined, single]
    rfl
  have isBranch := dropping.node?_branch
  have areChildren := dropping.children_branch
  obtain ⟨carried, below, _⟩ := dropping.only_eq single
  obtain ⟨child, found, payload⟩ := Arena.carried?_eq_some.mp carried
  have forest := dropping.whole.forest
  rw [isRejoined, children_node, ← below] at isBranch areChildren
  refine ⟨child, kids only.id, ?_, found, (dropping.dead (.inr ⟨only, single, rfl⟩)).1,
    ⟨forest.children_eq found, areChildren⟩, ?_, fun id notLeaf notParent notOnly => ?_⟩
  · rw [← List.map_append, single, List.map_singleton]
  · rw [isBranch, payload_node, ← payload, ← forest.firstChild found,
      ← forest.lastChild found, ← forest.childCount found]
  · rw [dropping.node?_below single notLeaf notParent notOnly, newLast_eq]

end

end

theorem Standing.withdrawn (standing : tree.Standing shape)
    (done : remove value compare (tree, state) = .ok (some old) (last, after)) :
    ∃ index, tree.Withdrawn last index old := by
  have ends := remove_ends standing.upright value compare state
  rw [done] at ends
  cases ends with
  | @found path leaf _ front entry back arena _ landed _ embodied =>
      obtain rfl := landed.found
      have sound := standing.sound_of_filled (by simp)
      have distinct := standing.mirrors.distinct
      have known := standing.mirrors.stored entry (by simp [entries_plug])
      refine ⟨entry.index, ValueTable.get_of_value? known, rfl, rfl, ?_, ?_, leaf,
        path.map Frame.id, front, back, standing.embodies.children_eq,
        standing.embodies.list_eq, ?_, ?_, ?_⟩
      · intro id list isList listed
        have stands := standing.erased rfl embodied
        obtain ⟨other, member, same⟩ := List.mem_map.mp listed
        have stored := stands.mirrors.stored other (stands.mem_of_list isList member)
        rw [ValueTable.value?_put (ValueTable.lt_size_of_value? known), if_pos same] at stored
        cases stored
      · exact ⟨_, separators_eq standing.embodies, sound.countP_separators_le distinct _⟩
      · obtain ⟨_, kids, whole⟩ := standing.embodies
        exact whole.lineage
      · exact fun id list isList listed => above_of_listed standing isList listed
      · by_cases stays : path = [] ∨ front ++ back ≠ []
        · exact .shortened (shortened standing stays embodied)
        rw [not_or, Classical.not_not] at stays
        obtain ⟨rfl, rfl⟩ := List.append_eq_nil_iff.mp stays.2
        obtain ⟨frame, outer, rfl⟩ := List.exists_cons_of_ne_nil stays.1
        obtain ⟨kids, others, dropping, dropped⟩ := dropped standing embodied
        by_cases several : 2 ≤ (frame.before ++ frame.after).length
        · exact .unlinked dropped (unlinked dropping several)
        have some := Frame.append_ne_nil (sound.formed.enough frame (by simp))
        have single : (frame.before ++ frame.after).length = 1 := by
          have := List.length_pos_iff.mpr some
          omega
        obtain ⟨only, single⟩ := List.length_eq_one_iff.mp single
        obtain ⟨child, grandchildren, absorbed⟩ := absorbed dropping single
        exact .absorbed dropped absorbed

end

/-- Wherever a value is removed, its entry goes, and the nodes that change are those
beside and above the leaf it stood in. -/
theorem removals_are_local {config : Config} (valid : config.Valid) :
    ∃ start : Tree α, withConfig config = .ok start ∧
      ∀ requests : List (Request α), (∀ request ∈ requests, request.Steady) →
        ∀ (value : α) (compare : Comparator σ α) (state : σ) old last after,
          remove value compare (requests.foldl perform start, state) =
            .ok (some old) (last, after) →
          ∃ index, (requests.foldl perform start).Withdrawn last index old := by
  obtain ⟨start, created, stands⟩ := @standing_after_requests α config valid
  refine ⟨start, created, ?_⟩
  intro requests steady value compare state old last after done
  obtain ⟨shape, standing, _⟩ := stands requests steady
  exact standing.withdrawn done

/-- The first of two leaves is emptied, and the root takes the place of the second. -/
theorem removals_are_local_absorbed :
    ({ maxValues := 2, chunkSize := 1, nodeCapacity := 8 } : Config).Valid ∧
      ∃ start : Tree Nat,
        withConfig { maxValues := 2, chunkSize := 1, nodeCapacity := 8 } =
          .ok start ∧
        ∃ last after index,
          remove 5 (.answering compare) ([
            .insert 5 (.answering compare) (),
            .insert 7 (.answering compare) ()].foldl perform start, ()) =
              .ok (some 5) (last, after) ∧
          ([.insert 5 (.answering compare) (),
            .insert 7 (.answering compare) ()].foldl perform start).Withdrawn
              last index 5 := by
  have valid : ({ maxValues := 2, chunkSize := 1, nodeCapacity := 8 } :
      Config).Valid := by
    constructor <;> decide
  obtain ⟨start, created, locally⟩ := @removals_are_local Nat Unit _ valid
  have done : returned? (remove 5 (.answering compare) ([
      .insert 5 (.answering compare) (),
      .insert 7 (.answering compare) ()].foldl perform start, ())) = some (some 5) := by
    obtain rfl := Except.ok.inj created
    decide +kernel
  obtain ⟨⟨last, after⟩, done⟩ := returned?_eq_some.mp done
  obtain ⟨index, withdrawn⟩ := locally [
    .insert 5 (.answering compare) (), .insert 7 (.answering compare) ()] (by
      have steady := Comparator.steady_answering (compare : Nat → Nat → Ordering)
      intro request member
      simp only [List.mem_cons, List.not_mem_nil, or_false] at member
      rcases member with rfl | rfl <;> exact ⟨_, steady⟩) _ _ _ _ _ _ done
  exact ⟨valid, start, created, last, after, index, done, withdrawn⟩

end Tree

end LinkedBTree
