import LinkedBTree.Proofs.Tree.Copying
import LinkedBTree.Proofs.Tree.Leaves
import LinkedBTree.Proofs.Tree.Sessions

namespace LinkedBTree.Tree

/-! Whatever is asked of a tree, under whatever comparators, it stays intact. -/

variable {α : Type}

/-- One call of an operation that may change a tree, or go on with a copy. A
comparator or copier comes with the state it starts from. -/
inductive Request (α : Type) : Type 1
  | insert {σ : Type} (value : α) (compare : Comparator σ α) (state : σ)
  | remove {σ : Type} (value : α) (compare : Comparator σ α) (state : σ)
  | replace {σ : Type} (old new : α) (compare : Comparator σ α) (state : σ)
  | split (id : NodeId)
  | copy {σ : Type} (copyValue : Copier σ α) (state : σ)

def Request.Steady : Request α → Prop
  | .insert _ compare _ | .remove _ compare _ | .replace _ _ compare _ =>
      ∃ answer, compare.Steady answer
  | .split _ | .copy _ _ => True

def perform (tree : Tree α) : Request α → Tree α
  | .insert value compare state =>
      (reached (Tree.insert value compare (tree, state))).1
  | .remove value compare state =>
      (reached (Tree.remove value compare (tree, state))).1
  | .replace old new compare state =>
      (reached (Tree.replace old new compare (tree, state))).1
  | .split id => reached (Edit.split id tree)
  | .copy copyValue state =>
      match tree.copy copyValue state with
      | .ok image _ => image
      | .error _ _ => tree

structure Intact (tree : Tree α) (ids : List NodeId)
    (lists : List (EntryList α)) : Prop where
  top : ∃ node, tree.arena.node? tree.root = some node ∧ node.isLinked = false
  /-- Nothing is live but what the root reaches. -/
  reaches : tree.arena.preorder tree.root = .ok ids
  live_iff : ∀ id, tree.arena.contains id = true ↔ id ∈ ids
  listed : ∀ id ∈ ids, ∃ list children,
    tree.list id = .ok list ∧ tree.arena.children id = .ok children
  filled : ∀ id ∈ ids, ∀ list, tree.list id = .ok list →
    tree.arena.children id = .ok [] → id ≠ tree.root → list.entries ≠ []
  branched : ∀ id ∈ ids, ∀ list children, tree.list id = .ok list →
    tree.arena.children id = .ok children → children ≠ [] →
      2 ≤ children.length ∧ children.length = list.length + 1
  /-- A separator is the last entry of the rightmost leaf below the child
  before it. -/
  parted : ∀ id ∈ ids, ∀ list children, tree.list id = .ok list →
    tree.arena.children id = .ok children → children ≠ [] →
      ∀ position separator, list.entry? position = some separator →
        ∃ child leaf last, children[position]? = some child ∧
          tree.edgeLeaf .left child = .ok leaf ∧ tree.list leaf = .ok last ∧
          last.last? = some separator
  leaves : tree.arena.leafPayloads tree.root = .ok lists
  mirrors : tree.values.Mirrors (lists.flatMap EntryList.entries)

open Subtree

section

variable {tree : Tree α} {shape : Shape α}

private theorem part_of_id {id : NodeId} (standing : tree.Standing shape)
    (member : id ∈ shape.ids) :
    ∃ path list children, shape = plug path (.node id (some list) children) ∧
      tree.list id = .ok list ∧
      tree.arena.children id = .ok (children.map Subtree.id) := by
  obtain ⟨path, list, children, rfl⟩ := standing.upright.exists_node member
  exact ⟨path, list, children, rfl, standing.embodies.list_eq,
    standing.embodies.children_eq⟩

private theorem edge_of_separator {path : List (Frame α)} {id : NodeId}
    {list : EntryList α} {children : List (Shape α)} {position : Nat}
    {separator : Entry α}
    (standing : tree.Standing (plug path (.node id (some list) children)))
    (sound : Sound (.node id (some list) children)) (inner : children ≠ [])
    (isSeparator : list.entry? position = some separator) :
    ∃ child leaf last,
      (children.map Subtree.id)[position]? = some child ∧
      tree.edgeLeaf .left child = .ok leaf ∧ tree.list leaf = .ok last ∧
      last.last? = some separator := by
  obtain ⟨_, parted⟩ := sound.of_inner inner
  have isLast := congrArg (·[position]?) parted
  have isSeparator : list.entries[position]? = some separator := isSeparator
  simp only [List.getElem?_map, isSeparator, Option.map_some] at isLast
  obtain ⟨child, isChild, ends⟩ := Option.map_eq_some_iff.mp isLast.symm
  have isChild : children[position]? = some child := by
    rw [List.getElem?_dropLast] at isChild
    split at isChild
    · exact isChild
    · cases isChild
  have member := List.mem_of_getElem? isChild
  obtain ⟨before, after, rfl⟩ := List.append_of_mem member
  have below := sound.children_sound child member
  have deeper : tree.Embodies (plug (⟨id, list, before, after⟩ :: path) child) :=
    standing.embodies
  obtain ⟨leaf, last, reached, isList, isEnd⟩ := edgeLeaf_eq .left below.formed deeper
  refine ⟨child.id, leaf, last, ?_, reached, isList, ?_⟩
  · rw [List.getElem?_map, isChild]
    rfl
  · rw [← ends, below.last_eq]
    exact isEnd

theorem Standing.intact (standing : tree.Standing shape) :
    ∃ lists, tree.Intact shape.ids lists := by
  obtain ⟨isRoot, kids, whole⟩ := standing.embodies
  obtain ⟨lists, isLists, entries⟩ : ∃ lists,
      tree.arena.leafPayloads tree.root = .ok lists ∧
        lists.flatMap EntryList.entries = shape.entries := by
    refine ⟨_, leafPayloads_eq standing.upright, ?_⟩
    rw [List.flatMap_map, entries_eq_tips]
  have known : ∀ id ∈ shape.ids, ∀ list children, tree.list id = .ok list →
      tree.arena.children id = .ok children → ∃ path parts,
        shape = plug path (.node id (some list) parts) ∧
        children = parts.map Subtree.id ∧
        (Sound (.node id (some list) parts) ∨ id = tree.root ∧ parts = []) := by
    intro id member list children isList isChildren
    obtain ⟨path, same, parts, rfl, isSame, areParts⟩ := part_of_id standing member
    obtain rfl := Except.ok.inj (isList.symm.trans isSame)
    refine ⟨path, parts, rfl, Except.ok.inj (isChildren.symm.trans areParts), ?_⟩
    apply standing.sound_or_empty.imp Sound.of_plug
    rintro ⟨_, isTop⟩
    injection isTop with isTop _ none
    exact ⟨isTop, none⟩
  refine ⟨lists, ?_, ?_, ?_, ?_, ?_, ?_, ?_, isLists, entries ▸ standing.mirrors⟩
  · obtain ⟨node, found⟩ := whole.held.live (id_mem_ids shape)
    refine ⟨node, isRoot ▸ found, ?_⟩
    rw [whole.forest.isLinked_eq found, whole.top node found]
    rfl
  · rw [← isRoot]
    exact whole.forest.preorder_eq whole.held
  · exact whole.contains_iff_mem
  · intro id member
    obtain ⟨_, list, children, _, isList, areChildren⟩ := part_of_id standing member
    exact ⟨list, _, isList, areChildren⟩
  · intro id member list isList none notRoot
    obtain ⟨path, parts, _, isEmpty, sound⟩ := known id member list [] isList none
    obtain rfl := List.map_eq_nil_iff.mp isEmpty.symm
    have filled := (sound.resolve_right fun isTop => notRoot isTop.1).filled
    rwa [entries_leaf] at filled
  · intro id member list children isList areChildren inner
    obtain ⟨path, parts, _, rfl, sound⟩ :=
      known id member list children isList areChildren
    have inner : parts ≠ [] := by simpa using inner
    have sound := sound.resolve_right fun isTop => inner isTop.2
    rw [List.length_map]
    exact ⟨(sound.of_inner inner).1, sound.length_eq inner⟩
  · intro id member list children isList areChildren inner position separator
      isSeparator
    obtain ⟨path, parts, rfl, rfl, sound⟩ :=
      known id member list children isList areChildren
    have inner : parts ≠ [] := by simpa using inner
    have sound := sound.resolve_right fun isTop => inner isTop.2
    exact edge_of_separator standing sound inner isSeparator

theorem Standing.perform (standing : tree.Standing shape)
    (isRoot : tree.root = ⟨0, 0⟩) {request : Request α} (steady : request.Steady) :
    (∃ final, (tree.perform request).Standing final) ∧
      (tree.perform request).root = ⟨0, 0⟩ := by
  cases request with
  | insert value compare state =>
      obtain ⟨answer, steady⟩ := steady
      rcases insert_cases standing steady value state with
        ⟨entry, after, done, _⟩ | ⟨left, right, arena, final, after, done, _, stands, _⟩ |
        ⟨_, _, _, _, error, arena, after, failed, stands, _⟩ | ⟨error, after, failed, _⟩
      · rw [Tree.perform, done]
        exact ⟨⟨shape, standing⟩, isRoot⟩
      · rw [Tree.perform, done]
        exact ⟨⟨final, stands⟩, isRoot⟩
      · rw [Tree.perform, failed]
        exact ⟨⟨shape, stands⟩, isRoot⟩
      · rw [Tree.perform, failed]
        exact ⟨⟨shape, standing⟩, isRoot⟩
  | remove value compare state =>
      obtain ⟨answer, steady⟩ := steady
      rcases remove_cases standing steady value state with
        ⟨left, entry, right, arena, final, after, done, _, _, stands, _⟩ |
        ⟨left, right, after, done, _⟩ | ⟨error, after, failed, _⟩
      · rw [Tree.perform, done]
        exact ⟨⟨final, stands⟩, isRoot⟩
      · rw [Tree.perform, done]
        exact ⟨⟨shape, standing⟩, isRoot⟩
      · rw [Tree.perform, failed]
        exact ⟨⟨shape, standing⟩, isRoot⟩
  | replace old new compare state =>
      obtain ⟨answer, steady⟩ := steady
      rcases replace_cases standing steady old new state with
        ⟨left, entry, right, arena, final, after, done, _, _, _, stands, _⟩ |
        ⟨error, after, failed, _⟩
      · rw [Tree.perform, done]
        exact ⟨⟨final, stands⟩, isRoot⟩
      · rw [Tree.perform, failed]
        exact ⟨⟨shape, standing⟩, isRoot⟩
  | split id =>
      rcases split_cases standing id with
        ⟨several, arena, final, done, stands, _⟩ | ⟨error, arena, failed, stands, _⟩
      · rw [Tree.perform, done]
        exact ⟨⟨final, stands⟩, isRoot⟩
      · rw [Tree.perform, failed]
        exact ⟨⟨shape, stands⟩, isRoot⟩
  | copy copyValue state =>
      rw [Tree.perform]
      cases outcome : tree.copy copyValue state with
      | error error after => exact ⟨⟨shape, standing⟩, isRoot⟩
      | ok image after =>
          obtain ⟨isCopyRoot, final, stands, _⟩ := copy_standing standing outcome
          exact ⟨⟨final, stands⟩, isCopyRoot⟩

theorem Standing.history (standing : tree.Standing shape)
    (isRoot : tree.root = ⟨0, 0⟩) {requests : List (Request α)}
    (steady : ∀ request ∈ requests, request.Steady) :
    (∃ final, (requests.foldl Tree.perform tree).Standing final) ∧
      (requests.foldl Tree.perform tree).root = ⟨0, 0⟩ := by
  induction requests generalizing tree shape with
  | nil => exact ⟨⟨shape, standing⟩, isRoot⟩
  | cons request rest induction =>
      obtain ⟨⟨final, stands⟩, stillRoot⟩ :=
        standing.perform isRoot (steady request (by simp))
      exact induction stands stillRoot fun other member =>
        steady other (by simp [member])

theorem withCapacity_ok {config : Config} (valid : config.Valid) :
    (Arena.withCapacity config.nodeCapacity : Except Error (Arena (EntryList α))) =
      .ok { capacity := config.nodeCapacity } := by
  have := valid.nodeCapacity_pos
  have := valid.nodeCapacity_le
  unfold Arena.withCapacity
  rw [if_neg (by omega), if_neg (by omega)]
  rfl

theorem standing_withConfig {config : Config} (valid : config.Valid) :
    ∃ start : Tree α, withConfig config = .ok start ∧
      start.Standing (.node start.root (some {}) []) ∧
      start.root = ⟨0, 0⟩ ∧ start.values = {} ∧ start.config = config ∧
      start.arena.setting = (config.nodeCapacity, 0) := by
  have started := @withCapacity_ok α config valid
  obtain ⟨vacant, tidy, _⟩ := Arena.vacant_withCapacity started
  have forest := Arena.forest_withCapacity started
  obtain ⟨arena, allocated⟩ : ∃ arena, Arena.allocate (some ({} : EntryList α))
      { capacity := config.nodeCapacity } = .ok ⟨0, 0⟩ arena := by
    unfold Arena.allocate
    exact ⟨_, if_pos valid.nodeCapacity_pos⟩
  obtain ⟨_, lookup⟩ := Arena.node?_allocate allocated
  have kept := Arena.setting_allocate (some ({} : EntryList α))
    { capacity := config.nodeCapacity }
  rw [allocated, reached_ok] at kept
  have only : ∀ id node, arena.node? id = some node →
      id = ⟨0, 0⟩ ∧ node = { payload := some {} } := by
    intro id node found
    rw [lookup] at found
    split at found
    · exact ⟨‹_›, (Option.some.inj found).symm⟩
    · cases (vacant id).symm.trans found
  refine ⟨{ arena, root := ⟨0, 0⟩, values := {}, config }, ?_,
    ⟨⟨rfl, fun _ => [], ?_⟩, .inr rfl, ?_⟩, rfl, rfl, rfl, kept⟩
  · unfold withConfig
    rw [bind_of_ok ((Config.check_eq_ok_iff config).mpr valid), bind_of_ok started]
    simp only [allocated]
    rfl
  · refine ⟨forest.allocate allocated, ?_, ?_, ?_, tidy.allocate allocated⟩
    · refine Arena.holds_node.mpr ⟨?_, rfl, by simp⟩
      simp [Arena.carried?, lookup]
    · intro node found
      rw [(only _ node found).2]
    · intro id node found
      simpa using (only id node found).1
  · refine ⟨by simp [Distinct], by simp, ?_⟩
    intro index value known
    simp [ValueTable.value?] at known

/-- Every tree that calls lead to is intact, and keeps its root. -/
theorem intact_after_requests {config : Config} (valid : config.Valid) :
    ∃ start : Tree α, withConfig config = .ok start ∧
      ∀ requests : List (Request α),
        (∀ request ∈ requests, request.Steady) →
        (requests.foldl perform start).root = start.root ∧
          ∃ ids lists, (requests.foldl perform start).Intact ids lists := by
  obtain ⟨start, created, stands, isRoot, _⟩ := standing_withConfig valid
  refine ⟨start, created, fun requests steady => ?_⟩
  obtain ⟨⟨final, standing⟩, stillRoot⟩ := stands.history isRoot steady
  obtain ⟨lists, intact⟩ := standing.intact
  exact ⟨stillRoot.trans isRoot.symm, final.ids, lists, intact⟩

theorem intact_after_requests_mixed :
    ({ maxValues := 2, chunkSize := 1, nodeCapacity := 8 } : Config).Valid ∧
      ∃ start : Tree Nat,
        withConfig { maxValues := 2, chunkSize := 1, nodeCapacity := 8 } =
          .ok start ∧
        ∃ ids lists, ([
          .insert 5 (fun left right _ => .ok (compare left right) ()) (),
          .insert 7 (fun left right _ => .ok (compare left right) ()) (),
          .insert 6 (fun _ _ _ => .ok .gt ()) (),
          .copy (fun value _ => .ok value ()) (),
          .remove 5 (fun left right _ => .ok (compare left right) ()) ()
          ].foldl perform start).Intact ids lists := by
  have valid : ({ maxValues := 2, chunkSize := 1, nodeCapacity := 8 } :
      Config).Valid := by
    constructor <;> decide
  obtain ⟨start, created, intact⟩ := @intact_after_requests Nat _ valid
  refine ⟨valid, start, created, (intact _ ?_).2⟩
  have steady : ∀ answer : Nat → Nat → Ordering, Comparator.Steady
      (fun left right (_ : Unit) => .ok (answer left right) ()) answer := by
    intro answer left right state result after done
    exact (EStateM.Result.ok.inj done).1.symm
  intro request member
  simp only [List.mem_cons, List.not_mem_nil, or_false] at member
  rcases member with rfl | rfl | rfl | rfl | rfl
  · exact ⟨_, steady compare⟩
  · exact ⟨_, steady compare⟩
  · exact ⟨_, steady fun _ _ => .gt⟩
  · trivial
  · exact ⟨_, steady compare⟩

end

end LinkedBTree.Tree
