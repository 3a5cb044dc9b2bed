import LinkedBTree.Proofs.Arena.Edits

namespace LinkedBTree.Arena

/-! What each change of an arena does to the nodes its handles name. -/

variable {P : Type}

theorem node?_modify (arena : Arena P) (id other : NodeId)
    (change : Node P → Node P) :
    (arena.modify id change).node? other =
      (arena.node? other).map fun node =>
        if other = id then change node else node := by
  by_cases same : other = id
  · subst same
    simp [node?_modify_self]
  · simp [node?_modify_of_ne arena same, same]

@[simp] theorem size_slots_modify (arena : Arena P) (id : NodeId)
    (change : Node P → Node P) :
    (arena.modify id change).slots.size = arena.slots.size := by
  simp [modify]

theorem contains_iff {arena : Arena P} {id : NodeId} :
    arena.contains id = true ↔ ∃ node, arena.node? id = some node :=
  Option.isSome_iff_exists

@[simp] theorem contains_modify (arena : Arena P) (id other : NodeId)
    (change : Node P → Node P) :
    (arena.modify id change).contains other = arena.contains other := by
  unfold contains
  rw [node?_modify, Option.isSome_map]

theorem foldl_keeps {β γ : Type} {read : Arena P → β} {change : Arena P → γ → Arena P}
    (keeps : ∀ arena item, read (change arena item) = read arena) (items : List γ)
    (arena : Arena P) : read (items.foldl change arena) = read arena := by
  induction items generalizing arena with
  | nil => rfl
  | cons item rest induction => rw [List.foldl_cons, induction, keeps]

/-- No change of a single node shows in what is read here, and so no edit of
links does. -/
def Unmoved {β : Type} (read : Arena P → β) : Prop :=
  ∀ (arena : Arena P) id change, read (arena.modify id change) = read arena

namespace Unmoved

variable {β : Type} {read : Arena P → β} (unmoved : Unmoved read) (arena : Arena P)
  (parent child : NodeId) (previous next : Option NodeId)
include unmoved

theorem joinForward : read (arena.joinForward parent previous next) = read arena := by
  unfold Arena.joinForward
  cases previous <;> exact unmoved ..

theorem joinBackward : read (arena.joinBackward parent previous next) = read arena := by
  unfold Arena.joinBackward
  cases next <;> exact unmoved ..

theorem join : read (arena.join parent previous next) = read arena := by
  rw [Arena.join, unmoved.joinBackward, unmoved.joinForward]

theorem place : read (arena.place parent child previous next) = read arena := by
  rw [Arena.place, unmoved, unmoved.join, unmoved.join]

theorem attach : read (arena.attach parent child previous next) = read arena := by
  rw [Arena.attach, unmoved, unmoved.place]

theorem attachLast : read (arena.attachLast parent child) = read arena :=
  unmoved.attach ..

theorem detach : read (arena.detach parent child previous next) = read arena := by
  rw [Arena.detach, unmoved, unmoved.join, unmoved]

theorem foldl (ids : List NodeId) (change : Node P → Node P) :
    read (ids.foldl (fun arena id => arena.modify id change) arena) = read arena :=
  foldl_keeps (fun arena id => unmoved arena id change) ids arena

theorem adopt (children : List NodeId) :
    read (arena.adopt parent children) = read arena := by
  rw [Arena.adopt, unmoved, unmoved.foldl]

end Unmoved

theorem unmoved_contains (id : NodeId) : Unmoved fun arena : Arena P => arena.contains id :=
  fun arena changed => contains_modify arena changed id

theorem read_eq {arena : Arena P} {id : NodeId} {node : Node P}
    (found : arena.node? id = some node) : arena.read id = .ok node :=
  (read_eq_ok_iff ..).mpr found

def carried? (arena : Arena P) (id : NodeId) : Option (Option P) :=
  (arena.node? id).map Node.payload

def payload? (arena : Arena P) (id : NodeId) : Option P :=
  (arena.node? id).bind Node.payload

theorem carried?_eq_some {arena : Arena P} {id : NodeId} {payload : Option P} :
    arena.carried? id = some payload ↔
      ∃ node, arena.node? id = some node ∧ node.payload = payload :=
  Option.map_eq_some_iff

theorem contains_of_carried? {arena : Arena P} {id : NodeId} {payload : Option P}
    (known : arena.carried? id = some payload) : arena.contains id = true := by
  obtain ⟨node, found, _⟩ := carried?_eq_some.mp known
  exact contains_iff.mpr ⟨node, found⟩

theorem carried?_of_node? {arena : Arena P} {id : NodeId} {node : Node P}
    (found : arena.node? id = some node) :
    arena.carried? id = some node.payload := by
  rw [carried?, found]
  rfl

theorem node?_eq_map {arena after : Arena P} {id : NodeId} {read : Node P → Node P}
    {change : Option P → Option P}
    (carried : after.carried? id = (arena.carried? id).map change)
    (links : ∀ old new, arena.node? id = some old → after.node? id = some new →
      new = { read old with payload := new.payload }) :
    after.node? id = (arena.node? id).map fun node =>
      { read node with payload := change node.payload } := by
  unfold carried? at carried
  cases known : arena.node? id with
  | none =>
      rw [known] at carried
      exact Option.map_eq_none_iff.mp carried
  | some old =>
      rw [known] at carried
      obtain ⟨new, found, payload⟩ := Option.map_eq_some_iff.mp carried
      rw [found, links old new known found, payload]
      rfl

theorem carried?_modify (arena : Arena P) (id other : NodeId)
    (payload : Option P) :
    (arena.modify id ({ · with payload })).carried? other =
      (arena.carried? other).map fun old => if other = id then payload else old := by
  unfold carried?
  rw [node?_modify, Option.map_map, Option.map_map]
  congr 1
  funext node
  by_cases same : other = id <;> simp [same]

theorem eq_of_index_eq {arena : Arena P} {left right : NodeId}
    {leftNode rightNode : Node P}
    (leftFound : arena.node? left = some leftNode)
    (rightFound : arena.node? right = some rightNode)
    (same : left.index = right.index) : left = right := by
  obtain ⟨index, generation⟩ := left
  obtain ⟨_, other⟩ := right
  cases same
  unfold node? at leftFound rightFound
  cases found : arena.slots[index]? with
  | none => simp [found] at leftFound
  | some slot =>
      simp only [found, Option.ite_none_right_eq_some] at leftFound rightFound
      rw [← leftFound.1, ← rightFound.1]

theorem index_lt_of_node? {arena : Arena P} {id : NodeId} {node : Node P}
    (found : arena.node? id = some node) : id.index < arena.slots.size := by
  unfold node? at found
  cases slot : arena.slots[id.index]? with
  | none => simp [slot] at found
  | some _ => exact (Array.getElem?_eq_some_iff.mp slot).1

theorem nodup_indexes {arena : Arena P} {ids : List NodeId}
    (nodup : ids.Nodup) (live : ∀ id ∈ ids, arena.contains id = true) :
    (ids.map NodeId.index).Nodup := by
  rw [List.Nodup, List.pairwise_map]
  refine List.Pairwise.imp_of_mem ?_ nodup
  intro left right leftMember rightMember different same
  obtain ⟨leftNode, leftFound⟩ := contains_iff.mp (live left leftMember)
  obtain ⟨rightNode, rightFound⟩ := contains_iff.mp (live right rightMember)
  exact different (eq_of_index_eq leftFound rightFound same)

theorem length_le_slots {arena : Arena P} {ids : List NodeId}
    (nodup : ids.Nodup) (live : ∀ id ∈ ids, arena.contains id = true) :
    ids.length ≤ arena.slots.size := by
  have distinct := nodup_indexes nodup live
  have bounded : ids.map NodeId.index ⊆ List.range arena.slots.size := by
    intro index member
    obtain ⟨id, idMember, rfl⟩ := List.mem_map.mp member
    obtain ⟨node, found⟩ := contains_iff.mp (live id idMember)
    exact List.mem_range.mpr (index_lt_of_node? found)
  simpa using distinct.length_le_of_subset bounded

theorem node?_discard (arena : Arena P) (id other : NodeId) :
    (arena.discard id).node? other =
      if other = id then none else arena.node? other := by
  unfold discard
  cases found : arena.node? id with
  | none =>
      simp only [contains, found, Option.isSome_none, Bool.false_eq_true,
        if_false]
      by_cases same : other = id
      · rw [if_pos same, same, found]
      · rw [if_neg same]
  | some node =>
      simp only [contains, found, Option.isSome_some, if_true, node?_count]
      have inRange := index_lt_of_node? found
      by_cases sameIndex : other.index = id.index
      · have gone : ({ arena with
            slots := arena.slots.setIfInBounds id.index
              ⟨id.generation + 1, none⟩
            free := id.index :: arena.free } : Arena P).node? other = none := by
          unfold node?
          simp [sameIndex, inRange]
        rw [gone]
        by_cases same : other = id
        · rw [if_pos same]
        · rw [if_neg same]
          cases kept : arena.node? other with
          | none => rfl
          | some _ => exact absurd (eq_of_index_eq kept found sameIndex) same
      · rw [if_neg fun same => sameIndex (congrArg NodeId.index same)]
        unfold node?
        simp only
        rw [Array.getElem?_setIfInBounds_ne fun same => sameIndex same.symm]

theorem node?_foldl_discard (ids : List NodeId) (arena : Arena P)
    (other : NodeId) :
    (ids.foldl discard arena).node? other =
      if other ∈ ids then none else arena.node? other := by
  induction ids generalizing arena with
  | nil => simp
  | cons id rest induction =>
      rw [List.foldl_cons, induction, node?_discard]
      by_cases later : other ∈ rest <;> by_cases same : other = id <;>
        simp [later, same]

theorem node?_allocate {payload : Option P} {arena after : Arena P}
    {id : NodeId} (done : allocate payload arena = .ok id after) :
    arena.node? id = none ∧
      ∀ other, after.node? other =
        if other = id then some { payload } else arena.node? other := by
  unfold allocate at done
  cases free : arena.free with
  | cons index rest =>
      simp only [free] at done
      split at done
      · rename_i generation vacant
        obtain ⟨rfl, rfl⟩ := EStateM.Result.ok.inj done
        obtain ⟨inRange, slot⟩ := Array.getElem?_eq_some_iff.mp vacant
        refine ⟨by simp [node?, vacant], fun other => ?_⟩
        by_cases sameIndex : other.index = index
        · by_cases sameGeneration : generation = other.generation
          · have same : other = ⟨index, generation⟩ := by
              cases other
              simp_all
            simp [node?, count, same, inRange]
          · have different : other ≠ ⟨index, generation⟩ := by
              rintro rfl
              exact sameGeneration rfl
            simp [node?, count, sameIndex, inRange, sameGeneration, different,
              slot]
        · have different : other ≠ ⟨index, generation⟩ := by
            rintro rfl
            exact sameIndex rfl
          simp only [node?, count, different, if_false]
          rw [Array.getElem?_setIfInBounds_ne fun same => sameIndex same.symm]
      · cases done
  | nil =>
      simp only [free] at done
      split at done
      · obtain ⟨rfl, rfl⟩ := EStateM.Result.ok.inj done
        refine ⟨by simp [node?], fun other => ?_⟩
        simp only [node?, count, Array.getElem?_push]
        by_cases sameIndex : other.index = arena.slots.size
        · by_cases sameGeneration : (0 : UInt32) = other.generation
          · have same : other = ⟨arena.slots.size, 0⟩ := by
              cases other
              simp_all
            simp [same]
          · have different : other ≠ ⟨arena.slots.size, 0⟩ := by
              rintro rfl
              exact sameGeneration rfl
            simp [sameIndex, sameGeneration, different]
        · have different : other ≠ ⟨arena.slots.size, 0⟩ := by
            rintro rfl
            exact sameIndex rfl
          simp [sameIndex, different]
      · cases done

theorem node?_allocate_error {payload : Option P} {arena after : Arena P}
    {error : Error} (failed : allocate payload arena = .error error after) :
    after.slots = arena.slots := by
  unfold allocate at failed
  split at failed
  · split at failed
    · cases failed
    · cases failed
      rfl
  · split at failed
    · cases failed
    · cases failed
      rfl

end LinkedBTree.Arena
