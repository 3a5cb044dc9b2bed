import LinkedBTree.Proofs.Arena.Freeing
import LinkedBTree.Proofs.Arena.Tips

namespace LinkedBTree.Arena

/-! Walks against the tree they go through: in which order they get to its nodes,
where a walk through the leaves stops, and which child has which position. -/

variable {P σ : Type} {arena : Arena P} {kids : NodeId → List NodeId}
  {tree : Subtree P} {id : NodeId} {act : NodeId → Node P → EStateM Error σ Unit}
  {ids : List NodeId} {before after : σ}

inductive Serves (arena : Arena P) (act : NodeId → Node P → EStateM Error σ Unit) :
    List NodeId → σ → σ → Prop
  | nil {state : σ} : Serves arena act [] state state
  | cons {id : NodeId} {node : Node P} {rest : List NodeId} {before between after : σ} :
      arena.node? id = some node → act id node before = .ok () between →
      Serves arena act rest between after → Serves arena act (id :: rest) before after

/-- How it ends to call `act` on the nodes named by `ids` until it fails. -/
inductive Called (arena : Arena P) (act : NodeId → Node P → EStateM Error σ Unit)
    (ids : List NodeId) (before : σ) : EStateM.Result Error σ Unit → Prop
  | through {after : σ} :
      arena.Serves act ids before after → Called arena act ids before (.ok () after)
  | upTo {done behind : List NodeId} {id : NodeId} {node : Node P} {between after : σ}
      {error : Error} :
      ids = done ++ id :: behind → arena.Serves act done before between →
      arena.node? id = some node → act id node between = .error error after →
      Called arena act ids before (.error error after)

theorem Called.next {node : Node P} {between : σ} {ending : EStateM.Result Error σ Unit}
    (found : arena.node? id = some node) (served : act id node before = .ok () between)
    (called : arena.Called act ids between ending) :
    arena.Called act (id :: ids) before ending := by
  cases called with
  | through serves => exact .through (.cons found served serves)
  | upTo split serves isNode failed =>
      exact .upTo (congrArg (id :: ·) split) (.cons found served serves) isNode failed

theorem called_foldlM (live : ∀ id ∈ ids, arena.contains id = true) (before : σ) :
    arena.Called act ids before (ids.foldlM
      (fun _ id => (liftM (arena.read id) : EStateM Error σ _) >>= act id) () before) := by
  induction ids generalizing before with
  | nil => exact .through .nil
  | cons id rest induction =>
      obtain ⟨node, found⟩ := contains_iff.mp (live id List.mem_cons_self)
      rw [List.foldlM_cons, run_bind, run_lift_bind (read_eq found)]
      cases served : act id node before with
      | error error after => exact .upTo rfl .nil found served
      | ok _ between =>
          exact .next found served
            (induction (fun other member => live other (List.mem_cons_of_mem _ member)) between)

theorem Forest.childAt_of_le {node : Node P} {position : Nat} (forest : arena.Forest kids)
    (found : arena.node? id = some node) (outside : (kids id).length ≤ position) :
    arena.childAt id position =
      .error (.cause (.childOutOfRange position id (kids id).length)) := by
  unfold childAt
  rw [bind_of_ok (read_eq found), forest.childCount found, if_pos outside]
  rfl

/-- What walks from the root of `tree` come to. -/
structure Traversed (arena : Arena P) (kids : NodeId → List NodeId) (tree : Subtree P) :
    Prop where
  children : ∀ id ∈ tree.ids, arena.children id = .ok (kids id)
  preorder : arena.preorder tree.id = .ok tree.ids
  nodup : tree.ids.Nodup
  leaves : arena.leaves tree.id = .ok (tree.ids.filter fun id => (kids id).isEmpty)
  leafPayloads : arena.leafPayloads tree.id =
    .ok ((tree.ids.filter fun id => (kids id).isEmpty).filterMap arena.payload?)
  /-- A callback is called on the leaves up to the first on which it fails. -/
  forLeaves : ∀ {σ : Type} (act : NodeId → Node P → EStateM Error σ Unit) (before : σ),
    arena.Called act (tree.ids.filter fun id => (kids id).isEmpty) before
      (arena.forLeaves tree.id act before)
  childAt_iff : ∀ position child, arena.childAt tree.id position = .ok child ↔
    (kids tree.id)[position]? = some child
  outOfRange_iff : ∀ node, arena.node? tree.id = some node → ∀ position,
    (∃ error, arena.childAt tree.id position = .error error ∧
      error.root.category = .invalidArgument) ↔ node.childCount ≤ position

theorem Forest.foldLeaves_gathers {β : Type} (forest : arena.Forest kids)
    (held : arena.Holds kids tree) {read : NodeId → List β}
    {combine : List β → NodeId → Node P → Except Error (List β)}
    (reads : ∀ id node, arena.node? id = some node → ∀ seen,
      combine seen id node = .ok ((read id).reverse ++ seen)) :
    arena.foldLeaves tree.id combine [] =
      .ok ((tree.ids.filter fun id => (kids id).isEmpty).flatMap read).reverse := by
  rw [forest.foldLeaves_filter held, ← List.append_nil (List.reverse _)]
  refine foldlM_gathers (fun id member seen => ?_) []
  obtain ⟨node, found⟩ := held.live (List.mem_filter.mp member).1
  show arena.read id >>= _ = _
  rw [bind_of_ok (read_eq found)]
  exact reads id node found seen

theorem Forest.leaves_filter (forest : arena.Forest kids) (held : arena.Holds kids tree) :
    arena.leaves tree.id = .ok (tree.ids.filter fun id => (kids id).isEmpty) := by
  unfold leaves
  rw [bind_of_ok (forest.foldLeaves_gathers held ?_)]
  rotate_left
  · exact fun id => [id]
  · exact fun _ _ _ _ => rfl
  · rw [List.flatMap_singleton', List.reverse_reverse]
    rfl

theorem Forest.leafPayloads_filter (forest : arena.Forest kids)
    (held : arena.Holds kids tree) : arena.leafPayloads tree.id =
      .ok ((tree.ids.filter fun id => (kids id).isEmpty).filterMap arena.payload?) := by
  unfold leafPayloads
  rw [bind_of_ok (forest.foldLeaves_gathers held ?_)]
  rotate_left
  · exact fun id => (arena.payload? id).toList
  · intro id node found seen
    rw [payload?, found, Option.bind_some]
    cases node.payload <;> rfl
  · rw [List.reverse_reverse, List.filterMap_eq_flatMap_toList]
    rfl

theorem Forest.leafPayloads_congr {other : Arena P} (forest : arena.Forest kids)
    (again : other.Forest kids) (live : arena.contains id = true)
    (alsoLive : other.contains id = true)
    (same : ∀ id, kids id = [] → other.payload? id = arena.payload? id) :
    other.leafPayloads id = arena.leafPayloads id := by
  obtain ⟨_, found⟩ := contains_iff.mp live
  obtain ⟨_, isFound⟩ := contains_iff.mp alsoLive
  obtain ⟨tree, rfl, held⟩ := forest.exists_subtree found
  obtain ⟨twin, isTwin, alsoHeld⟩ := again.exists_subtree isFound
  rw [forest.leafPayloads_filter held, ← isTwin, again.leafPayloads_filter alsoHeld,
    held.ids_eq alsoHeld isTwin]
  congr 1
  refine List.filterMap_congr fun leaf member => same leaf ?_
  exact List.isEmpty_iff.mp (List.mem_filter.mp member).2

theorem Forest.childAt_eq_ok_iff {position : Nat} {child : NodeId}
    (forest : arena.Forest kids) (live : arena.contains id = true) :
    arena.childAt id position = .ok child ↔ (kids id)[position]? = some child := by
  obtain ⟨node, found⟩ := contains_iff.mp live
  refine ⟨fun done => ?_, forest.childAt_eq found⟩
  cases isChild : (kids id)[position]? with
  | some other =>
      rw [forest.childAt_eq found isChild] at done
      exact congrArg some (Except.ok.inj done)
  | none =>
      rw [forest.childAt_of_le found (List.getElem?_eq_none_iff.mp isChild)] at done
      cases done

/-- Walks over a subtree follow the recursion that defines its preorder. -/
theorem walks_follow_subtrees (forest : arena.Forest kids)
    (live : arena.contains id = true) :
    ∃ tree : Subtree P, tree.id = id ∧ arena.Holds kids tree ∧
      arena.Traversed kids tree := by
  obtain ⟨node, found⟩ := contains_iff.mp live
  obtain ⟨tree, rfl, held⟩ := forest.exists_subtree found
  refine ⟨tree, rfl, held, ?_⟩
  have isLive : ∀ id ∈ tree.ids, arena.contains id = true :=
    fun id member => contains_iff.mpr (held.live member)
  exact {
    children := fun id member => by
      obtain ⟨node, found⟩ := held.live member
      exact forest.children_eq found
    preorder := forest.preorder_eq held
    nodup := forest.nodup_ids held
    leaves := forest.leaves_filter held
    leafPayloads := forest.leafPayloads_filter held
    forLeaves := fun act before => by
      unfold forLeaves
      rw [forest.foldLeaves_filter held]
      exact called_foldlM (fun id member => isLive id (List.mem_filter.mp member).1) before
    childAt_iff := fun position child => forest.childAt_eq_ok_iff live
    outOfRange_iff := fun node found position => by
      rw [forest.childCount found]
      constructor
      · rintro ⟨error, failed, _⟩
        by_contra inRange
        have isChild := List.getElem?_eq_getElem (Nat.lt_of_not_le inRange)
        cases (forest.childAt_eq found isChild).symm.trans failed
      · exact fun outside => ⟨_, forest.childAt_of_le found outside, rfl⟩ }

theorem walks_follow_subtrees_family :
    ∃ (arena : Arena Nat) (kids : NodeId → List NodeId),
      family.foldl perform ({ capacity := 9 } : Arena Nat) = arena ∧
      arena.Forest kids ∧ arena.contains ⟨0, 0⟩ = true ∧
      (∃ tree : Subtree Nat, tree.id = ⟨0, 0⟩ ∧ arena.Holds kids tree ∧
        arena.Traversed kids tree) ∧
      arena.preorder ⟨0, 0⟩ = .ok [⟨0, 0⟩, ⟨1, 0⟩, ⟨3, 0⟩, ⟨2, 0⟩] ∧
      arena.leaves ⟨0, 0⟩ = .ok [⟨3, 0⟩, ⟨2, 0⟩] ∧
      arena.leafPayloads ⟨0, 0⟩ = .ok [3] ∧
      arena.childAt ⟨0, 0⟩ 1 = .ok ⟨2, 0⟩ := by
  have started : (withCapacity 9 : Except Error (Arena Nat)) =
      .ok { capacity := 9 } := rfl
  obtain ⟨kids, forest⟩ := (forest_withCapacity started).history family
  have live : (family.foldl perform ({ capacity := 9 } : Arena Nat)).contains
      ⟨0, 0⟩ = true := by decide +kernel
  exact ⟨_, kids, rfl, forest, live, walks_follow_subtrees forest live,
    by decide +kernel, by decide +kernel, by decide +kernel, by decide +kernel⟩

end LinkedBTree.Arena
