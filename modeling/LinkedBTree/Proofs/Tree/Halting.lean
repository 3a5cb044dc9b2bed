import LinkedBTree.Proofs.Arena.Halting
import LinkedBTree.Proofs.Arena.Traversing
import LinkedBTree.Proofs.Tree.Descent
import LinkedBTree.Proofs.Tree.Walking
import LinkedBTree.Tree.Beside
import LinkedBTree.Tree.Validity

namespace LinkedBTree.Tree

/-! The loops of a tree: the descents, the way from leaf to leaf, the renewal of
separators, and the walks through all nodes. No list has to be in order for them to end,
nor has there to be any list. -/

variable {α σ : Type}

/-- Whatever values, handles and comparators it is given, every loop over the links of
the tree comes to its end by itself, and visits no node twice on the way. -/
structure Halting (tree : Tree α) : Prop where
  locate : ∀ {σ : Type} (value : α) (compare : Comparator σ α) (state : σ),
    tree.arena.Finishes some (tree.locateStep value compare) tree.root
      (tree.locate value compare) state
  locateInLeaf : ∀ {σ : Type} (value : α) (compare : Comparator σ α) (state : σ),
    tree.arena.Finishes some (tree.leafStep value compare) tree.root
      (tree.locateInLeaf value compare) state
  turn : ∀ (side : Side) (start : NodeId),
    tree.arena.Finishes some (stateless (tree.turnStep side)) start
      (liftM (tree.turn side start)) ()
  edge : ∀ (side : Side) (start : NodeId),
    tree.arena.Finishes some (stateless (tree.edgeStep side)) start
      (liftM (tree.edgeLeaf side start)) ()
  renewal : ∀ (start : Option NodeId) (index : Nat) (entry : Entry α),
    tree.arena.Finishes (fun id => id) (Edit.renewStep index entry) start
      (Edit.renewSeparators start index entry) tree
  depth : tree.arena.Clears Prod.fst (fun deepest => stateless (tree.depthVisit deepest)) 0
    [(tree.root, 1)] (liftM tree.depth) ()
  validate : ∀ {σ : Type} (compare : Comparator σ α) (tally : Tally) (state : σ),
    tree.arena.Clears Prod.fst (tree.validateVisit compare) tally [(tree.root, {})]
      (exhaust (tree.validateVisit compare) tree.arena.visits tally [(tree.root, {})])
      state

section

variable {tree : Tree α} {kids : NodeId → List NodeId} {value : α}
  {compare : Comparator σ α} {side : Side} {current next : NodeId}

theorem locateStep_eq_inl {before after : σ} (forest : tree.arena.Forest kids)
    (stepped : tree.locateStep value compare current before = .ok (.inl next) after) :
    next ∈ kids current := by
  obtain ⟨outcome, between, matched, stepped⟩ := run_bind_eq_ok.mp stepped
  obtain ⟨node, isRead, matched⟩ := run_lift_bind_eq_ok.mp matched
  cases outcome with
  | exact element => cases stepped
  | descend child element =>
      cases child with
      | none => cases stepped
      | some child =>
          cases stepped
          exact mem_of_matchIn forest ((Arena.read_eq_ok_iff ..).mp isRead) matched

theorem leafStep_eq_inl {before after : σ} (forest : tree.arena.Forest kids)
    (stepped : tree.leafStep value compare current before = .ok (.inl next) after) :
    next ∈ kids current := by
  obtain ⟨node, isRead, stepped⟩ := run_lift_bind_eq_ok.mp stepped
  have found := (Arena.read_eq_ok_iff ..).mp isRead
  obtain ⟨outcome, between, matched, stepped⟩ := run_bind_eq_ok.mp stepped
  cases outcome with
  | exact element =>
      by_cases isLeaf : node.isLeaf = true
      · simp only [isLeaf, if_true] at stepped
        cases stepped
      · simp only [isLeaf] at stepped
        obtain ⟨child, _, followed, stepped⟩ := run_bind_eq_ok.mp stepped
        cases stepped
        rw [run_within, run_lift] at followed
        cases isChild : tree.arena.childAt current element with
        | error error =>
            rw [isChild] at followed
            cases followed
        | ok child =>
            rw [isChild] at followed
            cases followed
            exact List.mem_of_getElem? ((forest.childAt_eq_ok_iff
              (Arena.contains_iff.mpr ⟨node, found⟩)).mp isChild)
  | descend child element =>
      cases child with
      | none => cases stepped
      | some child =>
          cases stepped
          exact mem_of_matchIn forest found matched

theorem turnStep_eq_inl (stepped : tree.turnStep side current = .ok (.inl next)) :
    ∃ node, tree.arena.node? current = some node ∧ node.parent = some next := by
  obtain ⟨node, isRead, stepped⟩ := bind_eq_ok.mp stepped
  refine ⟨node, (Arena.read_eq_ok_iff ..).mp isRead, ?_⟩
  cases sibling : side.sibling node with
  | some other =>
      rw [sibling] at stepped
      cases stepped
  | none =>
      cases above : node.parent with
      | none =>
          rw [sibling, above] at stepped
          cases stepped
      | some parent =>
          rw [sibling, above] at stepped
          cases stepped
          rfl

theorem edgeStep_eq_inl (forest : tree.arena.Forest kids)
    (stepped : tree.edgeStep side current = .ok (.inl next)) : next ∈ kids current := by
  obtain ⟨node, isRead, stepped⟩ := bind_eq_ok.mp stepped
  have found := (Arena.read_eq_ok_iff ..).mp isRead
  cases nearest : side.nearest node with
  | none =>
      rw [nearest] at stepped
      cases stepped
  | some child =>
      rw [nearest] at stepped
      cases stepped
      cases side with
      | left => exact List.mem_of_getLast? ((forest.lastChild found).symm.trans nearest)
      | right => exact List.mem_of_head? ((forest.firstChild found).symm.trans nearest)

theorem renewStep_eq_inl {index : Nat} {entry : Entry α} {start above : Option NodeId}
    {before after : Tree α}
    (stepped : Edit.renewStep index entry start before = .ok (.inl above) after) :
    ∃ id node, start = some id ∧ before.arena.node? id = some node ∧
      above = node.parent ∧ (after = before ∨ ∃ list, after = before.setList id list) := by
  cases start with
  | none => cases stepped
  | some id =>
      rw [Edit.renewStep, run_get_bind] at stepped
      obtain ⟨node, isRead, stepped⟩ := run_lift_bind_eq_ok.mp stepped
      obtain ⟨list, _, stepped⟩ := run_lift_bind_eq_ok.mp stepped
      refine ⟨id, node, rfl, (Arena.read_eq_ok_iff ..).mp isRead, ?_⟩
      cases isPosition : list.positionOf? index with
      | none =>
          rw [isPosition] at stepped
          cases stepped
          exact ⟨rfl, .inl rfl⟩
      | some position =>
          rw [isPosition] at stepped
          obtain ⟨⟨_, renewed⟩, _, stepped⟩ := run_lift_bind_eq_ok.mp stepped
          cases stepped
          exact ⟨rfl, .inr ⟨_, rfl⟩⟩

theorem map_fst_childLimits (limits : Limits α) (children : List NodeId)
    (separators : List (Entry α)) :
    (childLimits limits children separators).map Prod.fst = children := by
  induction children generalizing limits separators with
  | nil => rfl
  | cons child children induction =>
      cases separators with
      | nil => simp [childLimits, induction]
      | cons separator separators => simp [childLimits, induction]

theorem validateVisit_turnsUp (forest : tree.arena.Forest kids) {tally further : Tally}
    {item : NodeId × Limits α} {lower : List (NodeId × Limits α)} {before after : σ}
    (visited : tree.validateVisit compare tally item before = .ok (further, lower) after) :
    lower.map Prod.fst = kids item.1 := by
  obtain ⟨id, limits⟩ := item
  obtain ⟨node, isRead, visited⟩ := run_lift_bind_eq_ok.mp visited
  have found := (Arena.read_eq_ok_iff ..).mp isRead
  obtain ⟨list, _, visited⟩ := run_lift_bind_eq_ok.mp visited
  obtain ⟨_, _, _, visited⟩ := run_bind_eq_ok.mp visited
  by_cases isLeaf : node.isLeaf = true
  · rw [if_pos isLeaf] at visited
    obtain ⟨_, _, _, visited⟩ := run_bind_eq_ok.mp visited
    cases visited
    exact ((forest.isLeaf_iff found).mp isLeaf).symm
  · rw [if_neg isLeaf] at visited
    obtain ⟨below, _, checked, visited⟩ := run_bind_eq_ok.mp visited
    cases visited
    obtain ⟨children, listed, checked⟩ := run_lift_bind_eq_ok.mp checked
    obtain rfl := Except.ok.inj (listed.symm.trans (forest.childList_eq found))
    by_cases mismatch : (kids id).length ≠ list.length + 1
    · rw [if_pos mismatch] at checked
      cases checked
    · rw [if_neg mismatch] at checked
      obtain ⟨_, _, _, checked⟩ := run_bind_eq_ok.mp checked
      obtain ⟨_, _, checked⟩ := run_lift_bind_eq_ok.mp checked
      cases checked
      exact map_fst_childLimits limits (kids id) list.entries

theorem depthVisit_eq_ok (forest : tree.arena.Forest kids) {deepest further : Nat}
    {item : NodeId × Nat} {lower : List (NodeId × Nat)}
    (visited : tree.depthVisit deepest item = .ok (further, lower)) :
    lower = (kids item.1).reverse.map (·, item.2 + 1) := by
  obtain ⟨children, listed, visited⟩ := bind_eq_ok.mp visited
  obtain ⟨node, isRead, _⟩ := bind_eq_ok.mp listed
  obtain rfl := Except.ok.inj
    (listed.symm.trans (forest.children_eq ((Arena.read_eq_ok_iff ..).mp isRead)))
  cases visited
  rfl

private theorem clears_levels (forest : tree.arena.Forest kids) :
    tree.arena.Clears Prod.fst (fun deepest => stateless (tree.depthVisit deepest)) 0
      [(tree.root, 1)] (liftM tree.depth) () := by
  obtain ⟨levels, listing, tour⟩ : ∃ levels,
      Listing (fun item below => below = (kids item.1).reverse.map (·, item.2 + 1))
        [(tree.root, 1)] levels ∧ tree.arena.Tour (levels.map Prod.fst) := by
    cases found : tree.arena.node? tree.root with
    | none =>
        refine ⟨[(tree.root, 1)], .cons rfl ?_,
          .nowhere (by rw [Arena.contains, found]; rfl)⟩
        rw [forest.none_of_dead found]
        exact .nil
    | some node =>
        obtain ⟨shape, isRoot, held⟩ := forest.exists_subtree found
        have perm := shape.map_fst_levels_perm 1
        refine ⟨shape.levels 1, isRoot ▸ levels_listing held 1,
          Arena.Tour.of_live (perm.nodup_iff.mpr (forest.nodup_ids held)) fun id member => ?_⟩
        exact Arena.contains_iff.mpr (held.live (perm.subset member))
  obtain ⟨rounds, outcome, empties, inOrder⟩ := Empties.exists_of_listing listing
    (fun _ _ _ _ _ _ _ known visited => (List.map_id _).trans
      ((depthVisit_eq_ok forest (liftM_eq_ok.mp visited)).trans known.symm))
    (List.map_id _) 0 ()
  rw [depth, ← exhaust_stateless]
  rw [List.map_id] at inOrder
  exact .of_sublist empties (inOrder.sublist.map _) tour

private theorem finishes_renewal (forest : tree.arena.Forest kids)
    (start : Option NodeId) (index : Nat) (entry : Entry α) :
    tree.arena.Finishes (fun id => id) (Edit.renewStep index entry) start
      (Edit.renewSeparators start index entry) tree := by
  refine forest.finishes_upward
    (fun later => ∀ id, (later.arena.node? id).map Node.parent =
      (tree.arena.node? id).map Node.parent) ?_ ?_ fun _ => rfl
  · rintro _ before rfl
    exact ⟨_, before, rfl⟩
  · intro current before next between same stepped
    obtain ⟨id, node, isPlace, found, isNext, kept⟩ := renewStep_eq_inl stepped
    refine ⟨fun other => ?_, ?_⟩
    · rw [← same other]
      rcases kept with rfl | ⟨list, rfl⟩
      · rfl
      · rw [setList, Arena.node?_modify, Option.map_map]
        congr 1
        funext carrying
        by_cases isHere : other = id <;> simp [isHere]
    · have above := same id
      rw [found, Option.map_some] at above
      obtain ⟨first, isFound, isParent⟩ := Option.map_eq_some_iff.mp above.symm
      exact ⟨id, first, isPlace, isFound, isNext.trans isParent.symm⟩

end

theorem halting {tree : Tree α} {kids : NodeId → List NodeId}
    (forest : tree.arena.Forest kids) : tree.Halting where
  locate value compare state :=
    forest.finishes_downward (locateStep_eq_inl forest) tree.root state
  locateInLeaf value compare state :=
    forest.finishes_downward (leafStep_eq_inl forest) tree.root state
  turn side start := by
    rw [turn, ← follow_stateless]
    refine forest.finishes_upward (fun _ => True) (by simp)
      (fun {current before next between} _ stepped => ⟨trivial, ?_⟩) trivial
    obtain ⟨node, found, above⟩ := turnStep_eq_inl (liftM_eq_ok.mp stepped)
    exact ⟨current, node, rfl, found, above.symm⟩
  edge side start := by
    rw [edgeLeaf, ← follow_stateless]
    exact forest.finishes_downward
      (fun stepped => edgeStep_eq_inl forest (liftM_eq_ok.mp stepped)) start ()
  renewal start index entry := finishes_renewal forest start index entry
  depth := clears_levels forest
  validate compare tally state :=
    forest.clears_from (validateVisit_turnsUp forest) rfl tally state

end LinkedBTree.Tree
