import LinkedBTree.Arena.Preorder
import LinkedBTree.Proofs.Arena.Overlaying
import LinkedBTree.Proofs.Arena.Touring

namespace LinkedBTree.Arena

/-! The loops of an arena, one by one: climbing, going along a child list, and going
through everything below a node, be it to list it or to copy it. -/

variable {P γ σ : Type}

/-- Whatever handles, payloads and procedures it is given, every loop over the links of
the arena comes to its end by itself, and visits no node twice on the way. -/
structure Halting (arena : Arena P) : Prop where
  climb : ∀ node start : NodeId,
    arena.Finishes some (stateless (arena.climbStep node)) start
      (liftM (arena.checkNotAbove node start)) ()
  siblings : ∀ id node, arena.node? id = some node →
    arena.Finishes Prod.snd (stateless arena.siblingStep) ([], node.firstChild)
      (liftM (follow arena.siblingStep arena.visits ([], node.firstChild))) ()
  spot : ∀ {σ : Type} (payload : P) (compare : Comparator σ P) (unique : Bool)
    (state : σ) (id : NodeId) (node : Node P), arena.node? id = some node →
    arena.Finishes (fun child => child) (arena.spotStep payload compare unique)
      node.firstChild
      (follow (arena.spotStep payload compare unique) arena.visits node.firstChild) state
  preorder : ∀ start,
    arena.Clears (fun id => id) (fun seen => stateless (arena.preorderVisit seen)) []
      [start] (liftM (exhaust arena.preorderVisit arena.visits [] [start])) ()
  leaves : ∀ {σ γ : Type} (combine : γ → NodeId → Node P → EStateM Error σ γ)
    (initial : γ) (start : NodeId) (state : σ),
    arena.Clears (fun id => id) (arena.leafVisit combine) initial [start]
      (arena.foldLeaves start combine initial) state
  /-- Into an arena of any kind, once the root of the copy is filled. -/
  copy : ∀ {σ : Type} (copy : Copier σ P) (id : NodeId) (node : Node P) (root : NodeId)
    (start between : Arena P × σ) (pending : List (NodeId × NodeId)),
    arena.node? id = some node →
    Copying.fill arena copy node root start = .ok pending between →
    arena.Clears Prod.fst (Copying.visit arena copy) () pending
      (exhaust (Copying.visit arena copy) arena.visits () pending) between
  /-- Into the arena itself, which grows while it is read. -/
  copyWithin : ∀ {σ : Type} (copy : Copier σ P) (id : NodeId) (node : Node P)
    (root : NodeId) (grown : Arena P) (state : σ) (between : Arena P × σ)
    (pending : List (NodeId × NodeId)),
    arena.node? id = some node → allocate none arena = .ok root grown →
    Copying.fillHere copy node root (grown, state) = .ok pending between →
    arena.Clears Prod.fst (Copying.visitHere copy) () pending
      (exhaust (Copying.visitHere copy) arena.visits () pending) between

section

variable {arena : Arena P} {kids : NodeId → List NodeId}

theorem climbStep_eq_inl {node current next : NodeId}
    (stepped : arena.climbStep node current = .ok (.inl next)) :
    ∃ found, arena.node? current = some found ∧ found.parent = some next := by
  unfold climbStep at stepped
  by_cases isNode : current = node
  · rw [if_pos isNode] at stepped
    cases stepped
  · rw [if_neg isNode] at stepped
    obtain ⟨found, isRead, stepped⟩ := bind_eq_ok.mp stepped
    refine ⟨found, (read_eq_ok_iff ..).mp isRead, ?_⟩
    cases above : found.parent with
    | none =>
        rw [above] at stepped
        cases stepped
    | some parent =>
        rw [above] at stepped
        cases stepped
        rfl

theorem siblingStep_eq_inl {seen : List NodeId} {child : Option NodeId}
    {next : List NodeId × Option NodeId}
    (stepped : arena.siblingStep (seen, child) = .ok (.inl next)) :
    ∃ id node, child = some id ∧ arena.node? id = some node ∧ next.2 = node.next := by
  cases child with
  | none => cases stepped
  | some id =>
      obtain ⟨node, isRead, stepped⟩ := bind_eq_ok.mp stepped
      obtain rfl := Sum.inl.inj (Except.ok.inj stepped)
      exact ⟨id, node, rfl, (read_eq_ok_iff ..).mp isRead, rfl⟩

theorem spotStep_eq_inl {payload : P} {compare : Comparator σ P} {unique : Bool}
    {child next : Option NodeId} {before after : σ}
    (stepped : arena.spotStep payload compare unique child before =
      .ok (.inl next) after) :
    ∃ id node, child = some id ∧ arena.node? id = some node ∧ next = node.next := by
  cases child with
  | none => cases stepped
  | some id =>
      obtain ⟨node, isRead, stepped⟩ := run_lift_bind_eq_ok.mp stepped
      refine ⟨id, node, rfl, (read_eq_ok_iff ..).mp isRead, ?_⟩
      cases carried : node.payload with
      | none =>
          rw [carried] at stepped
          cases stepped
      | some other =>
          rw [carried] at stepped
          obtain ⟨ordering, between, _, stepped⟩ := run_bind_eq_ok.mp stepped
          cases ordering with
          | lt => cases stepped
          | gt => cases stepped; rfl
          | eq => cases unique <;> cases stepped; rfl

theorem preorderVisit_turnsUp (forest : arena.Forest kids) {seen further : List NodeId}
    {id : NodeId} {lower : List NodeId}
    (visited : arena.preorderVisit seen id = .ok (further, lower)) : lower = kids id := by
  obtain ⟨children, listed, visited⟩ := bind_eq_ok.mp visited
  obtain ⟨node, isRead, _⟩ := bind_eq_ok.mp listed
  rw [← (Prod.mk.inj (Except.ok.inj visited)).2]
  exact Except.ok.inj
    (listed.symm.trans (forest.children_eq ((read_eq_ok_iff ..).mp isRead)))

theorem leafVisit_turnsUp {combine : γ → NodeId → Node P → EStateM Error σ γ}
    (forest : arena.Forest kids) {result further : γ} {id : NodeId} {before between : σ}
    {lower : List NodeId}
    (visited : arena.leafVisit combine result id before = .ok (further, lower) between) :
    lower = kids id := by
  obtain ⟨node, isRead, visited⟩ := run_lift_bind_eq_ok.mp visited
  have found := (read_eq_ok_iff ..).mp isRead
  by_cases isLeaf : node.isLeaf = true
  · rw [if_pos isLeaf] at visited
    obtain ⟨_, _, _, visited⟩ := run_bind_eq_ok.mp visited
    obtain ⟨same, _⟩ := EStateM.Result.ok.inj visited
    rw [← (Prod.mk.inj same).2, (forest.isLeaf_iff found).mp isLeaf]
  · rw [if_neg isLeaf] at visited
    obtain ⟨children, listed, visited⟩ := run_lift_bind_eq_ok.mp visited
    obtain ⟨same, _⟩ := EStateM.Result.ok.inj visited
    rw [← (Prod.mk.inj same).2]
    exact Except.ok.inj (listed.symm.trans (forest.childList_eq found))

namespace Copying

theorem fill_turnsUp {source : Arena P} {copy : Copier σ P} {id : NodeId} {node : Node P}
    {into : NodeId} {start between : Arena P × σ} {pending : List (NodeId × NodeId)}
    (forest : source.Forest kids) (found : source.node? id = some node)
    (filling : fill source copy node into start = .ok pending between) :
    pending.map Prod.fst = kids id := by
  have lists : ∀ {state : Arena P × σ},
      (liftM (source.childList node) >>= fun children =>
        pure (children.map (·, into)) : Session σ (Arena P) _) state =
          .ok pending between → pending.map Prod.fst = kids id := by
    intro state listed
    rw [forest.childList_eq found] at listed
    obtain ⟨rfl, _⟩ := EStateM.Result.ok.inj listed
    exact List.map_map.trans (List.map_id _)
  unfold fill at filling
  cases carried : node.payload with
  | none =>
      rw [carried] at filling
      exact lists filling
  | some payload =>
      rw [carried] at filling
      obtain ⟨_, _, _, filling⟩ := run_bind_eq_ok.mp filling
      obtain ⟨_, _, _, filling⟩ := run_bind_eq_ok.mp filling
      exact lists filling

theorem visit_turnsUp {source : Arena P} {copy : Copier σ P} {result further : Unit}
    {current : NodeId × NodeId} {before between : Arena P × σ}
    {lower : List (NodeId × NodeId)} (forest : source.Forest kids)
    (visited : visit source copy result current before = .ok (further, lower) between) :
    lower.map Prod.fst = kids current.1 := by
  obtain ⟨_, _, _, visited⟩ := run_bind_eq_ok.mp visited
  obtain ⟨_, _, _, visited⟩ := run_bind_eq_ok.mp visited
  obtain ⟨node, isRead, visited⟩ := run_lift_bind_eq_ok.mp visited
  obtain ⟨_, _, filling, visited⟩ := run_bind_eq_ok.mp visited
  cases visited
  exact fill_turnsUp forest ((read_eq_ok_iff ..).mp isRead) filling

end Copying

theorem Forest.halting (forest : arena.Forest kids) (tidy : arena.Tidy) :
    arena.Halting where
  climb node start := by
    rw [checkNotAbove, ← follow_stateless]
    refine forest.finishes_upward (fun _ => True) (by simp)
      (fun {current before next between} _ stepped => ⟨trivial, ?_⟩) trivial
    obtain ⟨found, isNode, above⟩ := climbStep_eq_inl (liftM_eq_ok.mp stepped)
    exact ⟨current, found, rfl, isNode, above.symm⟩
  siblings id node found := by
    rw [← follow_stateless]
    refine forest.finishes_sideways ?_ ?_ id ?_ ()
    · rintro ⟨seen, _⟩ _ rfl
      exact ⟨_, (), rfl⟩
    · intro _ _ _ _ stepped
      exact siblingStep_eq_inl (liftM_eq_ok.mp stepped)
    · exact forest.firstChild found
  spot payload compare unique state id node found := by
    refine forest.finishes_sideways ?_ ?_ id ?_ state
    · rintro _ before rfl
      exact ⟨_, before, rfl⟩
    · intro _ _ _ _ stepped
      exact spotStep_eq_inl stepped
    · exact forest.firstChild found
  preorder start := by
    rw [← exhaust_stateless]
    refine forest.clears_from (fun visited => ?_) rfl [] ()
    rw [List.map_id']
    exact preorderVisit_turnsUp forest (liftM_eq_ok.mp visited)
  leaves combine initial start state := by
    refine forest.clears_from (fun visited => ?_) rfl initial state
    rw [List.map_id']
    exact leafVisit_turnsUp forest visited
  copy copy id node root start between pending found filling := by
    exact forest.clears_below (Copying.visit_turnsUp forest)
      (Copying.fill_turnsUp forest found filling) () between
  copyWithin copy id node root grown state between pending found allocated filling := by
    obtain ⟨same, begins⟩ := @Copying.fillHere_begins _ _ _ _ _ copy _ _ _ forest found tidy
      allocated state
    rw [same] at filling
    obtain ⟨overlaid, apart⟩ := begins pending between filling
    obtain ⟨rounds, outcome, empties, _, tour⟩ := forest.clears_below
      (Copying.visit_turnsUp forest) (Copying.fill_turnsUp forest found filling) () between
    exact .of_sublist (empties.congr (fun _ _ _ => Copying.visitHere_eq forest)
      (fun _ _ _ _ _ => Copying.visit_stays forest) overlaid apart) (.refl _) tour

end

end LinkedBTree.Arena
