import LinkedBTree.Arena.Links
import LinkedBTree.Proofs.Loops
import LinkedBTree.Proofs.Arena.Slots
import LinkedBTree.Proofs.Arena.Subtree

namespace LinkedBTree

/-! Loops that follow the links of an arena. In a forest every one of them comes to
its end, and visits no node twice on the way. -/

variable {P α β γ σ : Type}

theorem Subtree.head?_ids (tree : Subtree P) : tree.ids.head? = some tree.id := by
  cases tree
  simp

namespace Arena

/-- What one run of a loop visits: live nodes, none of them twice, so no more than there
are; or only the dead handle it was started at. -/
inductive Tour (arena : Arena P) : List NodeId → Prop
  | through {visited : List NodeId} (nodup : visited.Nodup)
      (live : ∀ id ∈ visited, arena.contains id = true)
      (few : visited.length ≤ arena.liveIds.length) : Tour arena visited
  | nowhere {id : NodeId} (dead : arena.contains id = false) : Tour arena [id]

/-- Without any bound the loop from `start` on ends, after a tour of the arena, and `act`
is what it comes to. `place` tells at which node a round stands, if at any. -/
def Finishes (arena : Arena P) (place : α → Option NodeId)
    (step : α → EStateM Error σ (α ⊕ β)) (start : α) (act : EStateM Error σ β)
    (before : σ) : Prop :=
  ∃ rounds outcome, Loops step start before rounds outcome ∧ act before = outcome ∧
    arena.Tour (rounds.filterMap place)

/-- The same of a loop over what is pending. -/
def Clears (arena : Arena P) (place : α → NodeId)
    (visit : γ → α → EStateM Error σ (γ × List α)) (result : γ) (pending : List α)
    (act : EStateM Error σ γ) (before : σ) : Prop :=
  ∃ rounds outcome, Empties visit result pending before rounds outcome ∧
    act before = outcome ∧ arena.Tour (rounds.map place)

section

variable {arena : Arena P} {visited items : List NodeId}

theorem Tour.of_live (nodup : visited.Nodup)
    (live : ∀ id ∈ visited, arena.contains id = true) : arena.Tour visited :=
  .through nodup live
    (nodup.length_le_of_subset fun id member => mem_liveIds.mpr (live id member))

theorem Tour.sublist (tour : arena.Tour items) (fewer : visited.Sublist items) :
    arena.Tour visited := by
  cases tour with
  | through nodup live few =>
      exact .through (nodup.sublist fewer) (fun id member => live id (fewer.subset member))
        (Nat.le_trans fewer.length_le few)
  | nowhere dead =>
      cases fewer with
      | cons _ none =>
          obtain rfl := List.sublist_nil.mp none
          exact .through .nil (by simp) (Nat.zero_le _)
      | cons_cons _ none =>
          obtain rfl := List.sublist_nil.mp none
          exact .nowhere dead

theorem Tour.length_le (tour : arena.Tour visited) : visited.length ≤ arena.visits := by
  cases tour with
  | through nodup live _ => exact Nat.le_succ_of_le (length_le_slots nodup live)
  | nowhere _ => exact Nat.succ_le_succ (Nat.zero_le _)

end

section

variable {arena : Arena P} {place : α → Option NodeId}
  {step : α → EStateM Error σ (α ⊕ β)} {start : α} {before : σ}

theorem Finishes.eq_of_loops {act : EStateM Error σ β} {rounds : List α}
    {outcome : EStateM.Result Error σ β} (finishes : arena.Finishes place step start act before)
    (loops : Loops step start before rounds outcome) : act before = outcome := by
  obtain ⟨_, _, again, same, _⟩ := finishes
  rw [same, (loops.unique again).2]

theorem Finishes.of_stuck (stuck : ∀ next between, step start before ≠ .ok (.inl next) between)
    (tour : arena.Tour (place start).toList) :
    arena.Finishes place step start (follow step arena.visits start) before := by
  have ends : ∃ outcome, Loops step start before [start] outcome := by
    cases stepped : step start before with
    | error error after => exact ⟨_, .fails stepped⟩
    | ok outcome between =>
        cases outcome with
        | inl next => exact (stuck next between stepped).elim
        | inr answer => exact ⟨_, .answers stepped⟩
  obtain ⟨outcome, loops⟩ := ends
  refine ⟨_, _, loops, loops.follow_eq (Nat.succ_le_succ (Nat.zero_le _)), ?_⟩
  cases isPlace : place start <;> simpa [isPlace] using tour

/-- A loop that keeps to a track of live nodes: each round stands at the head of what
is left of it, and the next at the head of what is left behind that. -/
theorem Finishes.of_track (kept : σ → Prop) (track : List NodeId → Prop)
    (passable : ∀ {items}, track items →
      items.Nodup ∧ ∀ id ∈ items, arena.contains id = true)
    (answers : ∀ {current} before, place current = none →
      ∃ answer after, step current before = .ok (.inr answer) after)
    (moves : ∀ {current before next between id rest}, kept before →
      track (id :: rest) → place current = some id →
      step current before = .ok (.inl next) between →
      kept between ∧ ∃ later, track later ∧ place next = later.head? ∧
        later.Sublist rest)
    (items : List NodeId) (isTrack : track items) (isHead : place start = items.head?)
    (isKept : kept before) :
    arena.Finishes place step start (follow step arena.visits start) before := by
  have tour := Tour.of_live (passable isTrack).1 (passable isTrack).2
  have uses {current : α} {before : σ} {items : List NodeId} {id : NodeId}
      (ahead : kept before ∧ track items ∧ place current = items.head?)
      (isPlace : place current = some id) :
      ∃ rest, items = id :: rest ∧
        ∀ next between, step current before = .ok (.inl next) between →
          ∃ later, (kept between ∧ track later ∧ place next = later.head?) ∧
            later.Sublist rest := by
    obtain ⟨isKept, isTrack, isHead⟩ := ahead
    obtain ⟨rest, rfl⟩ := List.head?_eq_some_iff.mp (isHead.symm.trans isPlace)
    refine ⟨rest, rfl, fun next between stepped => ?_⟩
    obtain ⟨stillKept, later, onTrack, nextHead, fewer⟩ :=
      moves isKept isTrack isPlace stepped
    exact ⟨later, ⟨stillKept, onTrack, nextHead⟩, fewer⟩
  obtain ⟨rounds, outcome, loops, inOrder, few⟩ :=
    @Loops.exists_of_ahead α β NodeId σ step start before place
      (fun current before items => kept before ∧ track items ∧ place current = items.head?)
      (fun _ isNone => answers _ isNone) uses items ⟨isKept, isTrack, isHead⟩
  have short := length_le_slots (passable isTrack).1 (passable isTrack).2
  exact ⟨rounds, outcome, loops, loops.follow_eq (Nat.le_trans few (Nat.succ_le_succ short)),
    tour.sublist inOrder⟩

end

private def Upward (arena : Arena P) : List NodeId → Prop
  | [] => True
  | id :: above => arena.Lineage id above

namespace Forest

variable {arena : Arena P} {kids : NodeId → List NodeId}
  {place : α → Option NodeId} {step : α → EStateM Error σ (α ⊕ β)} {start : α} {before : σ}

theorem finishes_upward (forest : arena.Forest kids) (kept : σ → Prop)
    (answers : ∀ {current} before, place current = none →
      ∃ answer after, step current before = .ok (.inr answer) after)
    (climbs : ∀ {current before next between}, kept before →
      step current before = .ok (.inl next) between → kept between ∧
        ∃ id node, place current = some id ∧ arena.node? id = some node ∧
          place next = node.parent) (isKept : kept before) :
    arena.Finishes place step start (follow step arena.visits start) before := by
  have passable {items : List NodeId} (upward : arena.Upward items) :
      items.Nodup ∧ ∀ id ∈ items, arena.contains id = true := by
    cases items with
    | nil => exact ⟨.nil, by simp⟩
    | cons id above =>
        have lineage : arena.Lineage id above := upward
        refine ⟨lineage.nodup, fun other member => contains_iff.mpr ?_⟩
        rcases List.mem_cons.mp member with rfl | isAbove
        · exact lineage.live
        · exact lineage.live_of_mem isAbove
  have moves {current : α} {before : σ} {next : α} {between : σ} {id : NodeId}
      {above : List NodeId} (isKept : kept before) (upward : arena.Upward (id :: above))
      (isPlace : place current = some id)
      (stepped : step current before = .ok (.inl next) between) :
      kept between ∧ ∃ later, arena.Upward later ∧ place next = later.head? ∧
        later.Sublist above := by
    have lineage : arena.Lineage id above := upward
    obtain ⟨stillKept, other, node, same, found, isNext⟩ := climbs isKept stepped
    obtain rfl := Option.some.inj (isPlace.symm.trans same)
    refine ⟨stillKept, above, ?_, isNext.trans (lineage.parent_eq found), .refl _⟩
    cases lineage with
    | top _ _ => trivial
    | under _ _ lineage => exact lineage
  cases isPlace : place start with
  | none =>
      exact Finishes.of_track kept arena.Upward passable answers moves [] trivial
        isPlace isKept
  | some id =>
      cases found : arena.node? id with
      | some node =>
          obtain ⟨above, lineage⟩ := forest.grounded found
          exact Finishes.of_track kept arena.Upward passable answers moves (id :: above)
            lineage isPlace isKept
      | none =>
          refine Finishes.of_stuck (fun next between stepped => ?_) ?_
          · obtain ⟨_, _, _, same, isFound, _⟩ := climbs isKept stepped
            obtain rfl := Option.some.inj (isPlace.symm.trans same)
            cases found.symm.trans isFound
          · rw [isPlace]
            exact .nowhere (by rw [contains, found]; rfl)

theorem finishes_sideways (forest : arena.Forest kids)
    (answers : ∀ {current} before, place current = none →
      ∃ answer after, step current before = .ok (.inr answer) after)
    (passes : ∀ {current before next between},
      step current before = .ok (.inl next) between →
        ∃ id node, place current = some id ∧ arena.node? id = some node ∧
          place next = node.next) (id : NodeId) (isFirst : place start = (kids id).head?)
    (before : σ) : arena.Finishes place step start (follow step arena.visits start) before := by
  refine Finishes.of_track (fun _ => True)
    (fun items => arena.Chained items ∧ items.Sublist (kids id))
    (fun isTrack => ⟨(forest.nodup id).sublist isTrack.2, fun child member => ?_⟩)
    answers (fun _ isTrack isPlace stepped => ?_) (kids id)
    ⟨forest.chained id, .refl _⟩ isFirst trivial
  · obtain ⟨node, found, _⟩ := forest.of_mem (isTrack.2.subset member)
    exact contains_iff.mpr ⟨node, found⟩
  · obtain ⟨⟨⟨node, found, isNext⟩, chained⟩, within⟩ := isTrack
    obtain ⟨other, known, same, isFound, next⟩ := passes stepped
    obtain rfl := Option.some.inj (isPlace.symm.trans same)
    obtain rfl := Option.some.inj (found.symm.trans isFound)
    exact ⟨trivial, _, ⟨chained, (List.sublist_cons_self _ _).trans within⟩,
      next.trans isNext, .refl _⟩

theorem finishes_downward (forest : arena.Forest kids)
    {step : NodeId → EStateM Error σ (NodeId ⊕ β)}
    (descends : ∀ {current before next between},
      step current before = .ok (.inl next) between → next ∈ kids current)
    (start : NodeId) (before : σ) :
    arena.Finishes some step start (follow step arena.visits start) before := by
  cases found : arena.node? start with
  | none =>
      refine Finishes.of_stuck (fun next between stepped => ?_)
        (.nowhere (by rw [contains, found]; rfl))
      have member := descends stepped
      rw [forest.none_of_dead found] at member
      cases member
  | some node =>
      obtain ⟨subtree, isTop, held⟩ := forest.exists_subtree found
      refine Finishes.of_track (fun _ => True)
        (fun items => ∃ part, arena.Holds kids part ∧ items = part.ids) ?_ (by simp)
        (fun _ isTrack isPlace stepped => ⟨trivial, ?_⟩) subtree.ids
        ⟨subtree, held, rfl⟩ (by rw [subtree.head?_ids, isTop]) trivial
      · rintro _ ⟨part, held, rfl⟩
        exact ⟨forest.nodup_ids held, fun id member => contains_iff.mpr (held.live member)⟩
      · obtain ⟨⟨id, payload, children⟩, held, split⟩ := isTrack
        rw [Subtree.ids_node] at split
        obtain ⟨rfl, rfl⟩ := List.cons.inj split
        obtain rfl := Option.some.inj isPlace
        obtain ⟨_, below, inside⟩ := holds_node.mp held
        have member := descends stepped
        rw [below] at member
        obtain ⟨child, isChild, rfl⟩ := List.mem_map.mp member
        exact ⟨child.ids, ⟨child, inside child isChild, rfl⟩, child.head?_ids.symm, by
          rw [List.flatMap_def]
          exact List.sublist_flatten_of_mem (List.mem_map_of_mem isChild)⟩

end Forest

theorem Clears.of_sublist {arena : Arena P} {place : α → NodeId}
    {visit : γ → α → EStateM Error σ (γ × List α)} {result : γ} {pending rounds : List α}
    {before : σ} {outcome : EStateM.Result Error σ γ} {items : List NodeId}
    (empties : Empties visit result pending before rounds outcome)
    (fewer : (rounds.map place).Sublist items) (tour : arena.Tour items) :
    arena.Clears place visit result pending (exhaust visit arena.visits result pending)
      before := by
  have short := (tour.sublist fewer).length_le
  rw [List.length_map] at short
  exact ⟨rounds, outcome, empties, empties.exhaust_eq short, tour.sublist fewer⟩

namespace Forest

variable {arena : Arena P} {kids : NodeId → List NodeId} {place : α → NodeId}
  {visit : γ → α → EStateM Error σ (γ × List α)} {pending : List α}

private theorem exists_listing (forest : arena.Forest kids)
    (id : NodeId) : ∃ rest, Listing (fun id children => kids id = children) (kids id) rest ∧
      arena.Tour (id :: rest) := by
  cases found : arena.node? id with
  | none =>
      rw [forest.none_of_dead found]
      exact ⟨[], .nil, .nowhere (by rw [contains, found]; rfl)⟩
  | some node =>
      obtain ⟨subtree, rfl, held⟩ := forest.exists_subtree found
      have tour : arena.Tour subtree.ids := Tour.of_live (forest.nodup_ids held)
        fun _ member => contains_iff.mpr (held.live member)
      cases listed : subtree.ids with
      | nil => cases subtree.head?_ids.symm.trans (congrArg List.head? listed)
      | cons top rest =>
          have listing := held.listing
          rw [listed] at listing tour
          cases listing with
          | cons known listing =>
              rw [List.append_nil, ← known] at listing
              exact ⟨rest, listing, tour⟩

section

variable (forest : arena.Forest kids)
  (turnsUp : ∀ {result current before further lower between},
    visit result current before = .ok (further, lower) between →
      lower.map place = kids (place current))
include turnsUp

private theorem clears_listed {first order : List NodeId}
    (listing : Listing (fun id children => kids id = children) first order)
    (tour : arena.Tour order) (placed : pending.map place = first) (result : γ)
    (before : σ) :
    arena.Clears place visit result pending (exhaust visit arena.visits result pending)
      before := by
  obtain ⟨rounds, outcome, empties, inOrder⟩ := Empties.exists_of_listing listing
    (fun _ _ _ _ _ _ _ known visited => (turnsUp visited).trans known) placed result before
  exact .of_sublist empties inOrder.sublist tour

include forest

/-- A loop that turns up the children of each node it visits comes to its end, from a
node on. -/
theorem clears_from {id : NodeId} (placed : pending.map place = [id]) (result : γ)
    (before : σ) :
    arena.Clears place visit result pending (exhaust visit arena.visits result pending)
      before := by
  obtain ⟨rest, listing, tour⟩ := forest.exists_listing id
  exact clears_listed turnsUp (.cons rfl (by rwa [List.append_nil])) tour placed result before

theorem clears_below {id : NodeId} (placed : pending.map place = kids id) (result : γ)
    (before : σ) :
    arena.Clears place visit result pending (exhaust visit arena.visits result pending)
      before := by
  obtain ⟨rest, listing, tour⟩ := forest.exists_listing id
  exact clears_listed turnsUp listing (tour.sublist (List.sublist_cons_self ..)) placed result
    before

end

end Forest

end Arena

end LinkedBTree
