import LinkedBTree.Proofs.Walk

namespace LinkedBTree

/-! The loops behind the walks, without a bound: the rounds they go through, and how
they end. A bounded walk does the same wherever its bound has room for the rounds. -/

variable {α β γ κ σ : Type}

/-- From `start` on the loop goes through these rounds, each named by where it starts,
and ends like this. -/
inductive Loops (step : α → EStateM Error σ (α ⊕ β)) :
    (start : α) → (before : σ) → (rounds : List α) → EStateM.Result Error σ β → Prop
  | answers {current : α} {answer : β} {before after : σ} :
      step current before = .ok (.inr answer) after →
      Loops step current before [current] (.ok answer after)
  | fails {current : α} {error : Error} {before after : σ} :
      step current before = .error error after →
      Loops step current before [current] (.error error after)
  | goesOn {current next : α} {before between : σ} {rounds : List α}
      {outcome : EStateM.Result Error σ β} :
      step current before = .ok (.inl next) between →
      Loops step next between rounds outcome →
      Loops step current before (current :: rounds) outcome

/-- The loop that works off what is pending. -/
inductive Empties (visit : γ → α → EStateM Error σ (γ × List α)) :
    (result : γ) → (pending : List α) → (before : σ) → (rounds : List α) →
      EStateM.Result Error σ γ → Prop
  | ends {result : γ} {state : σ} : Empties visit result [] state [] (.ok result state)
  | fails {result : γ} {current : α} {pending : List α} {error : Error}
      {before after : σ} :
      visit result current before = .error error after →
      Empties visit result (current :: pending) before [current] (.error error after)
  | goesOn {result further : γ} {current : α} {below pending rounds : List α}
      {before between : σ} {outcome : EStateM.Result Error σ γ} :
      visit result current before = .ok (further, below) between →
      Empties visit further (below ++ pending) between rounds outcome →
      Empties visit result (current :: pending) before (current :: rounds) outcome

abbrev stateless (step : α → Except Error β) : α → EStateM Error Unit β :=
  fun item => liftM (step item)

theorem liftM_eq_ok {act : Except Error β} {result : β} {before after : Unit} :
    (liftM act : EStateM Error Unit β) before = .ok result after ↔ act = .ok result := by
  rw [run_lift]
  cases act with
  | error error => exact ⟨nofun, nofun⟩
  | ok found => simp

theorem follow_stateless (step : α → Except Error (α ⊕ β)) (bound : Nat) (start : α) :
    follow (stateless step) bound start = liftM (follow step bound start) := by
  induction bound generalizing start with
  | zero => rfl
  | succ bound induction =>
      rw [follow, follow, liftM_bind]
      refine bind_congr fun outcome => ?_
      cases outcome with
      | inl next => exact induction next
      | inr answer => rfl

theorem exhaust_stateless (visit : γ → α → Except Error (γ × List α)) (bound : Nat)
    (result : γ) (pending : List α) :
    exhaust (fun result => stateless (visit result)) bound result pending =
      liftM (exhaust visit bound result pending) := by
  induction bound generalizing result pending with
  | zero => cases pending <;> rfl
  | succ bound induction =>
      cases pending with
      | nil => rfl
      | cons current pending =>
          rw [exhaust_cons, exhaust_cons, liftM_bind]
          exact bind_congr fun outcome => induction outcome.1 _

namespace Loops

variable {step : α → EStateM Error σ (α ⊕ β)} {start : α} {before : σ}
  {rounds others : List α} {outcome other : EStateM.Result Error σ β}

theorem follow_eq (loops : Loops step start before rounds outcome) {bound : Nat}
    (enough : rounds.length ≤ bound) : follow step bound start before = outcome := by
  induction loops generalizing bound with
  | answers stepped =>
      cases bound with
      | zero => cases enough
      | succ bound => rw [run_follow, stepped]
  | fails stepped =>
      cases bound with
      | zero => cases enough
      | succ bound => rw [run_follow, stepped]
  | goesOn stepped _ induction =>
      cases bound with
      | zero => cases enough
      | succ bound =>
          rw [run_follow, stepped]
          exact induction (Nat.le_of_succ_le_succ enough)

theorem unique (loops : Loops step start before rounds outcome)
    (again : Loops step start before others other) :
    rounds = others ∧ outcome = other := by
  induction loops generalizing others with
  | answers stepped =>
      cases again with
      | answers same =>
          cases stepped.symm.trans same
          exact ⟨rfl, rfl⟩
      | fails same => cases stepped.symm.trans same
      | goesOn same _ => cases stepped.symm.trans same
  | fails stepped =>
      cases again with
      | answers same => cases stepped.symm.trans same
      | fails same =>
          cases stepped.symm.trans same
          exact ⟨rfl, rfl⟩
      | goesOn same _ => cases stepped.symm.trans same
  | goesOn stepped _ induction =>
      cases again with
      | answers same => cases stepped.symm.trans same
      | fails same => cases stepped.symm.trans same
      | goesOn same rest =>
          cases stepped.symm.trans same
          obtain ⟨rfl, rfl⟩ := induction rest
          exact ⟨rfl, rfl⟩

/-- A loop ends whose every round uses up the first of the items ahead of it; what it
uses up stands in their order. A round that stands at no item has to answer. -/
theorem exists_of_ahead {place : α → Option κ} {ahead : α → σ → List κ → Prop}
    (answers : ∀ {current before items}, ahead current before items →
      place current = none → ∃ answer after, step current before = .ok (.inr answer) after)
    (uses : ∀ {current before items item}, ahead current before items →
      place current = some item → ∃ rest, items = item :: rest ∧
        ∀ next between, step current before = .ok (.inl next) between →
          ∃ later, ahead next between later ∧ later.Sublist rest)
    {items : List κ} (isAhead : ahead start before items) :
    ∃ rounds outcome, Loops step start before rounds outcome ∧
      (rounds.filterMap place).Sublist items ∧ rounds.length ≤ items.length + 1 := by
  induction measured : items.length using Nat.strongRecOn
    generalizing start before items with
  | _ length induction =>
      subst measured
      cases isPlace : place start with
      | none =>
          obtain ⟨answer, after, stepped⟩ := answers isAhead isPlace
          exact ⟨_, _, .answers stepped, by simp [isPlace], by simp⟩
      | some item =>
          obtain ⟨rest, rfl, later⟩ := uses isAhead isPlace
          cases stepped : step start before with
          | error error after =>
              exact ⟨_, _, .fails stepped, by simp [isPlace], by simp⟩
          | ok outcome between =>
              cases outcome with
              | inr answer => exact ⟨_, _, .answers stepped, by simp [isPlace], by simp⟩
              | inl next =>
                  obtain ⟨items, isAhead, fewer⟩ := later next between stepped
                  have := fewer.length_le
                  obtain ⟨rounds, outcome, loops, inOrder, few⟩ :=
                    induction items.length (by simp; omega) isAhead rfl
                  refine ⟨_, _, .goesOn stepped loops, ?_, by simp; omega⟩
                  rw [List.filterMap_cons_some isPlace]
                  exact (inOrder.trans fewer).cons_cons item

end Loops

namespace Empties

variable {visit other : γ → α → EStateM Error σ (γ × List α)} {result : γ}
  {pending rounds : List α} {before : σ} {outcome : EStateM.Result Error σ γ}

theorem exhaust_eq (empties : Empties visit result pending before rounds outcome)
    {bound : Nat} (enough : rounds.length ≤ bound) :
    exhaust visit bound result pending before = outcome := by
  induction empties generalizing bound with
  | ends => rw [exhaust_nil, run_pure]
  | fails visited =>
      cases bound with
      | zero => cases enough
      | succ bound => rw [exhaust_cons, run_bind, visited]
  | goesOn visited _ induction =>
      cases bound with
      | zero => cases enough
      | succ bound =>
          rw [exhaust_cons, run_bind, visited]
          exact induction (Nat.le_of_succ_le_succ enough)

theorem congr {kept : σ → Prop} {fit : σ → α → Prop}
    (same : ∀ result current before, kept before → fit before current →
      visit result current before = other result current before)
    (stays : ∀ result current before outcome after, kept before →
      fit before current → other result current before = .ok outcome after →
      kept after ∧ (∀ item ∈ outcome.2, fit after item) ∧
        ∀ item, fit before item → fit after item)
    (empties : Empties other result pending before rounds outcome)
    (start : kept before) (ready : ∀ item ∈ pending, fit before item) :
    Empties visit result pending before rounds outcome := by
  induction empties with
  | ends => exact .ends
  | fails visited =>
      exact .fails ((same _ _ _ start (ready _ (by simp))).trans visited)
  | goesOn visited _ induction =>
      have fits := ready _ List.mem_cons_self
      obtain ⟨keeps, below, later⟩ := stays _ _ _ _ _ start fits visited
      refine .goesOn ((same _ _ _ start fits).trans visited)
        (induction keeps fun item member => ?_)
      rcases List.mem_append.mp member with isBelow | isPending
      · exact below item isBelow
      · exact later item (ready item (by simp [isPending]))

/-- Where each visit that succeeds turns up what is listed below its place, the rounds
are the first of those listed. -/
theorem exists_of_listing {below : κ → List κ → Prop} {place : α → κ}
    {first order : List κ} (listing : Listing below first order)
    (turnsUp : ∀ result current before further lower between children,
      below (place current) children →
      visit result current before = .ok (further, lower) between →
      lower.map place = children)
    (placed : pending.map place = first) (result : γ) (before : σ) :
    ∃ rounds outcome, Empties visit result pending before rounds outcome ∧
      rounds.map place <+: order := by
  induction listing generalizing pending result before with
  | nil =>
      obtain rfl := List.map_eq_nil_iff.mp placed
      exact ⟨[], _, .ends, List.prefix_refl _⟩
  | cons known _ induction =>
      obtain ⟨current, pending, rfl, rfl, rfl⟩ := List.map_eq_cons_iff.mp placed
      cases visited : visit result current before with
      | error error after =>
          exact ⟨_, _, .fails visited, by simp⟩
      | ok found between =>
          obtain ⟨further, lower⟩ := found
          obtain rfl := turnsUp _ _ _ _ _ _ _ known visited
          obtain ⟨rounds, outcome, empties, inOrder⟩ :=
            induction (List.map_append ..) further between
          exact ⟨_, _, .goesOn visited empties, by
            simpa [List.cons_prefix_cons] using inOrder⟩

end Empties

end LinkedBTree
