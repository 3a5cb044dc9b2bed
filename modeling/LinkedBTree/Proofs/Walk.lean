import LinkedBTree.Walk
import LinkedBTree.Proofs.Outcome

namespace LinkedBTree

/-! Following links step by step, in the two kinds of effect that occur. -/

section

variable {σ α β γ : Type}

theorem follow_next {step : α → Except Error (α ⊕ β)} {current next : α}
    (stepped : step current = .ok (.inl next)) (bound : Nat) :
    follow step (bound + 1) current = follow step bound next := by
  rw [follow, bind_of_ok stepped]

theorem follow_answer {step : α → Except Error (α ⊕ β)} {current : α}
    {answer : β} (stepped : step current = .ok (.inr answer)) (bound : Nat) :
    follow step (bound + 1) current = .ok answer := by
  rw [follow, bind_of_ok stepped]
  rfl

theorem foldlM_gathers {act : List β → α → Except Error (List β)} {read : α → List β}
    {items : List α}
    (acts : ∀ item ∈ items, ∀ seen, act seen item = .ok ((read item).reverse ++ seen))
    (seen : List β) :
    items.foldlM act seen = .ok ((items.flatMap read).reverse ++ seen) := by
  induction items generalizing seen with
  | nil => rfl
  | cons item rest induction =>
      rw [List.foldlM_cons, bind_of_ok (acts item List.mem_cons_self seen),
        induction fun other member => acts other (List.mem_cons_of_mem _ member)]
      simp

theorem run_follow (step : α → EStateM Error σ (α ⊕ β)) (bound : Nat)
    (current : α) (state : σ) :
    follow step (bound + 1) current state =
      match step current state with
      | .ok (.inl next) after => follow step bound next after
      | .ok (.inr answer) after => .ok answer after
      | .error error after => .error error after := by
  rw [follow, run_bind]
  cases step current state with
  | error error after => rfl
  | ok outcome after => cases outcome <;> rfl

end

section

variable {m : Type → Type} [Monad m] {α γ : Type}

theorem foldlM_congr {act other : γ → α → m γ} {items : List α}
    (same : ∀ item ∈ items, ∀ result, act result item = other result item)
    (result : γ) : items.foldlM act result = items.foldlM other result := by
  induction items generalizing result with
  | nil => rfl
  | cons item rest induction =>
      rw [List.foldlM_cons, List.foldlM_cons, same item List.mem_cons_self]
      exact bind_congr fun result =>
        induction (fun other member => same other (List.mem_cons_of_mem _ member)) result

variable [MonadExceptOf Error m]

theorem exhaust_cons (visit : γ → α → m (γ × List α)) (bound : Nat)
    (result : γ) (current : α) (pending : List α) :
    exhaust visit (bound + 1) result (current :: pending) = (do
      let (result, below) ← visit result current
      exhaust visit bound result (below ++ pending)) := rfl

/-- What every visit keeps a whole walk keeps, if what is pending stays fit to
be visited. -/
theorem exhaust_reached {σ : Type} {kept : σ → Prop} {fit : σ → α → Prop}
    {visit : γ → α → EStateM Error σ (γ × List α)}
    (keeps : ∀ result current before, kept before → fit before current →
      kept (reached (visit result current before)))
    (stays : ∀ result current before outcome after, kept before →
      fit before current → visit result current before = .ok outcome after →
      (∀ item ∈ outcome.2, fit after item) ∧
        ∀ item, fit before item → fit after item)
    (bound : Nat) (result : γ) (pending : List α) (before : σ)
    (start : kept before) (ready : ∀ item ∈ pending, fit before item) :
    kept (reached (exhaust visit bound result pending before)) := by
  induction bound generalizing result pending before with
  | zero => cases pending <;> exact start
  | succ bound induction =>
      cases pending with
      | nil => exact start
      | cons current pending =>
          have fits := ready current (by simp)
          have keeps := keeps result current before start fits
          rw [exhaust_cons]
          apply reached_bind keeps
          intro outcome between done
          rw [done] at keeps
          obtain ⟨below, later⟩ :=
            stays result current before outcome between start fits done
          apply induction outcome.1 _ between keeps
          intro item member
          rcases List.mem_append.mp member with isBelow | isPending
          · exact below item isBelow
          · exact later item (ready item (by simp [isPending]))

theorem exhaust_congr {σ : Type} {kept : σ → Prop} {fit : σ → α → Prop}
    {visit other : γ → α → EStateM Error σ (γ × List α)}
    (same : ∀ result current before, kept before → fit before current →
      visit result current before = other result current before)
    (stays : ∀ result current before outcome after, kept before →
      fit before current → other result current before = .ok outcome after →
      kept after ∧ (∀ item ∈ outcome.2, fit after item) ∧
        ∀ item, fit before item → fit after item)
    (bound : Nat) (result : γ) (pending : List α) (before : σ)
    (start : kept before) (ready : ∀ item ∈ pending, fit before item) :
    exhaust visit bound result pending before =
      exhaust other bound result pending before := by
  induction bound generalizing result pending before with
  | zero => cases pending <;> rfl
  | succ bound induction =>
      cases pending with
      | nil => rfl
      | cons current pending =>
          have fits := ready current (by simp)
          rw [exhaust_cons, exhaust_cons, run_bind, run_bind,
            same result current before start fits]
          cases done : other result current before with
          | error error after => rfl
          | ok outcome between =>
              obtain ⟨keeps, below, later⟩ :=
                stays result current before outcome between start fits done
              refine induction outcome.1 _ between keeps fun item member => ?_
              rcases List.mem_append.mp member with isBelow | isPending
              · exact below item isBelow
              · exact later item (ready item (by simp [isPending]))

/-- The order in which a walk gets to everything from `pending` down, if
`below` says what stands directly below what. -/
inductive Listing (below : α → List α → Prop) : List α → List α → Prop
  | nil : Listing below [] []
  | cons {current : α} {children pending order : List α} :
      below current children → Listing below (children ++ pending) order →
      Listing below (current :: pending) (current :: order)

namespace Listing

variable {below : α → List α → Prop} {first second order others : List α}

theorem append (left : Listing below first order)
    (right : Listing below second others) :
    Listing below (first ++ second) (order ++ others) := by
  induction left with
  | nil => exact right
  | cons known _ induction =>
      rw [List.cons_append, List.cons_append]
      refine .cons known ?_
      rw [← List.append_assoc]
      exact induction

theorem flatMap {β : Type} {items : List β} {label : β → α}
    {orderOf : β → List α}
    (each : ∀ item ∈ items, Listing below [label item] (orderOf item)) :
    Listing below (items.map label) (items.flatMap orderOf) := by
  induction items with
  | nil => exact .nil
  | cons item rest induction =>
      rw [List.map_cons, List.flatMap_cons]
      exact (each item (by simp)).append
        (induction fun other member => each other (by simp [member]))

theorem imp {other : α → List α → Prop} (listing : Listing below first order)
    (same : ∀ current ∈ order, ∀ children, below current children →
      other current children) : Listing other first order := by
  induction listing with
  | nil => exact .nil
  | cons known _ induction =>
      exact .cons (same _ (by simp) _ known)
        (induction fun current member => same current (by simp [member]))

theorem unique (listing : Listing below first order) (again : Listing below first others)
    (functional : ∀ current children twins, below current children →
      below current twins → children = twins) : order = others := by
  induction listing generalizing others with
  | nil =>
      cases again
      rfl
  | cons known _ induction =>
      cases again with
      | cons alsoKnown rest =>
          obtain rfl := functional _ _ _ known alsoKnown
          rw [induction rest]

/-- Where a visit finds what the listing says is below, the walk does the
visits in the order listed, and comes to its end within the bound. -/
theorem exhaust_eq [LawfulMonad m] {visit : γ → α → m (γ × List α)}
    {act : γ → α → m γ} (listing : Listing below first order)
    (visits : ∀ current ∈ order, ∀ children, below current children →
      ∀ result, visit result current =
        (fun result => (result, children)) <$> act result current)
    {bound : Nat} (enough : order.length ≤ bound) (result : γ) :
    exhaust visit bound result first = order.foldlM act result := by
  induction listing generalizing bound result with
  | nil => simp
  | @cons current children pending order known _ induction =>
      obtain ⟨bound, rfl⟩ := Nat.exists_eq_succ_of_ne_zero
        (by simp at enough; omega : bound ≠ 0)
      rw [exhaust_cons, visits current (by simp) children known,
        List.foldlM_cons, bind_map_left]
      apply bind_congr
      intro result
      exact induction (fun other member => visits other (by simp [member]))
        (by simpa using enough) result

end Listing

end

end LinkedBTree
