import LinkedBTree.Proofs.Walk

namespace LinkedBTree

/-! What a sequence of steps maintains, wherever it breaks off, if each step does. -/

variable {α β γ σ : Type}

/-- However `act` ends, it leaves a state that is fit if it has found one. -/
def Maintains (fit : σ → Prop) (act : EStateM Error σ β) : Prop :=
  ∀ before, fit before → fit (reached (act before))

namespace Maintains

variable {fit : σ → Prop} {act : EStateM Error σ β} {next : β → EStateM Error σ γ}

theorem pure (result : β) : Maintains fit (pure result) := fun _ => id

theorem throw (error : Error) : Maintains fit (throw error : EStateM Error σ β) :=
  fun _ => id

theorem get : Maintains fit (get : EStateM Error σ σ) := fun _ => id

theorem lift (step : Except Error β) : Maintains fit (liftM step : EStateM Error σ β) := by
  intro before isFit
  rw [run_lift]
  cases step <;> exact isFit

theorem bind (first : Maintains fit act) (later : ∀ result, Maintains fit (next result)) :
    Maintains fit (act >>= next) := by
  intro before isFit
  have stops := first before isFit
  refine reached_bind stops fun result between done => ?_
  rw [done] at stops
  exact later result between stops

theorem ite {chosen : Prop} [Decidable chosen] {other : EStateM Error σ β}
    (first : Maintains fit act) (second : Maintains fit other) :
    Maintains fit (if chosen then act else other) := by
  by_cases isChosen : chosen
  · rwa [if_pos isChosen]
  · rwa [if_neg isChosen]

theorem guard {refused : Prop} {_ : Decidable refused} {what : Cause}
    {goesOn : Unit → EStateM Error σ β} (onwards : ∀ passed, Maintains fit (goesOn passed)) :
    Maintains fit (if refused then raise what >>= goesOn else goesOn ()) :=
  ite ((throw (.cause what)).bind onwards) (onwards ())

theorem tryCatch {handler : Error → EStateM Error σ β} (first : Maintains fit act)
    (handles : ∀ error, Maintains fit (handler error)) :
    Maintains fit (tryCatch act handler) := by
  intro before isFit
  have stops := first before isFit
  rw [run_tryCatch]
  cases done : act before with
  | ok result after =>
      rw [done] at stops
      exact stops
  | error error after =>
      rw [done] at stops
      exact handles error after stops

theorem within (text : String) (first : Maintains fit act) :
    Maintains fit (within text act) :=
  first.tryCatch fun error => throw (.context text error)

theorem follow {step : α → EStateM Error σ (α ⊕ β)}
    (steps : ∀ current, Maintains fit (step current)) (bound : Nat) (start : α) :
    Maintains fit (follow step bound start) := by
  induction bound generalizing start with
  | zero => exact throw _
  | succ bound induction =>
      refine (steps start).bind fun outcome => ?_
      cases outcome with
      | inl next => exact induction next
      | inr answer => exact pure answer

theorem forM {act : α → EStateM Error σ PUnit} (each : ∀ item, Maintains fit (act item))
    (items : List α) : Maintains fit (items.forM act) := by
  induction items with
  | nil => exact pure _
  | cons item rest induction => exact (each item).bind fun _ => induction

theorem exhaust {visit : γ → α → EStateM Error σ (γ × List α)}
    (visits : ∀ result current, Maintains fit (visit result current)) (bound : Nat)
    (result : γ) (pending : List α) : Maintains fit (exhaust visit bound result pending) := by
  induction bound generalizing result pending with
  | zero => cases pending with
    | nil => exact pure _
    | cons _ _ => exact throw _
  | succ bound induction => cases pending with
    | nil => exact pure _
    | cons current pending => exact (visits result current).bind fun _ => induction _ _

variable {τ : Type} {fit : τ → Prop}

theorem apply {edit : EStateM Error τ β} (first : Maintains fit edit) :
    Maintains (fun held : τ × σ => fit held.1) (Session.apply edit) := by
  intro (before, state) isFit
  have stops := first before isFit
  rw [run_apply]
  cases done : edit before with
  | ok result after => rwa [done] at stops
  | error error after => rwa [done] at stops

theorem consult (query : τ → EStateM Error σ β) :
    Maintains (fun held : τ × σ => fit held.1) (Session.consult query) := by
  intro (before, state) isFit
  rw [run_consult]
  cases query before state <;> exact isFit

end Maintains

end LinkedBTree
