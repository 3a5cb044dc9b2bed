import LinkedBTree.Error.Basic

namespace LinkedBTree

/-! Two ways of following links: along one path, and through everything below
some starting points. Both are given a bound on the number of visits; on
well-formed links it is never reached. -/

variable {m : Type → Type} [Monad m] [MonadExceptOf Error m] {α β γ : Type}

/-- Steps from `start` until a step answers, at most `bound` times. -/
@[specialize]
def follow (step : α → m (α ⊕ β)) : (bound : Nat) → (start : α) → m β
  | 0, _ => raise .endlessLinks
  | bound + 1, current => do
      match ← step current with
      | .inl next => follow step bound next
      | .inr answer => pure answer

/-- Visits everything pending, the first first. What a visit turns up comes
before whatever else is pending. -/
@[specialize]
def exhaust (visit : γ → α → m (γ × List α)) :
    (bound : Nat) → (result : γ) → (pending : List α) → m γ
  | _, result, [] => pure result
  | 0, _, _ :: _ => raise .endlessLinks
  | bound + 1, result, current :: pending => do
      let (result, below) ← visit result current
      exhaust visit bound result (below ++ pending)

@[simp] theorem exhaust_nil (visit : γ → α → m (γ × List α)) (bound : Nat)
    (result : γ) : exhaust visit bound result [] = pure result := by
  cases bound <;> rfl

end LinkedBTree
