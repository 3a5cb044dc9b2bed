import LinkedBTree.Proofs.Outcome

namespace LinkedBTree

/-! A run with a state of its own, next to that of its caller, which does to the
caller's state what another run does. -/

variable {β γ δ ε σ : Type}

/-- From `own` on, `act` fails where `calls` fails, with the same error, and else
comes to a good end. The caller sees no difference. -/
def Echoes (calls : EStateM Error σ γ) (act : EStateM Error (δ × σ) β) (own : δ)
    (good : γ → β → δ → Prop) : Prop :=
  ∀ state, match calls state with
    | .ok made after =>
        ∃ result last, act (own, state) = .ok result (last, after) ∧
          good made result last
    | .error error after => ∃ last, act (own, state) = .error error (last, after)

/-- A run for the sake of what it does alone. -/
def mute (act : EStateM Error σ β) : EStateM Error σ Unit := do
  let _ ← act
  pure ()

theorem mute_map (change : β → γ) (act : EStateM Error σ β) :
    mute (change <$> act) = mute act := by
  simp [mute]

theorem mute_both (first : EStateM Error σ β) (second : EStateM Error σ γ)
    (join : β → γ → δ) :
    mute (do return join (← first) (← second)) = (do mute first; mute second) := by
  simp [mute]

namespace Echoes

variable {calls : EStateM Error σ γ} {act : EStateM Error (δ × σ) β} {own : δ}
  {good : γ → β → δ → Prop}

theorem cases (echoes : Echoes calls act own good) (state : σ) :
    (∃ made result last after, calls state = .ok made after ∧
      act (own, state) = .ok result (last, after) ∧ good made result last) ∨
    ∃ error last after, calls state = .error error after ∧
      act (own, state) = .error error (last, after) := by
  have told := echoes state
  cases outcome : calls state with
  | ok made after =>
      rw [outcome] at told
      obtain ⟨result, last, done, isGood⟩ := told
      exact .inl ⟨made, result, last, after, rfl, done, isGood⟩
  | error error after =>
      rw [outcome] at told
      obtain ⟨last, failed⟩ := told
      exact .inr ⟨error, last, after, rfl, failed⟩

theorem pure {made : γ} {result : β} (isGood : good made result own) :
    Echoes (Pure.pure made : EStateM Error σ γ) (Pure.pure result) own good :=
  fun _ => ⟨result, own, rfl, isGood⟩

theorem bind {later : γ → EStateM Error σ ε} {η : Type}
    {next : β → EStateM Error (δ × σ) η} {better : ε → η → δ → Prop}
    (echoes : Echoes calls act own good)
    (rest : ∀ made result last, good made result last →
      Echoes (later made) (next result) last better) :
    Echoes (calls >>= later) (act >>= next) own better := by
  intro state
  rw [run_bind]
  rcases echoes.cases state with
    ⟨made, result, last, after, called, done, isGood⟩ |
    ⟨error, last, after, called, failed⟩
  · rw [called, run_bind_of_ok done]
    exact rest made result last isGood after
  · rw [called]
    exact ⟨last, by rw [run_bind, failed]⟩

theorem after {first : EStateM Error (δ × σ) ε} {next : ε → EStateM Error (δ × σ) β}
    {middle : ε} {between : δ}
    (done : ∀ state, first (own, state) = .ok middle (between, state))
    (echoes : Echoes calls (next middle) between good) :
    Echoes calls (first >>= next) own good := by
  intro state
  rw [run_bind_of_ok (done state)]
  exact echoes state

theorem of_mute {η : Type} {other : EStateM Error (δ × σ) η} {good : γ → δ → Prop}
    (same : mute act = mute other)
    (echoes : Echoes calls other own fun made _ last => good made last) :
    Echoes calls act own fun made _ last => good made last := by
  intro state
  have same := congrFun same (own, state)
  rw [mute, mute, run_bind, run_bind] at same
  rcases echoes.cases state with
    ⟨made, _, last, after, called, done, isGood⟩ | ⟨error, last, after, called, failed⟩
  · rw [called]
    rw [done] at same
    cases outcome : act (own, state) <;> rw [outcome] at same <;> cases same
    exact ⟨_, last, rfl, isGood⟩
  · rw [called]
    rw [failed] at same
    cases outcome : act (own, state) <;> rw [outcome] at same <;> cases same
    exact ⟨last, rfl⟩

end Echoes

end LinkedBTree
