import LinkedBTree.Error.Basic

namespace LinkedBTree

/-! Work that goes on beside a procedure of the caller, which may keep a state
of its own. -/

/-- Works on a `τ` and on the caller's state. What was changed before an error
stays changed. -/
abbrev Session (σ τ : Type) : Type → Type :=
  EStateM Error (τ × σ)

namespace Session

variable {σ τ β : Type}

/-- Lets the caller's procedure answer about things as they stand. -/
def consult (query : τ → EStateM Error σ β) : Session σ τ β :=
  fun (held, state) =>
    match query held state with
    | .ok answer state => .ok answer (held, state)
    | .error error state => .error error (held, state)

def apply (edit : EStateM Error τ β) : Session σ τ β := fun (held, state) =>
  match edit held with
  | .ok answer held => .ok answer (held, state)
  | .error error held => .error error (held, state)

end Session

theorem run_consult {σ τ β : Type} (query : τ → EStateM Error σ β) (held : τ)
    (state : σ) : Session.consult query (held, state) =
      match query held state with
      | .ok answer state => .ok answer (held, state)
      | .error error state => .error error (held, state) := rfl

theorem run_apply {σ τ β : Type} (edit : EStateM Error τ β) (held : τ)
    (state : σ) : Session.apply edit (held, state) =
      match edit held with
      | .ok answer held => .ok answer (held, state)
      | .error error held => .error error (held, state) := rfl

end LinkedBTree
