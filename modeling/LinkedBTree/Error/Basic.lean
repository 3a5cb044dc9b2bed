import LinkedBTree.Error.Cause

namespace LinkedBTree

/-! An error is a cause with the contexts that operations put around it on its
way out. -/

inductive Error
  | cause (what : Cause)
  | context (text : String) (source : Error)
  deriving DecidableEq, Repr

namespace Error

def message : Error → String
  | cause what => what.message
  | context text _ => text

def root : Error → Cause
  | cause what => what
  | context _ source => source.root

def chain : Error → List Error
  | cause what => [cause what]
  | context text source => context text source :: source.chain

def kind (error : Error) : ErrorClass :=
  error.root.category.kind

@[simp] theorem root_cause (what : Cause) : (cause what).root = what := rfl

@[simp] theorem root_context (text : String) (source : Error) :
    (context text source).root = source.root := rfl

end Error

abbrev raise {m : Type → Type} {α : Type} [MonadExceptOf Error m]
    (what : Cause) : m α :=
  throw (.cause what)

instance {σ : Type} : MonadLift (Except Error) (EStateM Error σ) where
  monadLift
    | .ok result => pure result
    | .error error => throw error

/-- Puts a context around what `act` may raise; the state it reached stays. -/
abbrev within {m : Type → Type} {α : Type} [MonadExceptOf Error m]
    (text : String) (act : m α) : m α :=
  tryCatch act fun error => throw (.context text error)

end LinkedBTree
