import LinkedBTree.Session

namespace LinkedBTree

/-! Taking a sequence of steps apart: what its success or failure says about
each step. -/

variable {α β σ : Type}

theorem bind_eq_ok {first : Except Error α} {next : α → Except Error β}
    {result : β} :
    first >>= next = .ok result ↔
      ∃ middle, first = .ok middle ∧ next middle = .ok result := by
  cases first with
  | error error => exact ⟨nofun, nofun⟩
  | ok middle =>
      exact ⟨fun done => ⟨middle, rfl, done⟩, fun ⟨_, rfl, done⟩ => done⟩

theorem bind_of_ok {first : Except Error α} {next : α → Except Error β}
    {middle : α} (done : first = .ok middle) :
    first >>= next = next middle := by
  subst done
  rfl

@[simp] theorem ok_bind (middle : α) (next : α → Except Error β) :
    (.ok middle >>= next) = next middle := rfl

@[simp] theorem error_bind (error : Error) (next : α → Except Error β) :
    (.error error >>= next) = .error error := rfl

theorem guard_eq_ok {refused : Prop} [Decidable refused] {error : Error}
    {next : Except Error α} {result : α} :
    (if refused then .error error else next) = .ok result ↔
      ¬refused ∧ next = .ok result := by
  by_cases isRefused : refused
  · simp [isRefused]
  · simp [isRefused]

theorem run_bind (first : EStateM Error σ α) (next : α → EStateM Error σ β)
    (before : σ) :
    (first >>= next) before =
      match first before with
      | .ok middle between => next middle between
      | .error error after => .error error after := by
  show EStateM.bind first next before = _
  unfold EStateM.bind
  cases first before <;> rfl

theorem run_bind_of_ok {first : EStateM Error σ α}
    {next : α → EStateM Error σ β} {before between : σ} {middle : α}
    (done : first before = .ok middle between) :
    (first >>= next) before = next middle between := by
  rw [run_bind, done]

@[simp] theorem run_get (state : σ) :
    (get : EStateM Error σ σ) state = .ok state state := rfl

theorem run_get_bind (next : σ → EStateM Error σ β) (before : σ) :
    ((get : EStateM Error σ σ) >>= next) before = next before before := rfl

theorem run_bind_eq_ok {first : EStateM Error σ α}
    {next : α → EStateM Error σ β} {before after : σ} {result : β} :
    (first >>= next) before = .ok result after ↔
      ∃ middle between, first before = .ok middle between ∧
        next middle between = .ok result after := by
  rw [run_bind]
  cases first before with
  | error error state => exact ⟨nofun, nofun⟩
  | ok middle between =>
      exact ⟨fun done => ⟨middle, between, rfl, done⟩,
        fun ⟨_, _, rfl, done⟩ => done⟩

@[simp] theorem run_pure (result : α) (state : σ) :
    (pure result : EStateM Error σ α) state = .ok result state := rfl

@[simp] theorem run_throw (error : Error) (state : σ) :
    (throw error : EStateM Error σ α) state = .error error state := rfl

theorem run_forM_cons (act : α → EStateM Error σ PUnit) (item : α) (rest : List α)
    (before : σ) :
    (item :: rest).forM act before =
      match act item before with
      | .ok _ between => rest.forM act between
      | .error error after => .error error after := by
  show (act item >>= fun _ => rest.forM act) before = _
  rw [run_bind]
  cases act item before <;> rfl

theorem run_lift (step : Except Error α) (state : σ) :
    (liftM step : EStateM Error σ α) state =
      match step with
      | .ok result => .ok result state
      | .error error => .error error state := by
  cases step <;> rfl

instance : LawfulMonadLift (Except Error) (EStateM Error σ) where
  monadLift_pure _ := rfl
  monadLift_bind first next := by
    cases first <;> rfl

theorem run_lift_bind {step : Except Error α} {next : α → EStateM Error σ β}
    {middle : α} (done : step = .ok middle) (before : σ) :
    ((liftM step : EStateM Error σ α) >>= next) before = next middle before := by
  subst done
  rfl

theorem run_lift_bind_eq_ok {step : Except Error α}
    {next : α → EStateM Error σ β} {before after : σ} {result : β} :
    (liftM step >>= next) before = .ok result after ↔
      ∃ middle, step = .ok middle ∧ next middle before = .ok result after := by
  rw [run_bind, run_lift]
  cases step with
  | error error => exact ⟨nofun, nofun⟩
  | ok middle =>
      exact ⟨fun done => ⟨middle, rfl, done⟩, fun ⟨_, rfl, done⟩ => done⟩

theorem run_map (change : α → β) (act : EStateM Error σ α) (before : σ) :
    (change <$> act) before =
      match act before with
      | .ok result after => .ok (change result) after
      | .error error after => .error error after := by
  show EStateM.map change act before = _
  unfold EStateM.map
  cases act before <;> rfl

/-- The state after a run, whether it succeeded or not. -/
def reached : EStateM.Result Error σ α → σ
  | .ok _ after => after
  | .error _ after => after

@[simp] theorem reached_ok (result : α) (after : σ) :
    reached (.ok result after) = after := rfl

@[simp] theorem reached_error (error : Error) (after : σ) :
    reached (.error error after : EStateM.Result Error σ α) = after := rfl

@[simp] theorem reached_map (change : α → β) (act : EStateM Error σ α) (before : σ) :
    reached ((change <$> act) before) = reached (act before) := by
  rw [run_map]
  cases act before <;> rfl

theorem reached_consult {τ : Type} (query : τ → EStateM Error σ β) (held : τ) (state : σ) :
    reached (Session.consult query (held, state)) = (held, reached (query held state)) := by
  rw [run_consult]
  cases query held state <;> rfl

theorem reached_apply {τ : Type} (edit : EStateM Error τ β) (held : τ) (state : σ) :
    reached (Session.apply edit (held, state)) = (reached (edit held), state) := by
  rw [run_apply]
  cases edit held <;> rfl

def raised? : EStateM.Result Error σ α → Option Error
  | .ok _ _ => none
  | .error error _ => some error

@[simp] theorem raised?_ok (result : α) (after : σ) :
    raised? (.ok result after) = none := rfl

@[simp] theorem raised?_error (error : Error) (after : σ) :
    raised? (.error error after : EStateM.Result Error σ α) = some error := rfl

theorem raised?_eq_some {outcome : EStateM.Result Error σ α} {error : Error} :
    raised? outcome = some error ↔ ∃ after, outcome = .error error after := by
  cases outcome <;> simp

def returned? : EStateM.Result Error σ α → Option α
  | .ok result _ => some result
  | .error _ _ => none

theorem returned?_eq_some {outcome : EStateM.Result Error σ α} {result : α} :
    returned? outcome = some result ↔ ∃ after, outcome = .ok result after := by
  cases outcome <;> simp [returned?]

instance [DecidableEq σ] [DecidableEq α] : DecidableEq (EStateM.Result Error σ α)
  | .ok result after, .ok other last =>
      decidable_of_iff (result = other ∧ after = last) (by simp)
  | .error error after, .error other last =>
      decidable_of_iff (error = other ∧ after = last) (by simp)
  | .ok _ _, .error _ _ => isFalse nofun
  | .error _ _, .ok _ _ => isFalse nofun

theorem reached_bind {kept : σ → Prop} {first : EStateM Error σ α}
    {next : α → EStateM Error σ β} {before : σ}
    (stops : kept (reached (first before)))
    (continues : ∀ middle between, first before = .ok middle between →
      kept (reached (next middle between))) :
    kept (reached ((first >>= next) before)) := by
  rw [run_bind]
  cases done : first before with
  | error error after =>
      rw [done] at stops
      exact stops
  | ok middle between => exact continues middle between done

theorem run_within (text : String) (act : EStateM Error σ α) (before : σ) :
    (within text act) before =
      match act before with
      | .ok result after => .ok result after
      | .error error after => .error (.context text error) after := by
  show EStateM.tryCatch _ _ _ = _
  unfold EStateM.tryCatch
  simp only [EStateM.Backtrackable.restore, EStateM.dummyRestore]
  cases act before <;> rfl

theorem run_tryCatch (act : EStateM Error σ α)
    (handler : Error → EStateM Error σ α) (before : σ) :
    (tryCatch act handler) before =
      match act before with
      | .ok result after => .ok result after
      | .error error after => handler error after := by
  show EStateM.tryCatch _ _ _ = _
  unfold EStateM.tryCatch
  simp only [EStateM.Backtrackable.restore, EStateM.dummyRestore]
  cases act before <;> rfl

end LinkedBTree
