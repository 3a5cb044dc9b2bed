import LinkedBTree.Comparator
import LinkedBTree.Proofs.Walk

namespace LinkedBTree

/-! What a run comes to whatever state it starts in. One that asks a comparator
learns from it only what it answers. -/

variable {α β γ σ : Type}

namespace Comparator

/-- Every answer depends on the two values alone. -/
def Steady (compare : Comparator σ α) (answer : α → α → Ordering) : Prop :=
  ∀ left right state result after,
    compare left right state = .ok result after → result = answer left right

/-- No call fails. -/
def Answers (compare : Comparator σ α) (answer : α → α → Ordering) : Prop :=
  ∀ left right state, ∃ after,
    compare left right state = .ok (answer left right) after

/-- Some call fails for this reason, and leaves this state behind. -/
def Raises (compare : Comparator σ α) (what : Cause) (after : σ) : Prop :=
  ∃ left right state error,
    compare left right state = .error error after ∧ error.root = what

def answering (answer : α → α → Ordering) : Comparator Unit α :=
  fun left right state => .ok (answer left right) state

theorem steady_answering (answer : α → α → Ordering) :
    (answering answer).Steady answer := by
  intro left right state result after done
  exact (EStateM.Result.ok.inj done).1.symm

theorem answers_answering (answer : α → α → Ordering) :
    (answering answer).Answers answer :=
  fun _ _ state => ⟨state, rfl⟩

section

variable {compare : Comparator σ α} {answer : α → α → Ordering}
  (answers : compare.Answers answer)
include answers

theorem Answers.steady : compare.Steady answer := by
  intro left right state result after done
  obtain ⟨last, answered⟩ := answers left right state
  cases answered.symm.trans done
  rfl

theorem Answers.not_raises (what : Cause) (after : σ) : ¬compare.Raises what after := by
  rintro ⟨left, right, state, error, failed, _⟩
  obtain ⟨last, answered⟩ := answers left right state
  cases answered.symm.trans failed

end

end Comparator

/-- A run succeeds with a good result, or fails for one of these causes. -/
def Meets (fails : Cause → σ → Prop) (act : EStateM Error σ β)
    (good : β → Prop) : Prop :=
  ∀ state, match act state with
    | .ok result _ => good result
    | .error error after => fails error.root after

namespace Meets

variable {fails others : Cause → σ → Prop} {good middle : β → Prop}

theorem cases {act : EStateM Error σ β} (meets : Meets fails act good)
    (state : σ) :
    (∃ result after, act state = .ok result after ∧ good result) ∨
      ∃ error after, act state = .error error after ∧ fails error.root after := by
  have told := meets state
  cases outcome : act state with
  | ok result after =>
      rw [outcome] at told
      exact .inl ⟨result, after, rfl, told⟩
  | error error after =>
      rw [outcome] at told
      exact .inr ⟨error, after, rfl, told⟩

theorem of_ok {act : EStateM Error σ β} {result : β} {state after : σ}
    (meets : Meets fails act good) (done : act state = .ok result after) :
    good result := by
  have told := meets state
  rwa [done] at told

theorem of_error {act : EStateM Error σ β} {error : Error} {state after : σ}
    (meets : Meets fails act good) (failed : act state = .error error after) :
    fails error.root after := by
  have told := meets state
  rwa [failed] at told

theorem pure {result : β} (holds : good result) :
    Meets fails (Pure.pure result : EStateM Error σ β) good :=
  fun _ => holds

theorem throw {error : Error} (known : ∀ state, fails error.root state) :
    Meets fails (MonadExcept.throw error : EStateM Error σ β) good :=
  known

theorem weaken {act : EStateM Error σ β} (meets : Meets fails act middle)
    (implies : ∀ result, middle result → good result)
    (allows : ∀ what after, fails what after → others what after) : Meets others act good := by
  intro state
  have told := meets state
  cases outcome : act state with
  | ok result after =>
      rw [outcome] at told
      exact implies result told
  | error error after =>
      rw [outcome] at told
      exact allows _ _ told

theorem bind {first : EStateM Error σ β} {next : β → EStateM Error σ γ}
    {last : γ → Prop} (meets : Meets fails first middle)
    (rest : ∀ result, middle result → Meets fails (next result) last) :
    Meets fails (first >>= next) last := by
  intro state
  have told := meets state
  rw [run_bind]
  cases outcome : first state with
  | ok result between =>
      rw [outcome] at told
      exact rest result told between
  | error error after =>
      rw [outcome] at told
      exact told

theorem lift_bind {step : Except Error γ} {next : γ → EStateM Error σ β}
    {known : γ} (done : step = .ok known)
    (rest : Meets fails (next known) good) :
    Meets fails (liftM step >>= next) good := by
  intro state
  rw [run_lift_bind done]
  exact rest state

theorem asked (compare : Comparator σ α) (left right : α) :
    Meets compare.Raises (compare left right) fun ordering =>
      ∀ answer, compare.Steady answer → ordering = answer left right := by
  intro state
  cases outcome : compare left right state with
  | ok ordering after =>
      exact fun answer steady => steady left right state ordering after outcome
  | error error after => exact ⟨left, right, state, error, outcome, rfl⟩

end Meets

/-- From the one kind of state a run leads to the other, or fails for one of
these causes. -/
def Leads (fails : Cause → σ → Prop) (before : σ → Prop)
    (act : EStateM Error σ β) (after : β → σ → Prop) : Prop :=
  ∀ state, before state → match act state with
    | .ok result last => after result last
    | .error error last => fails error.root last

namespace Leads

variable {fails : Cause → σ → Prop} {before : σ → Prop}
  {between after : β → σ → Prop}

theorem cases {act : EStateM Error σ β} (leads : Leads fails before act after)
    {state : σ} (start : before state) :
    (∃ result last, act state = .ok result last ∧ after result last) ∨
      ∃ error last, act state = .error error last ∧ fails error.root last := by
  have told := leads state start
  cases outcome : act state with
  | ok result last =>
      rw [outcome] at told
      exact .inl ⟨result, last, rfl, told⟩
  | error error last =>
      rw [outcome] at told
      exact .inr ⟨error, last, rfl, told⟩

theorem pure {result : β} (holds : ∀ state, before state → after result state) :
    Leads fails before (Pure.pure result) after :=
  holds

theorem weaken {others : Cause → σ → Prop} {act : EStateM Error σ β}
    (leads : Leads fails before act after)
    (causes : ∀ what state, fails what state → others what state) :
    Leads others before act after := by
  intro state start
  rcases leads.cases start with ⟨result, last, done, reached⟩ | ⟨error, last, failed, cause⟩
  · rw [done]
    exact reached
  · rw [failed]
    exact causes _ _ cause

theorem bind {act : EStateM Error σ β} {next : β → EStateM Error σ γ}
    {last : γ → σ → Prop} (leads : Leads fails before act between)
    (rest : ∀ result, Leads fails (between result) (next result) last) :
    Leads fails before (act >>= next) last := by
  intro state start
  rw [run_bind]
  rcases leads.cases start with ⟨result, middle, done, reached⟩ |
    ⟨error, middle, failed, cause⟩
  · rw [done]
    exact rest result middle reached
  · rw [failed]
    exact cause

end Leads

/-- Two runs come to the same state, with related results or for the same
cause. -/
def Alike (related : β → γ → Prop) (left : EStateM Error σ β)
    (right : EStateM Error σ γ) : Prop :=
  ∀ state, match left state, right state with
    | .ok result after, .ok other later => related result other ∧ after = later
    | .error error after, .error other later =>
        error.root = other.root ∧ after = later
    | _, _ => False

namespace Alike

variable {related between : β → γ → Prop} {left : EStateM Error σ β}
  {right : EStateM Error σ γ}

theorem cases (alike : Alike related left right) (state : σ) :
    (∃ result other after, left state = .ok result after ∧
      right state = .ok other after ∧ related result other) ∨
    ∃ error other after, left state = .error error after ∧
      right state = .error other after ∧ error.root = other.root := by
  have told := alike state
  cases outcome : left state with
  | ok result after =>
      cases again : right state with
      | ok other later =>
          rw [outcome, again] at told
          obtain ⟨isRelated, rfl⟩ := told
          exact .inl ⟨result, other, after, rfl, rfl, isRelated⟩
      | error error later =>
          rw [outcome, again] at told
          exact told.elim
  | error error after =>
      cases again : right state with
      | ok other later =>
          rw [outcome, again] at told
          exact told.elim
      | error other later =>
          rw [outcome, again] at told
          obtain ⟨same, rfl⟩ := told
          exact .inr ⟨error, other, after, rfl, rfl, same⟩

theorem of_ok {other : γ} {state after : σ} (alike : Alike related left right)
    (done : right state = .ok other after) :
    ∃ result, left state = .ok result after ∧ related result other := by
  rcases alike.cases state with
    ⟨result, _, _, isResult, again, isRelated⟩ | ⟨_, _, _, _, again, _⟩
  · obtain ⟨rfl, rfl⟩ := EStateM.Result.ok.inj (done.symm.trans again)
    exact ⟨result, isResult, isRelated⟩
  · cases done.symm.trans again

theorem of_error {other : Error} {state after : σ}
    (alike : Alike related left right) (failed : right state = .error other after) :
    ∃ error, left state = .error error after ∧ error.root = other.root := by
  rcases alike.cases state with
    ⟨_, _, _, _, again, _⟩ | ⟨error, _, _, isError, again, same⟩
  · cases failed.symm.trans again
  · obtain ⟨rfl, rfl⟩ := EStateM.Result.error.inj (failed.symm.trans again)
    exact ⟨error, isError, same⟩

theorem reached_eq (alike : Alike related left right) (state : σ) :
    reached (left state) = reached (right state) := by
  rcases alike.cases state with
    ⟨_, _, after, done, again, _⟩ | ⟨_, _, after, failed, again, _⟩
  · rw [done, again]
    rfl
  · rw [failed, again]
    rfl

theorem meets {fails others : Cause → σ → Prop} {good : γ → Prop}
    {known : β → Prop} (alike : Alike related left right)
    (meets : Meets fails right good)
    (implies : ∀ result other, related result other → good other → known result)
    (allows : ∀ what after, fails what after → others what after) :
    Meets others left known := by
  intro state
  rcases alike.cases state with
    ⟨result, other, after, done, again, isRelated⟩ |
    ⟨error, other, after, failed, again, same⟩
  · rw [done]
    exact implies result other isRelated (meets.of_ok again)
  · rw [failed]
    show others error.root after
    rw [same]
    exact allows _ _ (meets.of_error again)

theorem pure {result : β} {other : γ} (isRelated : related result other) :
    Alike related (Pure.pure result : EStateM Error σ β) (Pure.pure other) :=
  fun _ => ⟨isRelated, rfl⟩

theorem refl (act : EStateM Error σ β) : Alike (· = ·) act act := by
  intro state
  cases act state with
  | ok result after => exact ⟨rfl, rfl⟩
  | error error after => exact ⟨rfl, rfl⟩

theorem bind {δ ε : Type} {last : δ → ε → Prop} {next : β → EStateM Error σ δ}
    {later : γ → EStateM Error σ ε} (alike : Alike between left right)
    (rest : ∀ result other, between result other →
      Alike last (next result) (later other)) :
    Alike last (left >>= next) (right >>= later) := by
  intro state
  rw [run_bind, run_bind]
  rcases alike.cases state with
    ⟨result, other, after, done, again, isRelated⟩ |
    ⟨error, other, after, failed, again, same⟩
  · rw [done, again]
    exact rest result other isRelated after
  · rw [failed, again]
    exact ⟨same, rfl⟩

theorem lift_bind {δ : Type} {step : Except Error δ} {next : δ → EStateM Error σ β}
    {known : δ} (done : step = .ok known) (rest : Alike related (next known) right) :
    Alike related (liftM step >>= next) right := by
  subst done
  exact rest

theorem and_meets {fails : Cause → σ → Prop} {good : γ → Prop}
    (alike : Alike related left right) (meets : Meets fails right good) :
    Alike (fun result other => related result other ∧ good other) left right := by
  intro state
  have told := meets state
  rcases alike.cases state with
    ⟨result, other, after, done, again, isRelated⟩ |
    ⟨error, other, after, failed, again, same⟩
  · rw [again] at told
    rw [done, again]
    exact ⟨⟨isRelated, told⟩, rfl⟩
  · rw [failed, again]
    exact ⟨same, rfl⟩

theorem symm (alike : Alike related left right) :
    Alike (fun other result => related result other) right left := by
  intro state
  rcases alike.cases state with
    ⟨result, other, after, done, again, isRelated⟩ |
    ⟨error, other, after, failed, again, same⟩
  · rw [done, again]
    exact ⟨isRelated, rfl⟩
  · rw [failed, again]
    exact ⟨same.symm, rfl⟩

theorem trans {δ : Type} {others : γ → δ → Prop} {last : β → δ → Prop}
    {far : EStateM Error σ δ} (alike : Alike related left right)
    (further : Alike others right far)
    (joins : ∀ result middle other, related result middle → others middle other →
      last result other) : Alike last left far := by
  intro state
  rcases alike.cases state with
    ⟨result, middle, after, done, again, isRelated⟩ |
    ⟨error, middle, after, failed, again, same⟩
  · rcases further.cases state with
      ⟨_, other, _, redone, ends, isFurther⟩ | ⟨_, _, _, refused, _, _⟩
    · obtain ⟨rfl, rfl⟩ := EStateM.Result.ok.inj (again.symm.trans redone)
      rw [done, ends]
      exact ⟨joins result middle other isRelated isFurther, rfl⟩
    · cases again.symm.trans refused
  · rcases further.cases state with
      ⟨_, _, _, redone, _, _⟩ | ⟨_, other, _, refused, ends, alsoSame⟩
    · cases again.symm.trans redone
    · obtain ⟨rfl, rfl⟩ := EStateM.Result.error.inj (again.symm.trans refused)
      rw [failed, ends]
      exact ⟨same.trans alsoSame, rfl⟩

theorem within (text : String) (alike : Alike related left right) :
    Alike related (LinkedBTree.within text left) right := by
  intro state
  rw [run_within]
  rcases alike.cases state with
    ⟨result, other, after, done, again, isRelated⟩ |
    ⟨error, other, after, failed, again, same⟩
  · rw [done, again]
    exact ⟨isRelated, rfl⟩
  · rw [failed, again]
    exact ⟨same, rfl⟩

end Alike

/-- A run that succeeds, with a good result, exactly if this holds. Otherwise it
reports corruption. -/
def Verifies (holds : Prop) (act : EStateM Error σ β) (good : β → Prop) : Prop :=
  Meets (fun what _ => what.category = .corruption ∧ ¬holds) act
    fun result => holds ∧ good result

namespace Verifies

variable {holds others : Prop} {good middle : β → Prop}

theorem pure {result : β} (is : holds) (isGood : good result) :
    Verifies holds (Pure.pure result : EStateM Error σ β) good :=
  Meets.pure ⟨is, isGood⟩

theorem raise {what : Cause} (corrupt : what.category = .corruption)
    (not : ¬holds) :
    Verifies holds (LinkedBTree.raise what : EStateM Error σ β) good :=
  Meets.throw fun _ => ⟨corrupt, not⟩

theorem congr {act : EStateM Error σ β} (verifies : Verifies holds act good)
    (same : holds ↔ others) : Verifies others act good :=
  propext same ▸ verifies

theorem bind {first : EStateM Error σ β} {next : β → EStateM Error σ γ}
    {last : γ → Prop} (verifies : Verifies holds first middle)
    (rest : holds → ∀ result, middle result →
      Verifies others (next result) last) :
    Verifies (holds ∧ others) (first >>= next) last := by
  refine Meets.bind (Meets.weaken verifies (fun _ known => known) ?_) ?_
  · exact fun _ _ failed => ⟨failed.1, fun both => failed.2 both.1⟩
  · intro result known
    refine Meets.weaken (rest known.1 result known.2) ?_ ?_
    · exact fun _ last => ⟨⟨known.1, last.1⟩, last.2⟩
    · exact fun _ _ failed => ⟨failed.1, fun both => failed.2 both.2⟩

theorem fail_bind {first : EStateM Error σ β} {next : β → EStateM Error σ γ}
    {last : γ → Prop} (fails : Verifies False first middle) (not : ¬holds) :
    Verifies holds (first >>= next) last := by
  refine Meets.bind (Meets.weaken fails (fun _ known => known) ?_) ?_
  · exact fun _ _ failed => ⟨failed.1, not⟩
  · exact fun _ known => known.1.elim

theorem guard {violated : Prop} [Decidable violated] {what : Cause}
    {next : Unit → EStateM Error σ β} (corrupt : what.category = .corruption)
    (rest : ¬violated → Verifies holds (next ()) good) :
    Verifies (¬violated ∧ holds)
      (if violated then LinkedBTree.raise what >>= next else next ()) good := by
  by_cases fails : violated
  · rw [if_pos fails]
    refine Meets.bind (Meets.throw fun _ => ?_) fun _ (never : False) =>
      never.elim
    exact ⟨corrupt, fun both => both.1 fails⟩
  · rw [if_neg fails]
    exact (rest fails).congr ⟨fun is => ⟨fails, is⟩, fun both => both.2⟩

theorem require {found known : γ} [Decidable (found ≠ known)] {what : Cause}
    {next : Unit → EStateM Error σ β} (corrupt : what.category = .corruption)
    (rest : Verifies holds (next ()) good) :
    Verifies (found = known ∧ holds)
      (if found ≠ known then LinkedBTree.raise what >>= next else next ())
      good :=
  (guard corrupt fun _ => rest).congr (by rw [Classical.not_not])

theorem lift_bind {step : Except Error γ} {next : γ → EStateM Error σ β}
    {known : γ} (done : step = .ok known)
    (rest : Verifies holds (next known) good) :
    Verifies holds (liftM step >>= next) good :=
  Meets.lift_bind done rest

theorem refuse {step : Except Error γ} {next : γ → EStateM Error σ β}
    {error : Error} (failed : step = .error error)
    (corrupt : error.root.category = .corruption) :
    Verifies False (liftM step >>= next) good := by
  subst failed
  exact fun _ => ⟨corrupt, id⟩

theorem ask {compare : Comparator σ α} {answer : α → α → Ordering}
    {next : Ordering → EStateM Error σ β} {left right : α}
    (answers : compare.Answers answer)
    (rest : Verifies holds (next (answer left right)) good) :
    Verifies holds (compare left right >>= next) good := by
  intro state
  obtain ⟨after, answered⟩ := answers left right state
  rw [run_bind_of_ok answered]
  exact rest after

end Verifies

end LinkedBTree
