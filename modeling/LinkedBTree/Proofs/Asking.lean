import LinkedBTree.Proofs.Consulting

namespace LinkedBTree

/-! What a run asks of a comparator, call by call. The comparator may answer as it
pleases. -/

variable {α β γ σ : Type}

/-- Writes down each call before it is answered or fails. -/
def Comparator.traced (compare : Comparator σ α) :
    Comparator (σ × CallLog α) α := fun left right (state, log) =>
  match compare left right state with
  | .ok ordering after => .ok ordering (after, log.push (left, right))
  | .error error after => .error error (after, log.push (left, right))

theorem Comparator.reached_traced (compare : Comparator σ α) (left right : α)
    (state : σ) (log : CallLog α) :
    reached (compare.traced left right (state, log)) =
      (reached (compare left right state), log.push (left, right)) := by
  unfold traced
  simp only
  cases compare left right state <;> rfl

def trace (outcome : EStateM.Result Error (σ × CallLog α) β) : List (α × α) :=
  (reached outcome).2.toList

/-- Wherever a run starts, the calls it adds to those written down are good. -/
def Asks (good : List (α × α) → Prop)
    (act : EStateM Error (σ × CallLog α) β) : Prop :=
  ∀ start, ∃ calls, trace (act start) = start.2.toList ++ calls ∧ good calls

namespace Asks

variable {good middle further : List (α × α) → Prop}

theorem trace_good {act : EStateM Error (σ × CallLog α) β} (asks : Asks good act)
    (state : σ) : good (trace (act (state, #[]))) := by
  obtain ⟨calls, traced, isGood⟩ := asks (state, #[])
  rw [traced]
  exact isGood

theorem weaken {act : EStateM Error (σ × CallLog α) β} (asks : Asks middle act)
    (implies : ∀ calls, middle calls → good calls) : Asks good act := by
  intro start
  obtain ⟨calls, traced, isMiddle⟩ := asks start
  exact ⟨calls, traced, implies calls isMiddle⟩

theorem pure {result : β} (none : good []) :
    Asks good (Pure.pure result : EStateM Error (σ × CallLog α) β) :=
  fun _ => ⟨[], (List.append_nil _).symm, none⟩

theorem throw {error : Error} (none : good []) :
    Asks good (MonadExcept.throw error : EStateM Error (σ × CallLog α) β) :=
  fun _ => ⟨[], (List.append_nil _).symm, none⟩

theorem traced {compare : Comparator σ α} {left right : α}
    (one : good [(left, right)]) : Asks good (compare.traced left right) := by
  rintro ⟨state, log⟩
  refine ⟨[(left, right)], ?_, one⟩
  rw [trace, Comparator.reached_traced]
  exact Array.toList_push

/-- The second run need not come about. -/
theorem bind {first : EStateM Error (σ × CallLog α) β}
    {next : β → EStateM Error (σ × CallLog α) γ} (asks : Asks middle first)
    (rest : ∀ result, Asks further (next result))
    (alone : ∀ calls, middle calls → good calls)
    (both : ∀ calls more, middle calls → further more → good (calls ++ more)) :
    Asks good (first >>= next) := by
  intro start
  obtain ⟨calls, traced, isMiddle⟩ := asks start
  rw [run_bind]
  cases outcome : first start with
  | error error after =>
      rw [outcome] at traced
      exact ⟨calls, traced, alone calls isMiddle⟩
  | ok result after =>
      rw [outcome] at traced
      obtain ⟨more, goesOn, isFurther⟩ := rest result after
      refine ⟨calls ++ more, ?_, both calls more isMiddle isFurther⟩
      have traced : after.2.toList = start.2.toList ++ calls := traced
      rw [goesOn, traced, List.append_assoc]

theorem throw_bind {error : Error} {next : β → EStateM Error (σ × CallLog α) γ}
    (none : good []) : Asks good (MonadExcept.throw error >>= next) :=
  fun _ => ⟨[], (List.append_nil _).symm, none⟩

theorem traced_bind {compare : Comparator σ α} {left right : α}
    {listed : List (α × α)} {next : Ordering → EStateM Error (σ × CallLog α) γ}
    (rest : ∀ ordering, Asks (· <+: listed) (next ordering)) :
    Asks (· <+: (left, right) :: listed) (compare.traced left right >>= next) := by
  have one : Asks (· = [(left, right)]) (compare.traced left right) := .traced rfl
  refine one.bind rest ?_ ?_
  · rintro _ rfl
    exact List.prefix_append [_] _
  · rintro _ more rfl isPrefix
    exact List.cons_prefix_cons.mpr ⟨rfl, isPrefix⟩

end Asks

end LinkedBTree
