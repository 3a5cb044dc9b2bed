import LinkedBTree.Proofs.Arena.Copying

namespace LinkedBTree.Arena

/-! Copying one payload after another, and how that breaks off where the copier
refuses one or there is no room for the next. -/

variable {P σ : Type}

def transcribe (copy : Copier σ P) (payload : Option P) :
    EStateM Error σ (Option P) :=
  copyFrom copy payload

def transcribeAll (copy : Copier σ P) (payloads : List (Option P)) :
    EStateM Error σ (List (Option P)) :=
  payloads.mapM (transcribe copy)

/-- How copying payloads breaks off before the last, if there is room for so many,
and what has been made by then: nothing comes of a payload that is refused. -/
inductive Breaks (copy : Copier σ P) (full : Error) :
    Nat → List (Option P) → σ → List (Option P) → Error → σ → Prop
  | full {payload rest state} : Breaks copy full 0 (payload :: rest) state [] full state
  | refused {room payload rest state error after}
      (refused : transcribe copy payload state = .error error after) :
      Breaks copy full (room + 1) (payload :: rest) state [none] error after
  | later {room payload rest state image between left error after}
      (made : transcribe copy payload state = .ok image between)
      (breaks : Breaks copy full room rest between left error after) :
      Breaks copy full (room + 1) (payload :: rest) state (image :: left) error after

variable {copy : Copier σ P} {payload image : Option P}
  {payloads first rest left made others : List (Option P)} {state between after : σ}
  {full error : Error} {room : Nat}

theorem transcribeAll_cons (copy : Copier σ P) (payload : Option P)
    (rest : List (Option P)) :
    transcribeAll copy (payload :: rest) = (do
      let made ← transcribe copy payload
      let others ← transcribeAll copy rest
      pure (made :: others)) :=
  List.mapM_cons

theorem transcribeAll_cons_of_ok
    (done : transcribe copy payload state = .ok image between) :
    transcribeAll copy (payload :: rest) state =
      (List.cons image <$> transcribeAll copy rest) between := by
  rw [transcribeAll_cons, run_bind_of_ok done, run_bind, run_map]
  cases transcribeAll copy rest between <;> rfl

theorem transcribeAll_append_of_ok
    (done : transcribeAll copy first state = .ok made between) :
    transcribeAll copy (first ++ rest) state =
      ((made ++ ·) <$> transcribeAll copy rest) between := by
  unfold transcribeAll at done ⊢
  rw [List.mapM_append, run_bind_of_ok done, run_bind, run_map]
  cases rest.mapM (transcribe copy) between <;> rfl

namespace Breaks

theorem append (breaks : Breaks copy full room payloads state left error after)
    (rest : List (Option P)) :
    Breaks copy full room (payloads ++ rest) state left error after := by
  induction breaks with
  | full => exact .full
  | refused refused => exact .refused refused
  | later made _ induction => exact .later made induction

theorem prepend (done : transcribeAll copy first state = .ok made between)
    (breaks : Breaks copy full room rest between left error after) :
    Breaks copy full (first.length + room) (first ++ rest) state (made ++ left) error
      after := by
  induction first generalizing state made with
  | nil =>
      obtain ⟨rfl, rfl⟩ := EStateM.Result.ok.inj done
      rw [List.length_nil, Nat.zero_add]
      exact breaks
  | cons payload first induction =>
      rw [transcribeAll_cons] at done
      obtain ⟨image, middle, asked, done⟩ := run_bind_eq_ok.mp done
      obtain ⟨images, last, rest, done⟩ := run_bind_eq_ok.mp done
      obtain ⟨rfl, rfl⟩ := EStateM.Result.ok.inj done
      rw [List.length_cons, Nat.add_right_comm]
      exact .later asked (induction rest)

theorem transcribed (breaks : Breaks copy full room payloads state left error after)
    (enough : payloads.length ≤ room) :
    transcribeAll copy payloads state = .error error after := by
  induction breaks with
  | full => cases enough
  | refused refused => rw [transcribeAll_cons, run_bind, refused]
  | later asked _ induction =>
      rw [transcribeAll_cons_of_ok asked, run_map, induction (Nat.le_of_succ_le_succ enough)]

theorem exists_parts (breaks : Breaks copy full room payloads state left error after) :
    ∃ before behind made between, payloads = before ++ behind ∧
      transcribeAll copy before state = .ok made between ∧
      left.filterMap id = made.filterMap id ∧
      ((∃ payload rest, behind = some payload :: rest ∧ made.length < room ∧
        copy payload between = .error error after) ∨
      (behind ≠ [] ∧ made.length = room ∧ error = full ∧ after = between)) := by
  induction breaks with
  | @full payload rest state =>
      exact ⟨[], payload :: rest, [], state, rfl, rfl, rfl, .inr ⟨nofun, rfl, rfl, rfl⟩⟩
  | @refused room payload rest state error after refused =>
      cases payload with
      | none => nomatch refused
      | some payload =>
          refine ⟨[], some payload :: rest, [], state, rfl, rfl, rfl,
            .inl ⟨payload, rest, rfl, Nat.succ_pos _, ?_⟩⟩
          rw [transcribe, copyFrom] at refused
          split at refused
          · cases refused
          · obtain ⟨rfl, rfl⟩ := EStateM.Result.error.inj refused
            assumption
  | @later room payload rest state image between left error after asked _ induction =>
      obtain ⟨before, behind, made, middle, rfl, done, same, broke⟩ := induction
      refine ⟨payload :: before, behind, image :: made, middle, rfl, ?_, ?_, ?_⟩
      · rw [transcribeAll_cons_of_ok asked, run_map, done]
      · rw [List.filterMap_cons, List.filterMap_cons, same]
      · simpa using broke

end Breaks

end LinkedBTree.Arena
