import LinkedBTree.Arena.Links
import LinkedBTree.Proofs.Arena.Forest

namespace LinkedBTree.Arena

/-! Looking for a place among siblings, and all ways in which the search can
end. The comparator may fail, and may answer as it pleases. -/

variable {P σ : Type}

section

variable (arena : Arena P) (compare : Comparator σ P) (unique : Bool) (payload : P)

def Answers (sibling : NodeId) (before : σ) (ordering : Ordering) (after : σ) :
    Prop :=
  ∃ other, arena.carried? sibling = some (some other) ∧
    compare payload other before = .ok ordering after

/-- The comparator is asked about these siblings in turn, and sends the search
on each time. -/
inductive Passes : List NodeId → σ → σ → Prop
  | nil (state : σ) : Passes [] state state
  | cons {sibling rest ordering before between after}
      (answered : arena.Answers compare payload sibling before ordering between)
      (onward : ordering ≠ .lt ∧ (unique = true → ordering ≠ .eq))
      (passes : Passes rest between after) : Passes (sibling :: rest) before after

/-- There is no sibling left, or the next one is to come later. -/
inductive Stops : List NodeId → σ → σ → Prop
  | last (state : σ) : Stops [] state state
  | before {sibling rest before after}
      (less : arena.Answers compare payload sibling before .lt after) :
      Stops (sibling :: rest) before after

inductive Spotted : List NodeId → σ → EStateM.Result Error σ Spot → Prop
  | last {siblings before after}
      (passes : arena.Passes compare unique payload siblings before after) :
      Spotted siblings before (.ok .last after)
  | before {left sibling right before between after}
      (passes : arena.Passes compare unique payload left before between)
      (less : arena.Answers compare payload sibling between .lt after) :
      Spotted (left ++ sibling :: right) before (.ok (.before sibling) after)
  | duplicate {left sibling right before between after}
      (passes : arena.Passes compare unique payload left before between)
      (isUnique : unique = true)
      (equal : arena.Answers compare payload sibling between .eq after) :
      Spotted (left ++ sibling :: right) before (.ok .duplicate after)
  | bare {left sibling right before between}
      (passes : arena.Passes compare unique payload left before between)
      (bare : arena.carried? sibling = some none) :
      Spotted (left ++ sibling :: right) before
        (.error (.cause (.siblingWithoutPayload sibling)) between)
  | raised {left sibling right other before between error after}
      (passes : arena.Passes compare unique payload left before between)
      (carried : arena.carried? sibling = some (some other))
      (raised : compare payload other between = .error error after) :
      Spotted (left ++ sibling :: right) before (.error error after)

end

variable {arena : Arena P} {compare : Comparator σ P} {unique : Bool}
  {payload : P} {kids : NodeId → List NodeId} {id parent sibling : NodeId}
  {rest : List NodeId} {before between after : σ} {ordering : Ordering}

theorem Spotted.cons {outcome : EStateM.Result Error σ Spot}
    (answered : arena.Answers compare payload sibling before ordering between)
    (onward : ordering ≠ .lt ∧ (unique = true → ordering ≠ .eq))
    (spotted : arena.Spotted compare unique payload rest between outcome) :
    arena.Spotted compare unique payload (sibling :: rest) before outcome := by
  cases spotted with
  | last passes => exact .last (.cons answered onward passes)
  | before passes less =>
      rw [← List.cons_append]
      exact .before (.cons answered onward passes) less
  | duplicate passes isUnique equal =>
      rw [← List.cons_append]
      exact .duplicate (.cons answered onward passes) isUnique equal
  | bare passes bare =>
      rw [← List.cons_append]
      exact .bare (.cons answered onward passes) bare
  | raised passes carried raised =>
      rw [← List.cons_append]
      exact .raised (.cons answered onward passes) carried raised

namespace Forest

theorem length_kids_lt (forest : arena.Forest kids) (id : NodeId) :
    (kids id).length < arena.visits := by
  refine Nat.lt_succ_of_le (length_le_slots (forest.nodup id) fun child member => ?_)
  obtain ⟨node, found, _⟩ := forest.of_mem member
  exact contains_iff.mpr ⟨node, found⟩

theorem spotted (forest : arena.Forest kids) {left right : List NodeId}
    (split : kids parent = left ++ right) {bound : Nat}
    (enough : right.length < bound) (state : σ) :
    arena.Spotted compare unique payload right state
      (follow (arena.spotStep payload compare unique) bound right.head? state) := by
  induction right generalizing left bound state with
  | nil =>
      obtain ⟨bound, rfl⟩ := Nat.exists_eq_succ_of_ne_zero (by omega : bound ≠ 0)
      rw [run_follow, List.head?_nil, spotStep, run_pure]
      exact .last (.nil state)
  | cons sibling rest induction =>
      obtain ⟨bound, rfl⟩ := Nat.exists_eq_succ_of_ne_zero (by omega : bound ≠ 0)
      obtain ⟨node, found, _, _, next⟩ := forest.child split
      have onward := @induction (left ++ [sibling]) (by simp [split]) bound
        (by simpa using enough)
      rw [run_follow, List.head?_cons, spotStep, run_lift_bind (read_eq found)]
      cases carried : node.payload with
      | none =>
          exact .bare (.nil state)
            (carried?_eq_some.mpr ⟨node, found, carried⟩)
      | some other =>
          have carries := carried?_eq_some.mpr ⟨node, found, carried⟩
          simp only [run_bind]
          cases asked : compare payload other state with
          | error error after =>
              exact .raised (.nil state) carries asked
          | ok ordering after =>
              have answered : arena.Answers compare payload sibling state
                ordering after := ⟨other, carries, asked⟩
              cases ordering with
              | lt => exact .before (.nil state) answered
              | gt =>
                  simp only [next]
                  exact .cons answered (by simp) (onward after)
              | eq =>
                  cases unique with
                  | true => exact .duplicate (.nil state) rfl answered
                  | false =>
                      simp only [next]
                      exact .cons answered (by simp) (onward after)

end Forest

end LinkedBTree.Arena
