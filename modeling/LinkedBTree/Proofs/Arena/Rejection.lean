import LinkedBTree.Proofs.Arena.History

namespace LinkedBTree.Arena

/-! A call that is given a handle of nothing is refused, and changes nothing. -/

variable {P : Type}

namespace Request

def handles : Request P → List NodeId
  | .allocate _ => []
  | .setPayload id _ => [id]
  | .append parent child => [parent, child]
  | .insert parent child _ _ _ => [parent, child]
  | .replace old new => [old, new]
  | .remove parent child => [parent, child]
  | .collapse id => [id]
  | .release id => [id]
  | .clear id => [id]
  | .copy id _ _ => [id]
  | .copyFrom _ id _ _ => [id]

def source (arena : Arena P) : Request P → Arena P
  | .copyFrom source _ _ _ => source
  | _ => arena

/-- What may stop a linking call before it looks at every handle. -/
def earlier : Request P → List Cause
  | .append _ child => [.ownDescendant child]
  | .insert _ child _ _ _ => [.ownDescendant child]
  | .replace old _ => [.replacedByItself old, .noParent old]
  | .remove parent child => [.notAChild child parent]
  | _ => []

end Request

def failure? (arena : Arena P) : Request P → Option Error
  | .allocate payload => raised? (Arena.allocate payload arena)
  | .setPayload id payload => raised? (Arena.setPayload id payload arena)
  | .append parent child => raised? (Arena.append parent child arena)
  | .insert parent child compare state unique =>
      raised? (Arena.insert parent child compare unique (arena, state))
  | .replace old new => raised? (Arena.replace old new arena)
  | .remove parent child => raised? (Arena.remove parent child arena)
  | .collapse id => raised? (Arena.collapse id arena)
  | .release id => raised? (Arena.release id (arena, []))
  | .clear id => raised? (Arena.clear id (arena, []))
  | .copy id copy state => failed? (arena.copyInto id arena copy state).result
  | .copyFrom source id copy state =>
      failed? (source.copyInto id arena copy state).result
where
  failed? {β : Type} : Except Error β → Option Error
    | .ok _ => none
    | .error error => some error

variable {arena : Arena P} {kids : NodeId → List NodeId} {id of : NodeId}

theorem read_of_dead (dead : arena.node? id = none) :
    arena.read id = .error (.cause (.stale id)) := by
  unfold read
  rw [dead]
  rfl

theorem read_bind_of_dead {β : Type} (dead : arena.node? id = none)
    (next : Node P → Except Error β) :
    arena.read id >>= next = .error (.cause (.stale id)) := by
  rw [read_of_dead dead]
  rfl

theorem children_of_dead (dead : arena.node? id = none) :
    arena.children id = .error (.cause (.stale id)) :=
  read_bind_of_dead dead _

theorem checkUnlinked_of_dead (dead : arena.node? id = none) :
    arena.checkUnlinked id = .error (.cause (.stale id)) :=
  read_bind_of_dead dead _

theorem copyInto_of_dead {σ : Type} (dead : arena.node? id = none)
    (target : Arena P) (copy : Copier σ P) (state : σ) :
    arena.copyInto id target copy state =
      ⟨.error (.cause (.stale id)), target, [], state⟩ := by
  rw [copyInto, read_of_dead dead]

structure Closed (arena : Arena P) (id : NodeId) : Prop where
  contains : arena.contains id = false
  read : arena.read id = .error (.cause (.stale id))
  setPayload : ∀ payload,
    Arena.setPayload id payload arena = .error (.cause (.stale id)) arena
  children : arena.children id = .error (.cause (.stale id))
  childAt : ∀ position, arena.childAt id position = .error (.cause (.stale id))
  preorder : arena.preorder id = .error (.cause (.stale id))
  leaves : arena.leaves id = .error (.cause (.stale id))
  leafPayloads : arena.leafPayloads id = .error (.cause (.stale id))
  forLeaves : ∀ {σ : Type} (act : NodeId → Node P → EStateM Error σ Unit) state,
    arena.forLeaves id act state = .error (.cause (.stale id)) state

theorem closed_of_dead (dead : arena.node? id = none) : arena.Closed id where
  contains := by
    rw [Arena.contains, dead]
    rfl
  read := read_of_dead dead
  setPayload := run_setPayload_stale dead
  children := children_of_dead dead
  childAt _ := read_bind_of_dead dead _
  preorder := by
    unfold Arena.preorder visits
    rw [exhaust_cons, preorderVisit, children_of_dead dead]
    rfl
  leaves := by
    unfold Arena.leaves foldLeaves visits
    rw [exhaust_cons, leafVisit, read_of_dead dead]
    rfl
  leafPayloads := by
    unfold Arena.leafPayloads foldLeaves visits
    rw [exhaust_cons, leafVisit, read_of_dead dead]
    rfl
  forLeaves act state := by
    unfold Arena.forLeaves foldLeaves visits
    rw [exhaust_cons, leafVisit, read_of_dead dead]
    rfl

theorem climbStep_eq (different : of ≠ id) :
    arena.climbStep id of = (do
      match (← arena.read of).parent with
      | some parent => pure (.inl parent)
      | none => pure (.inr ())) := by
  unfold climbStep
  exact if_neg different

theorem Lineage.checkNotAbove_eq {ancestors : List NodeId}
    (lineage : arena.Lineage of ancestors) (outside : id ∉ of :: ancestors) :
    arena.checkNotAbove id of = .ok () := by
  have enough : ancestors.length < arena.visits := by
    have := lineage.length_lt
    unfold visits
    omega
  unfold checkNotAbove
  generalize arena.visits = bound at enough
  induction lineage generalizing bound with
  | @top of node found noParent =>
      obtain ⟨different, -⟩ := List.ne_and_not_mem_of_not_mem_cons outside
      obtain ⟨bound, rfl⟩ := Nat.exists_eq_add_of_lt enough
      apply follow_answer
      rw [climbStep_eq (Ne.symm different), bind_of_ok (read_eq found)]
      simp only [noParent]
      rfl
  | @under of parent node ancestors found above lineage induction =>
      obtain ⟨different, outside⟩ := List.ne_and_not_mem_of_not_mem_cons outside
      cases bound with
      | zero => cases enough
      | succ bound =>
          have stepped : arena.climbStep id of = .ok (.inl parent) := by
            rw [climbStep_eq (Ne.symm different), bind_of_ok (read_eq found)]
            simp only [above]
            rfl
          rw [follow_next stepped]
          exact induction outside bound (Nat.lt_of_succ_lt_succ enough)

theorem Forest.checkNotAbove_eq (forest : arena.Forest kids) {node : Node P}
    (dead : arena.node? id = none) (found : arena.node? of = some node) :
    arena.checkNotAbove id of = .ok () := by
  obtain ⟨ancestors, lineage⟩ := forest.grounded found
  apply lineage.checkNotAbove_eq
  intro member
  rcases List.mem_cons.mp member with rfl | above
  · cases dead.symm.trans found
  · obtain ⟨_, live⟩ := lineage.live_of_mem above
    cases dead.symm.trans live

/-- A call may fail so: over a handle that names nothing, or early. -/
def Blames (arena : Arena P) (ids : List NodeId) (early : List Cause)
    (what : Cause) : Prop :=
  (∃ id ∈ ids, arena.contains id = false ∧ what = .stale id) ∨ what ∈ early

theorem Blames.stale {ids : List NodeId} {early : List Cause}
    (dead : arena.node? id = none) (given : id ∈ ids) :
    arena.Blames ids early (.stale id) :=
  .inl ⟨id, given, by rw [contains, dead]; rfl, rfl⟩

section

variable {parent child old new : NodeId}

private theorem checkNotAbove_of_dead (child : NodeId)
    (dead : arena.node? parent = none) :
    ∃ what, arena.checkNotAbove child parent = .error (.cause what) ∧
      arena.Blames [parent, child] [.ownDescendant child] what := by
  unfold checkNotAbove visits
  rw [follow]
  by_cases same : parent = child
  · refine ⟨.ownDescendant child, ?_, .inr (List.mem_singleton_self _)⟩
    rw [climbStep, if_pos same]
    rfl
  · refine ⟨.stale parent, ?_, .stale dead (by simp)⟩
    rw [climbStep_eq same, read_of_dead dead]
    rfl

theorem Forest.append_of_dead (forest : arena.Forest kids)
    (dead : arena.node? parent = none ∨ arena.node? child = none) :
    ∃ what, Arena.append parent child arena = .error (.cause what) arena ∧
      arena.Blames [parent, child] [.ownDescendant child] what := by
  unfold Arena.append
  cases found : arena.node? parent with
  | none =>
      obtain ⟨what, failed, blames⟩ := checkNotAbove_of_dead child found
      exact ⟨what, by rw [run_get_bind, failed]; rfl, blames⟩
  | some node =>
      have dead : arena.node? child = none := by simpa [found] using dead
      refine ⟨.stale child, ?_, .stale dead (by simp)⟩
      unfold linkLast
      rw [run_get_bind, run_lift_bind (forest.checkNotAbove_eq dead found), run_get_bind,
        run_lift_bind (read_eq found), run_linkChild_error (checkUnlinked_of_dead dead)]

theorem Forest.insert_of_dead {σ : Type} (forest : arena.Forest kids)
    (compare : Comparator σ P) (unique : Bool) (state : σ)
    (dead : arena.node? parent = none ∨ arena.node? child = none) :
    ∃ what, Arena.insert parent child compare unique (arena, state) =
        .error (.cause what) (arena, state) ∧
      arena.Blames [parent, child] [.ownDescendant child] what := by
  unfold Arena.insert
  cases found : arena.node? parent with
  | none =>
      obtain ⟨what, failed, blames⟩ := checkNotAbove_of_dead child found
      refine ⟨what, ?_, blames⟩
      rw [run_get_bind, failed]
      rfl
  | some node =>
      have dead : arena.node? child = none := by simpa [found] using dead
      refine ⟨.stale child, ?_, .stale dead (by simp)⟩
      rw [run_get_bind, run_lift_bind (forest.checkNotAbove_eq dead found),
        run_lift_bind (read_eq found), checkUnlinked_of_dead dead]
      rfl

theorem Forest.replace_of_dead (forest : arena.Forest kids)
    (dead : arena.node? old = none ∨ arena.node? new = none) :
    ∃ what, Arena.replace old new arena = .error (.cause what) arena ∧
      arena.Blames [old, new] [.replacedByItself old, .noParent old] what := by
  unfold Arena.replace
  by_cases same : old = new
  · exact ⟨.replacedByItself old, by rw [if_pos same]; rfl, .inr (by simp)⟩
  simp only [if_neg same, run_get_bind]
  cases found : arena.node? old with
  | none =>
      exact ⟨.stale old, by rw [read_of_dead found]; rfl, .stale found (by simp)⟩
  | some node =>
      have dead : arena.node? new = none := by simpa [found] using dead
      rw [run_lift_bind (read_eq found)]
      cases above : node.parent with
      | none =>
          refine ⟨.noParent old, ?_, .inr (by simp)⟩
          rfl
      | some parent =>
          refine ⟨.stale new, ?_, .stale dead (by simp)⟩
          obtain ⟨parentNode, parentFound⟩ :=
            forest.parent_live (forest.listed found above)
          simp only [above, run_get_bind,
            run_lift_bind (forest.checkNotAbove_eq dead parentFound),
            run_lift_bind (read_eq parentFound), run_lift_bind (read_eq found), ne_eq,
            not_true, if_false, checkUnlinked_of_dead dead]
          rfl

theorem remove_of_dead
    (dead : arena.node? parent = none ∨ arena.node? child = none) :
    ∃ what, Arena.remove parent child arena = .error (.cause what) arena ∧
      arena.Blames [parent, child] [.notAChild child parent] what := by
  unfold remove
  by_cases same : parent = child
  · exact ⟨.notAChild child parent, by rw [if_pos same]; rfl, .inr (by simp)⟩
  simp only [if_neg same, run_get_bind]
  cases found : arena.node? parent with
  | none =>
      exact ⟨.stale parent, by rw [read_of_dead found]; rfl, .stale found (by simp)⟩
  | some node =>
      have dead : arena.node? child = none := by simpa [found] using dead
      refine ⟨.stale child, ?_, .stale dead (by simp)⟩
      rw [run_lift_bind (read_eq found), run_get_bind, read_of_dead dead]
      rfl

theorem collapse_of_dead (dead : arena.node? id = none) :
    Arena.collapse id arena = .error (.cause (.stale id)) arena := by
  unfold collapse
  rw [run_get_bind, read_of_dead dead]
  rfl

theorem release_of_dead (dead : arena.node? id = none) (payloads : List P) :
    Arena.release id (arena, payloads) = .error (.cause (.stale id)) (arena, payloads) := by
  unfold release
  rw [run_get_bind, read_of_dead dead]
  rfl

end

theorem Forest.refuses (forest : arena.Forest kids) (request : Request P)
    (given : id ∈ request.handles)
    (stale : (request.source arena).contains id = false) :
    arena.perform request = arena ∧
      ∃ what, arena.failure? request = some (.cause what) ∧
        (request.source arena).Blames request.handles request.earlier what := by
  have dead : (request.source arena).node? id = none := by
    simpa [contains] using stale
  have either : ∀ {first second : NodeId}, id ∈ [first, second] →
      arena.node? id = none →
        arena.node? first = none ∨ arena.node? second = none := by
    intro first second member dead
    rw [List.mem_cons, List.mem_singleton] at member
    rcases member with rfl | rfl
    · exact .inl dead
    · exact .inr dead
  cases request with
  | allocate payload => cases given
  | append parent child =>
      obtain ⟨what, failed, blames⟩ := forest.append_of_dead (either given dead)
      simp only [Arena.perform, failure?, failed]
      exact ⟨rfl, what, rfl, blames⟩
  | insert parent child compare state unique =>
      obtain ⟨what, failed, blames⟩ :=
        forest.insert_of_dead compare unique state (either given dead)
      simp only [Arena.perform, failure?, failed]
      exact ⟨rfl, what, rfl, blames⟩
  | replace old new =>
      obtain ⟨what, failed, blames⟩ := forest.replace_of_dead (either given dead)
      simp only [Arena.perform, failure?, failed]
      exact ⟨rfl, what, rfl, blames⟩
  | remove parent child =>
      obtain ⟨what, failed, blames⟩ := remove_of_dead (either given dead)
      simp only [Arena.perform, failure?, failed]
      exact ⟨rfl, what, rfl, blames⟩
  | setPayload other payload =>
      obtain rfl := List.mem_singleton.mp given
      have failed : Arena.setPayload id payload arena = _ := run_setPayload_stale dead payload
      simp only [Arena.perform, failure?, failed]
      exact ⟨rfl, _, rfl, .stale dead given⟩
  | collapse other =>
      obtain rfl := List.mem_singleton.mp given
      have failed : Arena.collapse id arena = _ := collapse_of_dead dead
      simp only [Arena.perform, failure?, failed]
      exact ⟨rfl, _, rfl, .stale dead given⟩
  | release other =>
      obtain rfl := List.mem_singleton.mp given
      have failed : Arena.release id (arena, []) = _ := release_of_dead dead []
      simp only [Arena.perform, failure?, failed]
      exact ⟨rfl, _, rfl, .stale dead given⟩
  | clear other =>
      obtain rfl := List.mem_singleton.mp given
      have failed : Arena.clear id (arena, []) = _ := run_clear_stale dead []
      simp only [Arena.perform, failure?, failed]
      exact ⟨rfl, _, rfl, .stale dead given⟩
  | copy other copy state =>
      obtain rfl := List.mem_singleton.mp given
      have failed := copyInto_of_dead dead arena copy state
      simp only [Arena.perform, failure?, Request.source] at failed ⊢
      rw [failed]
      exact ⟨rfl, _, rfl, .stale dead given⟩
  | copyFrom source other copy state =>
      obtain rfl := List.mem_singleton.mp given
      have failed := copyInto_of_dead dead arena copy state
      simp only [Arena.perform, failure?, Request.source] at failed ⊢
      rw [failed]
      exact ⟨rfl, _, rfl, .stale dead given⟩

/-- What comes of handles that name nothing. -/
structure Guarded (arena : Arena P) : Prop where
  closed : ∀ id, arena.contains id = false → arena.Closed id
  refuses : ∀ (request : Request P) id, id ∈ request.handles →
    (request.source arena).contains id = false →
    arena.perform request = arena ∧
      ∃ what, arena.failure? request = some (.cause what) ∧
        (request.source arena).Blames request.handles request.earlier what

theorem Forest.guarded (forest : arena.Forest kids) : arena.Guarded where
  closed _ dead := closed_of_dead (by simpa [contains] using dead)
  refuses request _ given stale := forest.refuses request given stale

end LinkedBTree.Arena
