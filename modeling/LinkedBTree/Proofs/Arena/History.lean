import LinkedBTree.Proofs.Arena.Allocation
import LinkedBTree.Proofs.Arena.Copying

namespace LinkedBTree.Arena

/-! Whatever is asked of an arena, in whatever order and with whatever
handles, its links keep describing a forest. -/

variable {P : Type}

/-- One call of an operation that may change an arena. A comparator or copier
comes with the state it starts from. -/
inductive Request (P : Type) : Type 1
  | allocate (payload : Option P)
  | setPayload (id : NodeId) (payload : Option P)
  | append (parent child : NodeId)
  | insert {σ : Type} (parent child : NodeId) (compare : Comparator σ P)
      (state : σ) (unique : Bool)
  | replace (old new : NodeId)
  | remove (parent child : NodeId)
  | collapse (id : NodeId)
  | release (id : NodeId)
  | clear (id : NodeId)
  | copy {σ : Type} (id : NodeId) (copy : Copier σ P) (state : σ)
  | copyFrom {σ : Type} (source : Arena P) (id : NodeId) (copy : Copier σ P)
      (state : σ)

def perform (arena : Arena P) : Request P → Arena P
  | .allocate payload => reached (Arena.allocate payload arena)
  | .setPayload id payload => reached (Arena.setPayload id payload arena)
  | .append parent child => reached (Arena.append parent child arena)
  | .insert parent child compare state unique =>
      (reached (Arena.insert parent child compare unique (arena, state))).1
  | .replace old new => reached (Arena.replace old new arena)
  | .remove parent child => reached (Arena.remove parent child arena)
  | .collapse id => reached (Arena.collapse id arena)
  | .release id => (reached (Arena.release id (arena, []))).1
  | .clear id => (reached (Arena.clear id (arena, []))).1
  | .copy id copy state => (arena.copyInto id arena copy state).target
  | .copyFrom source id copy state =>
      (source.copyInto id arena copy state).target

namespace Forest

variable {arena : Arena P} {kids : NodeId → List NodeId}

private theorem enact {β : Type} (forest : arena.Forest kids)
    {outcome : Except Error (β × Arena P)}
    (keeps : ∀ {result after}, outcome = .ok (result, after) →
      ∃ others, after.Forest others) :
    ∃ others, (reached (arena.enact outcome)).Forest others := by
  cases outcome with
  | error _ => exact ⟨kids, forest⟩
  | ok found => exact keeps rfl

theorem perform (forest : arena.Forest kids) (request : Request P) :
    ∃ others, (arena.perform request).Forest others := by
  cases request with
  | allocate payload =>
      show ∃ others, (reached (Arena.allocate payload arena)).Forest others
      cases done : Arena.allocate payload arena with
      | ok id after => exact ⟨kids, forest.allocate done⟩
      | error error after => exact ⟨kids, forest.allocate_error done⟩
  | setPayload id payload =>
      rw [Arena.perform]
      cases found : arena.node? id with
      | none =>
          rw [run_setPayload_stale found]
          exact ⟨kids, forest⟩
      | some node =>
          rw [run_setPayload found]
          exact ⟨kids, forest.modify_payload id fun _ => payload⟩
  | append parent child =>
      rw [Arena.perform, forest.run_append]
      exact forest.enact fun done => ⟨_, forest.append done⟩
  | insert parent child compare state unique =>
      rw [Arena.perform, forest.run_insert]
      cases done : arena.inserted parent child compare unique state with
      | ok outcome final => exact forest.insert done
      | error error final => exact ⟨kids, forest⟩
  | replace old new =>
      rw [Arena.perform, forest.run_replace]
      exact forest.enact forest.replace
  | remove parent child =>
      rw [Arena.perform, forest.run_remove]
      exact forest.enact forest.remove
  | collapse id =>
      rw [Arena.perform, forest.run_collapse]
      exact forest.enact forest.collapse
  | release id => exact forest.release_reached id []
  | clear id => exact forest.clear id []
  | copy id copy state => exact forest.copyInto arena id copy state
  | copyFrom source id copy state => exact forest.copyInto source id copy state

theorem history (forest : arena.Forest kids) (requests : List (Request P)) :
    ∃ others, (requests.foldl Arena.perform arena).Forest others := by
  induction requests generalizing arena kids with
  | nil => exact ⟨kids, forest⟩
  | cons request rest induction =>
      obtain ⟨others, forest⟩ := forest.perform request
      exact induction forest

end Forest

def IsParent (arena : Arena P) (parent child : NodeId) : Prop :=
  ∃ node, arena.node? child = some node ∧ node.parent = some parent

theorem Lineage.mem_of_transGen {arena : Arena P} {above below : NodeId}
    {ancestors : List NodeId} (lineage : arena.Lineage below ancestors)
    (path : Relation.TransGen arena.IsParent above below) :
    above ∈ ancestors := by
  induction path generalizing ancestors with
  | single step =>
      obtain ⟨node, found, parent⟩ := step
      rw [lineage.parent_eq found] at parent
      exact List.mem_of_head? parent
  | tail _ step induction =>
      obtain ⟨node, found, parent⟩ := step
      cases lineage with
      | top known noParent =>
          cases found.symm.trans known
          cases noParent.symm.trans parent
      | under known isParent climbs =>
          cases found.symm.trans known
          cases isParent.symm.trans parent
          exact List.mem_cons_of_mem _ (induction climbs)

theorem Forest.acyclic {arena : Arena P} {kids : NodeId → List NodeId}
    (forest : arena.Forest kids) (id : NodeId) :
    ¬Relation.TransGen arena.IsParent id id := by
  intro path
  have found : ∃ node, arena.node? id = some node := by
    cases path with
    | single step => exact ⟨_, step.choose_spec.1⟩
    | tail _ step => exact ⟨_, step.choose_spec.1⟩
  obtain ⟨node, found⟩ := found
  obtain ⟨ancestors, lineage⟩ := forest.grounded found
  exact lineage.self_not_mem (lineage.mem_of_transGen path)

/-- Whatever is asked of an arena from its first day on, the links of its live
nodes form child lists that agree with one another in every respect, reading
them gives those lists, and no node is above itself. -/
theorem forest_after_requests {capacity : Nat} {start : Arena P}
    (started : withCapacity capacity = .ok start)
    (requests : List (Request P)) :
    ∃ kids, (requests.foldl perform start).Forest kids ∧
      (∀ id node, (requests.foldl perform start).node? id = some node →
        (requests.foldl perform start).children id = .ok (kids id)) ∧
      ∀ id, ¬Relation.TransGen (requests.foldl perform start).IsParent id id := by
  obtain ⟨kids, forest⟩ := (forest_withCapacity started).history requests
  exact ⟨kids, forest, fun id node found => forest.children_eq found,
    forest.acyclic⟩

theorem forest_after_requests_pair :
    (withCapacity 2 : Except Error (Arena Nat)) = .ok { capacity := 2 } ∧
      ∃ kids, ([.allocate (some 5), .allocate none,
          .append ⟨0, 0⟩ ⟨1, 0⟩, .append ⟨1, 0⟩ ⟨0, 0⟩].foldl perform
            ({ capacity := 2 } : Arena Nat)).Forest kids := by
  have started : (withCapacity 2 : Except Error (Arena Nat)) =
      .ok { capacity := 2 } := rfl
  obtain ⟨kids, forest, _⟩ := forest_after_requests started
    [.allocate (some 5), .allocate none, .append ⟨0, 0⟩ ⟨1, 0⟩,
      .append ⟨1, 0⟩ ⟨0, 0⟩]
  exact ⟨started, kids, forest⟩

end LinkedBTree.Arena
