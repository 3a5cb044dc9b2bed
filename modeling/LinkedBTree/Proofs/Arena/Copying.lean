import LinkedBTree.Arena.Copy
import LinkedBTree.Proofs.Arena.Pruning
import LinkedBTree.Proofs.Arena.Running

namespace LinkedBTree.Arena

/-! Copying a subtree: the arena copied into stays a forest throughout, and a
finished copy resembles its template. -/

variable {P σ : Type}

def filled (into : NodeId) (payload : Option P) (arena : Arena P) :
    Arena P :=
  match payload with
  | some payload => arena.modify into ({ · with payload := some payload })
  | none => arena

def copyFrom (copy : Copier σ P) :
    Option P → σ → EStateM.Result Error σ (Option P)
  | none, state => .ok none state
  | some payload, state =>
      match copy payload state with
      | .ok copied state => .ok (some copied) state
      | .error error state => .error error state

theorem Forest.filled {target : Arena P} {kids : NodeId → List NodeId}
    (forest : target.Forest kids) (into : NodeId) (payload : Option P) :
    (Arena.filled into payload target).Forest kids := by
  cases payload with
  | none => exact forest
  | some payload => exact forest.modify_payload into fun _ => some payload

theorem contains_filled (target : Arena P) (into id : NodeId)
    (payload : Option P) :
    (Arena.filled into payload target).contains id = target.contains id := by
  cases payload with
  | none => rfl
  | some payload => simp [Arena.filled, contains, node?_modify]

theorem contains_attachLast (arena : Arena P) (parent child id : NodeId) :
    (arena.attachLast parent child).contains id = arena.contains id :=
  (unmoved_contains id).attachLast ..

namespace Copying

variable {source target : Arena P} {kids : NodeId → List NodeId} {copy : Copier σ P}
  {into : NodeId}

theorem run_fill (source : Arena P) (copy : Copier σ P) (node : Node P)
    (isLive : target.contains into = true) (state : σ) :
    fill source copy node into (target, state) =
      match copyFrom copy node.payload state with
      | .error error state => .error error (target, state)
      | .ok payload state =>
          match source.childList node with
          | .error error => .error error (filled into payload target, state)
          | .ok children =>
              .ok (children.map (·, into)) (filled into payload target, state) := by
  obtain ⟨_, found⟩ := contains_iff.mp isLive
  unfold fill
  cases carried : node.payload with
  | none =>
      simp only [copyFrom, filled, run_bind, run_lift]
      cases source.childList node <;> rfl
  | some payload =>
      simp only [copyFrom, filled, run_bind, run_consult]
      cases copy payload state with
      | error error state => rfl
      | ok copied state =>
          simp only [run_apply, run_setPayload found, run_lift]
          cases source.childList node <;> rfl

theorem run_visit (source : Arena P) (copy : Copier σ P) (template : NodeId)
    {parent : NodeId} (forest : target.Forest kids)
    (isLive : target.contains parent = true) (state : σ) :
    visit source copy () (template, parent) (target, state) =
      match Arena.allocate none target with
      | .error error target => .error error (target, state)
      | .ok copied target =>
          match source.read template with
          | .error error => .error error (target.attachLast parent copied, state)
          | .ok node =>
              match fill source copy node copied
                (target.attachLast parent copied, state) with
              | .error error after => .error error after
              | .ok pending after => .ok ((), pending) after := by
  unfold visit
  simp only [run_bind, run_apply (Arena.allocate none)]
  cases allocated : Arena.allocate none target with
  | error error target => rfl
  | ok copied grown =>
      simp only [run_apply, forest.run_linkLast isLive allocated, run_lift]
      cases source.read template with
      | error error => rfl
      | ok node =>
          dsimp only
          cases fill source copy node copied (grown.attachLast parent copied, state) <;> rfl

end Copying

namespace Copying

variable {source : Arena P} {copy : Copier σ P}

private def Growing (state : Arena P × σ) : Prop :=
  ∃ kids, state.1.Forest kids

private theorem reached_fill (source : Arena P) (copy : Copier σ P) (node : Node P)
    {into : NodeId} {target : Arena P} {state : σ} (growing : Growing (target, state))
    (isLive : target.contains into = true) :
    Growing (reached (fill source copy node into (target, state))) := by
  obtain ⟨kids, forest⟩ := growing
  rw [run_fill _ _ _ isLive]
  cases copyFrom copy node.payload state with
  | error error state => exact ⟨kids, forest⟩
  | ok payload state =>
      simp only
      cases source.childList node with
      | error error => exact ⟨kids, forest.filled into payload⟩
      | ok children => exact ⟨kids, forest.filled into payload⟩

theorem of_fill {node : Node P} {into : NodeId} {target : Arena P} {state : σ}
    {pending : List (NodeId × NodeId)} {after : Arena P × σ}
    (isLive : target.contains into = true)
    (done : fill source copy node into (target, state) = .ok pending after) :
    ∃ payload children,
      copyFrom copy node.payload state = .ok payload after.2 ∧
      source.childList node = .ok children ∧
      pending = children.map (·, into) ∧ after.1 = filled into payload target := by
  rw [run_fill _ _ _ isLive] at done
  cases copied : copyFrom copy node.payload state with
  | error error state =>
      rw [copied] at done
      cases done
  | ok payload state =>
      simp only [copied] at done
      cases listed : source.childList node with
      | error error =>
          rw [listed] at done
          cases done
      | ok children =>
          simp only [listed] at done
          obtain ⟨rfl, rfl⟩ := EStateM.Result.ok.inj done
          exact ⟨payload, children, rfl, rfl, rfl, rfl⟩

theorem of_visit {template parent : NodeId} {target : Arena P} {state : σ}
    {kids : NodeId → List NodeId} {pending : List (NodeId × NodeId)}
    {after : Arena P × σ} (forest : target.Forest kids)
    (isLive : target.contains parent = true)
    (done : visit source copy () (template, parent) (target, state) =
      .ok ((), pending) after) :
    ∃ copied grown node, Arena.allocate none target = .ok copied grown ∧
      source.node? template = some node ∧
      fill source copy node copied (grown.attachLast parent copied, state) =
        .ok pending after := by
  rw [run_visit _ _ _ forest isLive] at done
  cases allocated : Arena.allocate none target with
  | error error after =>
      rw [allocated] at done
      cases done
  | ok copied grown =>
      simp only [allocated] at done
      cases isRead : source.read template with
      | error error =>
          rw [isRead] at done
          cases done
      | ok node =>
          simp only [isRead] at done
          cases fills : fill source copy node copied
            (grown.attachLast parent copied, state) with
          | error error after =>
              rw [fills] at done
              cases done
          | ok found after =>
              simp only [fills] at done
              obtain ⟨result, rfl⟩ := EStateM.Result.ok.inj done
              obtain ⟨_, rfl⟩ := Prod.mk.inj result
              exact ⟨copied, grown, node, rfl, (read_eq_ok_iff ..).mp isRead, fills⟩

theorem contains_hung {copied : NodeId} {target grown : Arena P}
    (allocated : Arena.allocate none target = .ok copied grown) (parent : NodeId) :
    (grown.attachLast parent copied).contains copied = true := by
  rw [contains_attachLast]
  simp [contains, (node?_allocate allocated).2]

private theorem reached_visit (source : Arena P) (copy : Copier σ P) (template : NodeId)
    {parent : NodeId} {target : Arena P} {state : σ} (growing : Growing (target, state))
    (isLive : target.contains parent = true) :
    Growing (reached (visit source copy () (template, parent)
      (target, state))) := by
  obtain ⟨kids, forest⟩ := growing
  obtain ⟨parentNode, known⟩ := contains_iff.mp isLive
  rw [run_visit _ _ _ forest isLive]
  cases done : Arena.allocate none target with
  | error error after => exact ⟨kids, forest.allocate_error done⟩
  | ok copied after =>
      have sprouted := forest.sprout known done
      simp only
      cases source.read template with
      | error error => exact ⟨_, sprouted⟩
      | ok node =>
          have fills : Growing (reached (fill source copy node copied
              (after.attachLast parent copied, state))) :=
            reached_fill source copy node ⟨_, sprouted⟩ (contains_hung done parent)
          simp only
          cases outcome : fill source copy node copied
            (after.attachLast parent copied, state) <;>
            rwa [outcome] at fills

private theorem contains_of_fill {node : Node P} {into : NodeId} {target : Arena P}
    {state : σ} {pending : List (NodeId × NodeId)} {after : Arena P × σ}
    (isLive : target.contains into = true)
    (done : fill source copy node into (target, state) = .ok pending after) :
    (∀ item ∈ pending, after.1.contains item.2 = true) ∧
      ∀ id, target.contains id = true → after.1.contains id = true := by
  obtain ⟨payload, children, _, _, rfl, isFilled⟩ := of_fill isLive done
  simp only [isFilled, contains_filled]
  constructor
  · intro item member
    obtain ⟨child, _, rfl⟩ := List.mem_map.mp member
    exact isLive
  · exact fun id isLive => isLive

private theorem contains_of_visit {template parent : NodeId} {target : Arena P} {state : σ}
    {pending : List (NodeId × NodeId)} {after : Arena P × σ}
    (growing : Growing (target, state)) (isLive : target.contains parent = true)
    (done : visit source copy () (template, parent) (target, state) =
      .ok ((), pending) after) :
    (∀ item ∈ pending, after.1.contains item.2 = true) ∧
      ∀ id, target.contains id = true → after.1.contains id = true := by
  obtain ⟨kids, forest⟩ := growing
  obtain ⟨copied, grown, node, allocated, _, fills⟩ := of_visit forest isLive done
  obtain ⟨below, later⟩ := contains_of_fill (contains_hung allocated parent) fills
  refine ⟨below, fun id isLive => later id ?_⟩
  rw [contains_attachLast]
  simp only [contains, (node?_allocate allocated).2]
  split
  · rfl
  · exact isLive

end Copying

private theorem Forest.fillAll (source : Arena P) (copy : Copier σ P)
    (node : Node P) (state : σ) {root : NodeId} {target : Arena P}
    {kids : NodeId → List NodeId} (forest : target.Forest kids)
    (isLive : target.contains root = true) :
    ∃ others, (reached (Copying.fillAll source copy node root
      (target, state))).1.Forest others := by
  have growing : Copying.Growing (target, state) := ⟨kids, forest⟩
  have fills := Copying.reached_fill source copy node growing isLive
  unfold Copying.fillAll
  apply reached_bind fills
  intro pending between done
  rw [done] at fills
  refine exhaust_reached
    (fun _ item before growing isLive =>
      Copying.reached_visit source copy item.1 growing isLive)
    (fun _ item before outcome after growing isLive done => ?_)
    source.visits () pending between fills
    (Copying.contains_of_fill isLive done).1
  obtain ⟨below, later⟩ := Copying.contains_of_visit growing isLive done
  exact ⟨below, fun other => later other.2⟩

theorem Forest.copyInto {target : Arena P} {kids : NodeId → List NodeId}
    (forest : target.Forest kids) (source : Arena P) (id : NodeId)
    (copy : Copier σ P) (state : σ) :
    ∃ others, (source.copyInto id target copy state).target.Forest others := by
  unfold Arena.copyInto
  cases source.read id with
  | error error => exact ⟨kids, forest⟩
  | ok node =>
      simp only
      cases allocated : Arena.allocate none target with
      | error error after => exact ⟨kids, forest.allocate_error allocated⟩
      | ok root grown =>
          obtain ⟨_, lookup⟩ := node?_allocate allocated
          have isLive : grown.contains root = true := by
            simp [contains, lookup]
          have filled :=
            (forest.allocate allocated).fillAll source copy node state isLive
          simp only
          cases outcome : Copying.fillAll source copy node root (grown, state) with
          | ok _ after =>
              rw [outcome] at filled
              exact filled
          | error error after =>
              rw [outcome, reached_error] at filled
              obtain ⟨others, filled⟩ := filled
              have unwound := filled.release_reached root []
              simp only
              cases released : Arena.release root (after.1, []) <;>
                rwa [released] at unwound

end LinkedBTree.Arena
