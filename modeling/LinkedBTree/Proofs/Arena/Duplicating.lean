import LinkedBTree.Proofs.Consulting
import LinkedBTree.Proofs.Arena.Reproducing

namespace LinkedBTree.Arena

/-! A copy is finished where there is room for it, unless the copier fails. Else the
arena is as before. -/

variable {P σ : Type} {source target : Arena P} {sources kids : NodeId → List NodeId}
  {template : Subtree P} {copy : Copier σ P} {related : σ → P → P → Prop}

theorem relates_true (copy : Copier σ P) : copy.Relates fun _ _ _ => True where
  made _ := trivial
  kept _ _ := trivial

theorem Replicated.release_eq {after : Arena P} {others : NodeId → List NodeId}
    {image : Subtree P} (replicated : Replicated target after others image) :
    ∃ final, release image.id (after, []) =
        .ok () (final, (image.payloads.filterMap id).reverse) ∧
      (∃ left, final.Forest left) ∧ final.Tidy ∧
      ∀ id, final.node? id = target.node? id := by
  obtain ⟨node, found⟩ := replicated.held.live image.id_mem_ids
  have isTop := replicated.top node found
  obtain ⟨final, done, isFinal, lookup⟩ :=
    replicated.forest.release_eq replicated.held found isTop
  refine ⟨final, ?_, ⟨_, replicated.forest.of_released replicated.held found isTop lookup⟩,
    isFinal ▸ replicated.tidy.foldl_discard _, fun id => ?_⟩
  · rw [replicated.forest.run_release, done, List.filterMap_reverse,
      ← replicated.held.payloads_eq, List.filterMap_map]
    rfl
  · rw [lookup]
    split
    · exact (replicated.fresh id ‹_›).symm
    · exact replicated.lookup id ‹_›

theorem Forest.copyInto_ends (form : source.Forest sources)
    (relates : copy.Relates related) (held : source.Holds sources template)
    (forest : target.Forest kids) (tidy : target.Tidy) (state : σ) :
    (∃ after last others image grown,
      source.copyInto template.id target copy state = ⟨.ok image.id, after, [], last⟩ ∧
      Arena.allocate none target = .ok image.id grown ∧
      Duplicate copy related target after others template image state last) ∨
    ∃ error raised after last left,
      source.copyInto template.id target copy state =
        ⟨.error error, after, (left.filterMap id).reverse, last⟩ ∧
      error.root = raised.root ∧
      Breaks copy (.cause (.arenaExhausted target.capacity)) target.spare
        template.payloads state left raised last ∧
      (∃ others, after.Forest others) ∧ after.Tidy ∧
      ∀ id, after.node? id = target.node? id := by
  obtain ⟨node, found⟩ := held.live template.id_mem_ids
  unfold Arena.copyInto
  rw [read_eq found]
  cases allocated : Arena.allocate none target with
  | error error stopped =>
      obtain ⟨stillTidy, rfl⟩ := tidy.allocate_error allocated
      refine .inr ⟨_, .cause (.arenaExhausted target.capacity), stopped, state, [], rfl, rfl, ?_,
        ⟨_, forest.allocate_error allocated⟩, stillTidy, fun id => ?_⟩
      · obtain ⟨_, payload, _⟩ := template
        rw [tidy.spare_eq_zero allocated, Subtree.payloads_node]
        exact .full
      · rw [node?, node?, node?_allocate_error allocated]
  | ok root grown =>
      simp only
      rcases form.fillAll_ends relates held found forest tidy allocated state with
        ⟨after, last, others, image, done, rfl, duplicate⟩ |
        ⟨error, after, last, others, image, failed, rfl, replicated, breaks⟩
      · rw [done]
        exact .inl ⟨after, last, others, image, grown, rfl, rfl, duplicate⟩
      · obtain ⟨final, released, again, stillTidy, same⟩ := replicated.release_eq
        simp only [failed, released]
        exact .inr ⟨_, error, final, last, image.payloads, rfl, rfl, breaks, again,
          stillTidy, same⟩

theorem copyInto_echoes (copy : Copier σ P) (form : source.Forest sources)
    (held : source.Holds sources template) (forest : target.Forest kids)
    (tidy : target.Tidy)
    (room : target.liveCount + template.ids.length ≤ target.capacity) (state : σ) :
    match transcribeAll copy template.payloads state with
    | .ok _ after =>
        ∃ root, (source.copyInto template.id target copy state).result = .ok root ∧
          (source.copyInto template.id target copy state).state = after
    | .error error after =>
        ∃ raised, (source.copyInto template.id target copy state).result =
            .error raised ∧ raised.root = error.root ∧
          (source.copyInto template.id target copy state).state = after := by
  rcases form.copyInto_ends (relates_true copy) held forest tidy state with
    ⟨after, last, others, image, grown, done, _, duplicate⟩ |
    ⟨error, raised, after, last, left, failed, cause, breaks, _⟩
  · rw [duplicate.transcribed, done]
    exact ⟨_, rfl, rfl⟩
  · have enough : template.payloads.length ≤ target.spare := by
      rw [Subtree.length_payloads]
      exact Nat.le_sub_of_add_le (Nat.add_comm .. ▸ room)
    rw [breaks.transcribed enough, failed]
    exact ⟨error, rfl, cause, rfl⟩

theorem setting_copyInto {state : σ} {root : NodeId} (form : source.Forest sources)
    (held : source.Holds sources template) (forest : target.Forest kids)
    (tidy : target.Tidy)
    (done : (source.copyInto template.id target copy state).result = .ok root) :
    (source.copyInto template.id target copy state).target.setting =
      target.setting := by
  rcases form.copyInto_ends (relates_true copy) held forest tidy state with
    ⟨_, _, _, _, _, same, _, duplicate⟩ | ⟨_, _, _, _, _, failed, _⟩
  · rw [same]
    exact duplicate.setting
  · rw [failed] at done
    cases done

theorem transcribeAll_leads {fails : Cause → σ → Prop} {kept : σ → Prop}
    {payloads : List (Option P)} (copies : ∀ payload, some payload ∈ payloads →
      Leads fails kept (copy payload) fun _ => kept) :
    Leads fails kept (transcribeAll copy payloads) fun _ => kept := by
  induction payloads with
  | nil => exact .pure fun _ isKept => isKept
  | cons payload rest induction =>
      rw [transcribeAll_cons]
      have first : Leads fails kept (transcribe copy payload) fun _ => kept := by
        cases payload with
        | none => exact fun _ isKept => isKept
        | some payload =>
            intro state start
            rw [transcribe, copyFrom]
            rcases (copies payload List.mem_cons_self).cases start with
              ⟨_, _, done, stays⟩ | ⟨_, _, failed, cause⟩
            · rw [done]
              exact stays
            · rw [failed]
              exact cause
      exact first.bind fun _ => (induction fun other member =>
        copies other (List.mem_cons_of_mem _ member)).bind fun _ => .pure fun _ isKept => isKept

theorem copyInto_leads {fails : Cause → σ → Prop} {kept : σ → Prop} {state : σ}
    (form : source.Forest sources) (held : source.Holds sources template)
    (copies : ∀ id ∈ template.ids, ∀ node payload, source.node? id = some node →
      node.payload = some payload → Leads fails kept (copy payload) fun _ => kept)
    (forest : target.Forest kids) (tidy : target.Tidy)
    (room : target.liveCount + template.ids.length ≤ target.capacity)
    (start : kept state) :
    match (source.copyInto template.id target copy state).result with
    | .ok _ => kept (source.copyInto template.id target copy state).state ∧
        (source.copyInto template.id target copy state).target.setting =
          target.setting
    | .error error =>
        fails error.root (source.copyInto template.id target copy state).state := by
  have leads : Leads fails kept (transcribeAll copy template.payloads) fun _ => kept := by
    refine transcribeAll_leads fun payload member => ?_
    rw [← held.payloads_eq] at member
    obtain ⟨id, inside, isPayload⟩ := List.mem_map.mp member
    obtain ⟨node, found, carried⟩ := Option.bind_eq_some_iff.mp isPayload
    exact copies id inside node payload found carried
  have echoes := copyInto_echoes copy form held forest tidy room state
  rcases leads.cases start with ⟨_, _, done, stays⟩ | ⟨_, _, failed, cause⟩
  · rw [done] at echoes
    obtain ⟨root, isRoot, rfl⟩ := echoes
    rw [isRoot]
    exact ⟨stays, setting_copyInto form held forest tidy isRoot⟩
  · rw [failed] at echoes
    obtain ⟨raised, isRaised, sameRoot, rfl⟩ := echoes
    rw [isRaised]
    rwa [← sameRoot] at cause

end LinkedBTree.Arena
