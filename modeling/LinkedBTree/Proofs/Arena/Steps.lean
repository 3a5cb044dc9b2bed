import Mathlib.Data.List.Basic
import LinkedBTree.Proofs.Outcome
import LinkedBTree.Proofs.Arena.Lookup

namespace LinkedBTree.Arena

/-! The single steps that calls are made of, on nodes that are live. -/

variable {P : Type} {arena after : Arena P} {id parent : NodeId}
  {previous next : Option NodeId}

section

variable (change : Node P → Node P) (arena)

@[simp] theorem run_alter :
    alter id change arena = .ok () (arena.modify id change) := rfl

@[simp] theorem run_tick (counter : Counter) :
    tick counter arena = .ok () (arena.count counter) := rfl

variable {arena}

theorem run_write (live : arena.contains id = true) :
    write id change arena = .ok () (arena.modify id change) := by
  obtain ⟨node, found⟩ := contains_iff.mp live
  unfold write
  rw [run_get_bind, run_lift_bind (read_eq found), run_alter]

end

theorem run_linkForward (live : ∀ id, previous = some id → arena.contains id = true) :
    linkForward parent previous next arena =
      .ok () (arena.joinForward parent previous next) := by
  unfold linkForward joinForward
  cases previous with
  | none => rfl
  | some id => exact run_write _ (live id rfl)

theorem run_linkBackward (live : ∀ id, next = some id → arena.contains id = true) :
    linkBackward parent previous next arena =
      .ok () (arena.joinBackward parent previous next) := by
  unfold linkBackward joinBackward
  cases next with
  | none => rfl
  | some id => exact run_write _ (live id rfl)

theorem run_writes {ids : List NodeId} (change : Node P → Node P)
    (live : ∀ id ∈ ids, arena.contains id = true) :
    ids.forM (write · change) arena =
      .ok () (ids.foldl (fun arena id => arena.modify id change) arena) := by
  induction ids generalizing arena with
  | nil => rfl
  | cons id rest induction =>
      rw [run_forM_cons, run_write _ (live id List.mem_cons_self)]
      exact induction fun other member =>
        (contains_modify ..).trans (live other (List.mem_cons_of_mem _ member))

theorem run_setPayload {node : Node P} (found : arena.node? id = some node)
    (payload : Option P) :
    setPayload id payload arena =
      .ok node.payload (arena.modify id ({ · with payload })) := by
  unfold setPayload
  rw [run_get_bind, run_lift_bind (read_eq found)]
  rfl

theorem run_setPayload_stale (dead : arena.node? id = none) (payload : Option P) :
    setPayload id payload arena = .error (.cause (.stale id)) arena := by
  unfold setPayload read
  rw [run_get_bind, dead]
  rfl

theorem run_take {node : Node P} (found : arena.node? id = some node) :
    take id arena = .ok node (arena.discard id) := by
  unfold take
  rw [run_get_bind, run_lift_bind (read_eq found)]
  rfl

theorem run_surrender {node : Node P} (found : arena.node? id = some node)
    (payloads : List P) :
    surrender id (arena, payloads) =
      .ok () (arena.discard id, payloads ++ node.payload.toList) := by
  unfold surrender
  rw [run_bind, run_apply, run_take found]
  cases carried : node.payload with
  | none => simp [carried]
  | some payload => simp only [carried]; rfl

theorem run_surrenders {ids : List NodeId} (nodup : ids.Nodup)
    (live : ∀ id ∈ ids, arena.contains id = true) (payloads : List P) :
    ids.forM surrender (arena, payloads) =
      .ok () ((arena.discardAll ids).2, payloads ++ (arena.discardAll ids).1) := by
  induction ids generalizing arena payloads with
  | nil => simp [discardAll]
  | cons id rest induction =>
      obtain ⟨outside, nodup⟩ := List.nodup_cons.mp nodup
      obtain ⟨node, found⟩ := contains_iff.mp (live id List.mem_cons_self)
      have stays : ∀ other ∈ rest, (arena.discard id).node? other = arena.node? other := by
        intro other member
        rw [node?_discard, if_neg]
        rintro rfl
        exact outside member
      rw [run_forM_cons, run_surrender found]
      dsimp only
      rw [induction nodup fun other member => by
        rw [contains, stays other member]
        exact live other (List.mem_cons_of_mem _ member)]
      have carried : (arena.node? id).bind Node.payload = node.payload := by
        rw [found]
        rfl
      have later : rest.filterMap (fun other => ((arena.discard id).node? other).bind
          Node.payload) = rest.filterMap fun other => (arena.node? other).bind Node.payload :=
        List.filterMap_congr fun other member => by rw [stays other member]
      simp only [discardAll, List.foldl_cons, List.filterMap_cons, carried, later]
      cases node.payload <;> simp

end LinkedBTree.Arena
