import LinkedBTree.Proofs.Arena.Duplicating
import LinkedBTree.Proofs.Arena.Freeing
import LinkedBTree.Proofs.Arena.Overlaying
import LinkedBTree.Proofs.Arena.Relinking

namespace LinkedBTree.Arena

/-! When a copy of a subtree is finished, what it consists of, and what is left of one
that is not. -/

variable {P σ : Type} {source target after : Arena P} {sources kids : NodeId → List NodeId}
  {tree : Subtree P} {top : NodeId}

/-- The copy stands on its own, beside all that was there before. The copier was asked
for every payload once, each node before its children. -/
structure Doubles (target : Arena P) (tree : Subtree P) (copy : Copier σ P) (state : σ)
    (root : NodeId) (outcome : CopyOutcome σ P) : Prop where
  freed : outcome.freed = []
  tidy : outcome.target.Tidy
  detached : outcome.target.Detached root
  image : ∃ others image, image.id = root ∧ outcome.target.Forest others ∧
    outcome.target.Holds others image ∧ Likened (fun _ _ => True) [tree] [image] ∧
    transcribeAll copy tree.payloads state = .ok image.payloads outcome.state ∧
    (∀ id ∈ image.ids, target.contains id = false) ∧
    ∀ id, id ∉ image.ids → outcome.target.node? id = target.node? id
  kept : ∀ id, target.contains id = true → outcome.target.node? id = target.node? id
  liveCount : outcome.target.liveCount = target.liveCount + tree.ids.length

/-- Nothing is left of the copy. What the copier had made by then was handed over, the
last first. -/
structure Retracts (target : Arena P) (tree : Subtree P) (copy : Copier σ P) (state : σ)
    (error : Error) (outcome : CopyOutcome σ P) : Prop where
  forest : ∃ others, outcome.target.Forest others
  tidy : outcome.target.Tidy
  same : ∀ id, outcome.target.node? id = target.node? id
  liveCount : outcome.target.liveCount = target.liveCount
  broke : ∃ before behind made between, tree.payloads = before ++ behind ∧
    transcribeAll copy before state = .ok made between ∧
    outcome.freed = (made.filterMap id).reverse ∧
    ((∃ payload rest raised, behind = some payload :: rest ∧
        made.length < target.spare ∧
        copy payload between = .error raised outcome.state ∧ error.root = raised.root) ∨
      (behind ≠ [] ∧ made.length = target.spare ∧ outcome.state = between ∧
        error.root = .arenaExhausted target.capacity))

/-- What comes of copying a subtree. -/
structure Completes (source target : Arena P) (tree : Subtree P) (copy : Copier σ P)
    (state : σ) : Prop where
  succeeds_iff : (∃ root, (source.copyInto tree.id target copy state).result = .ok root) ↔
    (∃ made final, transcribeAll copy tree.payloads state = .ok made final) ∧
      tree.ids.length ≤ target.spare
  success : ∀ root, (source.copyInto tree.id target copy state).result = .ok root →
    Doubles target tree copy state root (source.copyInto tree.id target copy state)
  /-- Within an arena, what is read may be what is written to. -/
  within : target = source →
    source.copyWithin tree.id copy state = source.copyInto tree.id target copy state

theorem Duplicate.doubles {others : NodeId → List NodeId} {image : Subtree P}
    {copy : Copier σ P} {state last : σ}
    (duplicate : Duplicate copy (fun _ _ _ => True) target after others tree image state
      last) :
    Doubles target tree copy state image.id ⟨.ok image.id, after, [], last⟩ := by
  obtain ⟨node, found⟩ := duplicate.held.live image.id_mem_ids
  have dead : ∀ id ∈ image.ids, target.contains id = false := by
    intro id member
    rw [contains, duplicate.fresh id member]
    rfl
  refine ⟨rfl, duplicate.tidy, ⟨node, found, ?_⟩,
    ⟨others, image, rfl, duplicate.forest, duplicate.held, duplicate.likened,
      duplicate.transcribed, dead, duplicate.lookup⟩, fun id live => ?_,
    duplicate.liveCount⟩
  · rw [duplicate.forest.isLinked_eq found, duplicate.top node found]
    rfl
  · refine duplicate.lookup id fun member => ?_
    cases live.symm.trans (dead id member)

/-- A copy is finished exactly where the copier does its part and there is room for all
nodes. -/
theorem copies_are_complete (form : source.Forest sources) (forest : target.Forest kids)
    (tidy : target.Tidy) (live : source.contains top = true) (copy : Copier σ P)
    (state : σ) :
    ∃ tree : Subtree P, tree.id = top ∧ source.Holds sources tree ∧
      source.Completes target tree copy state := by
  obtain ⟨node, found⟩ := contains_iff.mp live
  obtain ⟨tree, rfl, held⟩ := form.exists_subtree found
  refine ⟨tree, rfl, held, ?_, ?_, ?_⟩
  · rcases form.copyInto_ends (relates_true copy) held forest tidy state with
      ⟨after, last, others, image, grown, done, _, duplicate⟩ |
      ⟨error, raised, after, last, left, failed, _, breaks, _⟩
    · have room := spare_of_grown duplicate.tidy duplicate.setting duplicate.liveCount
      rw [done]
      exact ⟨fun _ => ⟨⟨_, _, duplicate.transcribed⟩, room ▸ Nat.le_add_right ..⟩,
        fun _ => ⟨_, rfl⟩⟩
    · rw [failed]
      refine ⟨nofun, ?_⟩
      rintro ⟨⟨made, final, asked⟩, room⟩
      rw [← tree.length_payloads] at room
      cases asked.symm.trans (breaks.transcribed room)
  · intro root done
    rcases form.copyInto_ends (relates_true copy) held forest tidy state with
      ⟨after, last, others, image, grown, same, _, duplicate⟩ |
      ⟨error, raised, after, last, left, failed, _⟩
    · rw [same] at done ⊢
      obtain rfl := Except.ok.inj done
      exact duplicate.doubles
    · rw [failed] at done
      cases done
  · rintro rfl
    exact form.copyWithin_eq tidy tree.id copy state

/-- Makes copies that tell how many came before them, up to a limit. -/
def counting (limit : Nat) : Copier Nat Nat := fun payload calls =>
  if calls < limit then .ok (10 * payload + calls) (calls + 1)
  else .error (.cause (.reported .cloneFailed "no more copies")) calls

theorem copies_are_complete_family :
    ∃ (arena : Arena Nat) (kids : NodeId → List NodeId) (tree : Subtree Nat),
      family.foldl perform ({ capacity := 8 } : Arena Nat) = arena ∧
      arena.Forest kids ∧ arena.Tidy ∧ tree.id = ⟨0, 0⟩ ∧ arena.Holds kids tree ∧
      arena.Completes arena tree (counting 3) 0 ∧
      Doubles arena tree (counting 3) 0 ⟨4, 0⟩
        (arena.copyInto ⟨0, 0⟩ arena (counting 3) 0) := by
  have started : (withCapacity 8 : Except Error (Arena Nat)) =
      .ok { capacity := 8 } := rfl
  obtain ⟨kids, forest⟩ := (forest_withCapacity started).history family
  have tidy := (vacant_withCapacity started).2.1.history family
  have live : (family.foldl perform ({ capacity := 8 } : Arena Nat)).contains ⟨0, 0⟩ =
      true := by decide +kernel
  obtain ⟨tree, isTop, held, completes⟩ :=
    copies_are_complete forest forest tidy live (counting 3) 0
  have doubles := completes.success ⟨4, 0⟩ (by rw [isTop]; decide +kernel)
  rw [isTop] at doubles
  exact ⟨_, kids, tree, rfl, forest, tidy, isTop, held, completes, doubles⟩

/-- A copy that fails leaves nothing behind, wherever it breaks off. -/
theorem failed_copies_retract (form : source.Forest sources)
    (forest : target.Forest kids) (tidy : target.Tidy)
    (live : source.contains top = true) (copy : Copier σ P) (state : σ) :
    ∃ tree : Subtree P, tree.id = top ∧ source.Holds sources tree ∧
      (∀ error, (source.copyInto top target copy state).result = .error error →
        Retracts target tree copy state error (source.copyInto top target copy state)) ∧
      (target = source → source.copyWithin top copy state =
        source.copyInto top target copy state) := by
  obtain ⟨node, found⟩ := contains_iff.mp live
  obtain ⟨tree, rfl, held⟩ := form.exists_subtree found
  refine ⟨tree, rfl, held, fun error failed => ?_, ?_⟩
  · rcases form.copyInto_ends (relates_true copy) held forest tidy state with
      ⟨after, last, others, image, grown, done, _⟩ |
      ⟨other, raised, after, last, left, ended, cause, breaks, again, stillTidy, same⟩
    · rw [done] at failed
      cases failed
    · rw [ended] at failed ⊢
      obtain rfl := Except.error.inj failed
      obtain ⟨before, behind, made, between, parts, asked, isMade, broke⟩ :=
        breaks.exists_parts
      have fewer := tidy.liveCount_add stillTidy List.nodup_nil nofun fun id => by
        rw [contains, contains, same]
        simp
      refine ⟨again, stillTidy, same, fewer, before, behind, made, between, parts, asked,
        by rw [isMade], ?_⟩
      rcases broke with ⟨payload, rest, isNext, room, refused⟩ |
        ⟨notEmpty, full, rfl, rfl⟩
      · exact .inl ⟨payload, rest, raised, isNext, room, refused, cause⟩
      · exact .inr ⟨notEmpty, full, rfl, cause⟩
  · rintro rfl
    exact form.copyWithin_eq tidy tree.id copy state

/-- The copier gives up after one payload, and has the arena run full after two. -/
theorem failed_copies_retract_family :
    ∃ (arena : Arena Nat) (kids : NodeId → List NodeId),
      family.foldl perform ({ capacity := 6 } : Arena Nat) = arena ∧
      arena.Forest kids ∧ arena.Tidy ∧
      (∃ tree error, arena.Holds kids tree ∧
        Retracts arena tree (counting 1) 0 error
          (arena.copyInto ⟨0, 0⟩ arena (counting 1) 0) ∧
        (arena.copyInto ⟨0, 0⟩ arena (counting 1) 0).freed = [50]) ∧
      ∃ tree error, arena.Holds kids tree ∧
        Retracts arena tree (counting 3) 0 error
          (arena.copyInto ⟨0, 0⟩ arena (counting 3) 0) ∧
        (arena.copyInto ⟨0, 0⟩ arena (counting 3) 0).freed = [11, 50] := by
  have started : (withCapacity 6 : Except Error (Arena Nat)) =
      .ok { capacity := 6 } := rfl
  obtain ⟨kids, forest⟩ := (forest_withCapacity started).history family
  have tidy := (vacant_withCapacity started).2.1.history family
  have live : (family.foldl perform ({ capacity := 6 } : Arena Nat)).contains ⟨0, 0⟩ =
      true := by decide +kernel
  obtain ⟨first, _, heldFirst, refused, _⟩ :=
    failed_copies_retract forest forest tidy live (counting 1) 0
  obtain ⟨second, _, heldSecond, full, _⟩ :=
    failed_copies_retract forest forest tidy live (counting 3) 0
  refine ⟨_, kids, rfl, forest, tidy,
    ⟨first, _, heldFirst, refused (.context s!"unable to clone {(⟨0, 0⟩ : NodeId)}"
      (.cause (.reported .cloneFailed "no more copies"))) (by decide +kernel), by decide +kernel⟩,
    second, _, heldSecond, full (.context s!"unable to clone {(⟨0, 0⟩ : NodeId)}"
      (.cause (.arenaExhausted 6))) (by decide +kernel), by decide +kernel⟩

end LinkedBTree.Arena
