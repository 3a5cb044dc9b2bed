import Mathlib.Logic.Relation
import LinkedBTree.Proofs.Arena.Rejection

namespace LinkedBTree.Arena

/-! The linking calls as edits of child lists: when each one goes through, what
it makes of the lists, and that it leaves everything else as it was. -/

variable {P : Type}

/-- Everything but the nodes: which handles go with which slots, which slots are
free, and the counters. -/
def storage (arena : Arena P) : Array UInt32 × List Nat × Nat × Stats :=
  (arena.slots.map Slot.generation, arena.free, arena.capacity, arena.stats)

structure Admits (arena : Arena P) (parent child : NodeId) : Prop where
  parentLive : arena.contains parent = true
  childLive : arena.contains child = true
  /-- The child neither is the parent nor stands above it. -/
  notAbove : ¬Relation.ReflTransGen arena.IsParent child parent
  orphan : ∀ other, ¬arena.IsParent other child

/-- `after` differs from `arena` in its child lists alone. -/
structure Relinked (arena after : Arena P) (kids : NodeId → List NodeId) : Prop where
  forest : after.Forest kids
  carried : ∀ id, after.carried? id = arena.carried? id
  storage : after.storage = arena.storage

/-- `id` has taken the place of its only child, which is gone, and has lost
`payload` for it. -/
structure Collapsed (arena after : Arena P) (kids : NodeId → List NodeId)
    (id child : NodeId) (payload : Option P) : Prop where
  forest : after.Forest (Function.update (Function.update kids child []) id (kids child))
  lost : arena.carried? id = some payload
  taken : after.carried? id = arena.carried? child
  gone : after.contains child = false
  others : ∀ other, other ≠ id → other ≠ child →
    after.carried? other = arena.carried? other
  free : after.free = child.index :: arena.free
  capacity : after.capacity = arena.capacity
  stats : after.stats = (arena.stats.add .freed 1).add .collapses 1

def Detached (arena : Arena P) (id : NodeId) : Prop :=
  ∃ node, arena.node? id = some node ∧ node.isLinked = false

theorem unmoved_storage : Unmoved (storage (P := P)) := by
  intro arena id change
  have same : (arena.modify id change).slots.map Slot.generation =
      arena.slots.map Slot.generation := by
    apply Array.ext_getElem?
    intro index
    unfold modify
    simp only [Array.getElem?_map, Array.getElem?_modify]
    split
    · rw [Option.map_map]
      congr 1
      funext slot
      simp only [Function.comp_apply]
      split <;> rfl
    · rfl
  unfold storage
  rw [same]
  rfl

section

variable {arena after : Arena P} {kids : NodeId → List NodeId}
  {parent child old new id : NodeId} {left right : List NodeId}

theorem Lineage.transGen_of_mem {above below : NodeId} {ancestors : List NodeId}
    (lineage : arena.Lineage below ancestors) (member : above ∈ ancestors) :
    Relation.TransGen arena.IsParent above below := by
  induction lineage with
  | top _ _ => cases member
  | @under below parent node ancestors found isParent _ induction =>
      have step : arena.IsParent parent below := ⟨node, found, isParent⟩
      rcases List.mem_cons.mp member with rfl | higher
      · exact .single step
      · exact (induction higher).tail step

namespace Forest

theorem admits_iff (forest : arena.Forest kids) : arena.Admits parent child ↔
    arena.checkNotAbove child parent = .ok () ∧
      ∃ parentNode childNode, arena.read parent = .ok parentNode ∧
        arena.checkUnlinked child = .ok childNode := by
  constructor
  · intro admits
    obtain ⟨parentNode, isLive⟩ := contains_iff.mp admits.parentLive
    obtain ⟨childNode, found⟩ := contains_iff.mp admits.childLive
    obtain ⟨ancestors, lineage⟩ := forest.grounded isLive
    refine ⟨lineage.checkNotAbove_eq fun member => admits.notAbove ?_,
      parentNode, childNode, read_eq isLive, forest.checkUnlinked_eq found ?_⟩
    · rcases List.mem_cons.mp member with rfl | above
      · exact .refl
      · exact (lineage.transGen_of_mem above).to_reflTransGen
    · cases above : childNode.parent with
      | none => rfl
      | some other => exact absurd ⟨childNode, found, above⟩ (admits.orphan other)
  · rintro ⟨apart, parentNode, childNode, isLive, unlinked⟩
    obtain ⟨ancestors, lineage, outside⟩ := lineage_of_checkNotAbove apart
    obtain ⟨found, isTop⟩ := of_checkUnlinked forest unlinked
    refine ⟨contains_iff.mpr ⟨_, (read_eq_ok_iff ..).mp isLive⟩,
      contains_iff.mpr ⟨_, found⟩, fun path => outside ?_, ?_⟩
    · rcases Relation.reflTransGen_iff_eq_or_transGen.mp path with same | strict
      · exact same ▸ List.mem_cons_self
      · exact List.mem_cons_of_mem _ (lineage.mem_of_transGen strict)
    · rintro other ⟨node, isNode, above⟩
      cases found.symm.trans isNode
      cases isTop.symm.trans above

theorem not_mem_of_admits (forest : arena.Forest kids)
    (admits : arena.Admits parent child) (id : NodeId) : child ∉ kids id := by
  intro member
  obtain ⟨node, found, above⟩ := forest.of_mem member
  exact admits.orphan id ⟨node, found, above⟩

theorem relinked_attach (forest : arena.Forest kids)
    (admits : arena.Admits parent child) (split : kids parent = left ++ right) :
    arena.Relinked (arena.attach parent child left.getLast? right.head?)
      (Function.update kids parent (left ++ child :: right)) := by
  obtain ⟨apart, parentNode, childNode, isLive, unlinked⟩ := forest.admits_iff.mp admits
  obtain ⟨ancestors, lineage, outside⟩ := lineage_of_checkNotAbove apart
  obtain ⟨found, isTop⟩ := of_checkUnlinked forest unlinked
  have notNext : right.head? ≠ some child := by
    intro isNext
    have member : child ∈ kids parent := by
      rw [split]
      exact List.mem_append_right _ (List.mem_of_head? isNext)
    exact forest.not_mem_of_admits admits parent member
  refine ⟨forest.attach split ((read_eq_ok_iff ..).mp isLive) found isTop ?_,
    fun id => carried?_attach _ _ _ _ notNext, unmoved_storage.attach ..⟩
  exact fun others again => again.unique lineage ▸ outside

theorem append_iff (forest : arena.Forest kids) :
    (∃ after, Arena.append parent child arena = .ok () after) ↔
      arena.Admits parent child := by
  simp only [forest.admits_iff, forest.run_append, enact_eq_ok]
  constructor
  · rintro ⟨_, done⟩
    obtain ⟨apart, ⟨parentNode, isLive⟩, ⟨childNode, unlinked⟩, _⟩ := appended_eq_ok.mp done
    exact ⟨apart, parentNode, childNode, read_eq isLive, unlinked⟩
  · rintro ⟨apart, parentNode, childNode, isLive, unlinked⟩
    exact ⟨_, appended_eq_ok.mpr ⟨apart, ⟨_, (read_eq_ok_iff ..).mp isLive⟩, ⟨_, unlinked⟩,
      rfl⟩⟩

theorem relinked_append (forest : arena.Forest kids)
    (done : Arena.append parent child arena = .ok () after) :
    arena.Relinked after (Function.update kids parent (kids parent ++ [child])) := by
  have admits := forest.append_iff.mp ⟨after, done⟩
  rw [forest.run_append, enact_eq_ok] at done
  obtain ⟨_, ⟨parentNode, isLive⟩, _, rfl⟩ := appended_eq_ok.mp done
  rw [forest.attachLast_eq isLive]
  have attached := forest.relinked_attach admits (List.append_nil (kids parent)).symm
  rwa [List.head?_nil] at attached

section

variable {σ : Type} {compare : Comparator σ P} {unique : Bool} {state final : σ}

theorem admits_of_insert {inserted : Bool} (forest : arena.Forest kids)
    (done : Arena.insert parent child compare unique (arena, state) =
      .ok inserted (after, final)) : arena.Admits parent child := by
  rw [forest.run_insert, enactBeside_eq_ok] at done
  obtain ⟨parentNode, childNode, _, apart, isLive, unlinked, _⟩ :=
    forest.inserts_of_ok done
  exact forest.admits_iff.mpr ⟨apart, parentNode, childNode, isLive, unlinked⟩

theorem relinked_insert (forest : arena.Forest kids)
    (done : Arena.insert parent child compare unique (arena, state) =
      .ok true (after, final)) :
    arena.Admits parent child ∧ ∃ payload before behind between,
      arena.carried? child = some (some payload) ∧
      kids parent = before ++ behind ∧
      arena.Passes compare unique payload before state between ∧
      arena.Stops compare payload behind between final ∧
      arena.Relinked after (Function.update kids parent (before ++ child :: behind)) := by
  have admits := forest.admits_of_insert done
  rw [forest.run_insert, enactBeside_eq_ok] at done
  obtain ⟨_, _, payload, _, _, unlinked, carried, ends⟩ := forest.inserts_of_ok done
  have found := (of_checkUnlinked forest unlinked).1
  cases ends with
  | placed split passes stops =>
      exact ⟨admits, payload, _, _, _, carried?_eq_some.mpr ⟨_, found, carried⟩, split,
        passes, stops, forest.relinked_attach admits split⟩

theorem eq_of_not_inserted (forest : arena.Forest kids)
    (done : Arena.insert parent child compare unique (arena, state) =
      .ok false (after, final)) :
    after = arena := by
  rw [forest.run_insert, enactBeside_eq_ok] at done
  obtain ⟨_, _, _, _, _, _, _, ends⟩ := forest.inserts_of_ok done
  cases ends with
  | kept _ => rfl

theorem inserts_of_admits {payload : P} (forest : arena.Forest kids)
    (admits : arena.Admits parent child)
    (carries : arena.carried? child = some (some payload))
    (compare : Comparator σ P) (unique : Bool) (state : σ) :
    arena.Inserts kids parent child compare unique payload state
      (arena.inserted parent child compare unique state) := by
  obtain ⟨apart, parentNode, childNode, isLive, unlinked⟩ := forest.admits_iff.mp admits
  obtain ⟨node, isNode, carried⟩ := carried?_eq_some.mp carries
  obtain rfl := Option.some.inj ((of_checkUnlinked forest unlinked).1.symm.trans isNode)
  exact forest.inserts apart isLive unlinked carried compare unique state

theorem exists_insert {payload : P} (forest : arena.Forest kids)
    (admits : arena.Admits parent child)
    (carries : arena.carried? child = some (some payload))
    (filled : ∀ sibling ∈ kids parent, arena.carried? sibling ≠ some none)
    (total : ∀ left right before, ∃ ordering after,
      compare left right before = .ok ordering after) (state : σ) :
    ∃ after final, Arena.insert parent child compare false (arena, state) =
      .ok true (after, final) := by
  have ends := forest.inserts_of_admits admits carries compare false state
  rw [forest.run_insert]
  generalize arena.inserted parent child compare false state = outcome at ends ⊢
  generalize isSiblings : kids parent = siblings at *
  cases ends with
  | placed _ _ _ => exact ⟨_, _, rfl⟩
  | kept spotted =>
      rw [isSiblings] at spotted
      cases spotted with
      | duplicate _ isUnique _ => cases isUnique
  | failed spotted =>
      rw [isSiblings] at spotted
      cases spotted with
      | bare _ bare => exact absurd bare (filled _ (by simp))
      | raised _ _ raised =>
          obtain ⟨ordering, after, answered⟩ := total _ _ _
          cases raised.symm.trans answered

end

theorem replace_iff (forest : arena.Forest kids) :
    (∃ after, Arena.replace old new arena = .ok () after) ↔
      old ≠ new ∧ ∃ parent, arena.IsParent parent old ∧ arena.Admits parent new := by
  simp only [forest.run_replace, enact_eq_ok]
  constructor
  · rintro ⟨after, done⟩
    obtain ⟨different, oldNode, parent, newNode, found, above, apart, unlinked, _⟩ :=
      replaced_eq_ok.mp done
    obtain ⟨ancestors, lineage, _⟩ := lineage_of_checkNotAbove apart
    obtain ⟨parentNode, isLive⟩ := lineage.live
    exact ⟨different, parent, ⟨oldNode, found, above⟩, forest.admits_iff.mpr
      ⟨apart, parentNode, newNode, read_eq isLive, unlinked⟩⟩
  · rintro ⟨different, parent, ⟨oldNode, found, above⟩, admits⟩
    obtain ⟨apart, _, newNode, _, unlinked⟩ := forest.admits_iff.mp admits
    exact ⟨_, replaced_eq_ok.mpr
      ⟨different, oldNode, parent, newNode, found, above, apart, unlinked, rfl⟩⟩

theorem detached (forest : arena.Forest kids) (live : arena.contains id = true)
    (orphan : ∀ other, id ∉ kids other) : arena.Detached id := by
  obtain ⟨node, found⟩ := contains_iff.mp live
  refine ⟨node, found, ?_⟩
  rw [forest.isLinked_eq found]
  cases above : node.parent with
  | none => rfl
  | some parent => exact absurd (forest.listed found above) (orphan parent)

end Forest

theorem Relinked.contains_eq {others : NodeId → List NodeId}
    (relinked : arena.Relinked after others) (id : NodeId) :
    after.contains id = arena.contains id := by
  have same := congrArg Option.isSome (relinked.carried id)
  rwa [carried?, carried?, Option.isSome_map, Option.isSome_map] at same

theorem Relinked.detached {others : NodeId → List NodeId}
    (relinked : arena.Relinked after others) (live : arena.contains id = true)
    (orphan : ∀ other, id ∉ others other) : after.Detached id :=
  relinked.forest.detached ((relinked.contains_eq id).trans live) orphan

namespace Forest

theorem relinked_replace (forest : arena.Forest kids)
    (done : Arena.replace old new arena = .ok () after) :
    ∃ parent, arena.IsParent parent old ∧ arena.Relinked after
      (Function.update kids parent ((kids parent).replace old new)) ∧
      after.Detached old := by
  obtain ⟨different, parent, isParent, admits⟩ := forest.replace_iff.mp ⟨after, done⟩
  rw [forest.run_replace, enact_eq_ok] at done
  obtain ⟨above, left, right, split, rfl, edited⟩ := forest.replaced done
  have member : old ∈ kids above := by simp [split]
  obtain ⟨oldNode, found, isAbove⟩ := isParent
  obtain rfl : above = parent :=
    forest.parent_unique member (forest.listed found isAbove)
  have distinct : (left ++ old :: right).Nodup := split ▸ forest.nodup above
  have absent : old ∉ left := by grind
  have listed : (kids above).replace old new = left ++ new :: right := by
    rw [split, List.replace_append_right absent, List.replace_cons_self]
  have notNext : right.head? ≠ some new := by
    intro isNext
    refine forest.not_mem_of_admits admits above ?_
    rw [split]
    exact List.mem_append_right _ (List.mem_cons_of_mem _ (List.mem_of_head? isNext))
  have relinked : arena.Relinked ((arena.modify old Node.unlinked).place above new
      left.getLast? right.head?)
      (Function.update kids above ((kids above).replace old new)) := by
    refine ⟨listed ▸ edited, fun id => ?_,
      (unmoved_storage.place ..).trans (unmoved_storage arena old _)⟩
    rw [carried?_place _ _ _ _ notNext, carried?, carried?, node?_modify, Option.map_map]
    congr 1
    funext node
    by_cases same : id = old <;> simp [same, Node.unlinked]
  refine ⟨above, ⟨oldNode, found, isAbove⟩, relinked,
    relinked.detached (contains_iff.mpr ⟨oldNode, found⟩) fun other again => ?_⟩
  by_cases same : other = above
  · rw [same, Function.update_self, listed] at again
    grind
  · rw [Function.update_of_ne same] at again
    exact same (forest.parent_unique again member)

theorem remove_iff (forest : arena.Forest kids) :
    (∃ after, Arena.remove parent child arena = .ok () after) ↔
      arena.contains parent = true ∧ arena.contains child = true ∧
        parent ≠ child ∧ arena.IsParent parent child := by
  simp only [forest.run_remove, enact_eq_ok]
  constructor
  · rintro ⟨after, done⟩
    have member := forest.mem_of_remove done
    obtain ⟨node, found, above⟩ := forest.of_mem member
    refine ⟨contains_iff.mpr (forest.parent_live member),
      contains_iff.mpr ⟨node, found⟩, ?_, node, found, above⟩
    rintro rfl
    exact forest.not_mem_self member
  · rintro ⟨_, _, _, node, found, above⟩
    obtain ⟨left, right, split⟩ := List.append_of_mem (forest.listed found above)
    exact ⟨_, forest.remove_eq split⟩

theorem relinked_remove (forest : arena.Forest kids)
    (done : Arena.remove parent child arena = .ok () after) :
    arena.Relinked after (Function.update kids parent ((kids parent).erase child)) ∧
      after.Detached child := by
  rw [forest.run_remove, enact_eq_ok] at done
  have member := forest.mem_of_remove done
  obtain ⟨node, found, _⟩ := forest.of_mem member
  obtain ⟨left, right, split⟩ := List.append_of_mem member
  cases (forest.remove_eq split).symm.trans done
  obtain ⟨notPrevious, notNext⟩ := forest.neighbours_ne split
  have distinct : (left ++ child :: right).Nodup := split ▸ forest.nodup parent
  have absent : child ∉ left := by grind
  have listed : (kids parent).erase child = left ++ right := by
    rw [split, List.erase_append_right _ absent, List.erase_cons_head]
  have relinked : arena.Relinked
      (arena.detach parent child left.getLast? right.head?)
      (Function.update kids parent ((kids parent).erase child)) :=
    ⟨listed ▸ forest.detach split,
      fun id => carried?_detach _ _ _ _ notPrevious notNext, unmoved_storage.detach ..⟩
  refine ⟨relinked, relinked.detached (contains_iff.mpr ⟨node, found⟩) fun other again => ?_⟩
  by_cases same : other = parent
  · rw [same, Function.update_self, listed] at again
    grind
  · rw [Function.update_of_ne same] at again
    exact same (forest.parent_unique again member)

theorem collapse_iff (forest : arena.Forest kids) :
    (∃ payload after, Arena.collapse id arena = .ok payload after) ↔
      arena.contains id = true ∧ ∃ child, kids id = [child] := by
  simp only [forest.run_collapse, enact_eq_ok]
  constructor
  · rintro ⟨payload, after, done⟩
    obtain ⟨child, only⟩ := forest.only_of_collapse done
    exact ⟨contains_iff.mpr (forest.parent_live (by simp [only] : child ∈ kids id)),
      child, only⟩
  · rintro ⟨live, child, only⟩
    obtain ⟨node, found⟩ := contains_iff.mp live
    obtain ⟨childNode, isChild, _⟩ := forest.of_mem (by simp [only] : child ∈ kids id)
    obtain ⟨after, done, _⟩ := forest.collapse_eq found isChild only
    exact ⟨_, _, done⟩

theorem collapsed {payload : Option P} (forest : arena.Forest kids)
    (done : Arena.collapse id arena = .ok payload after) :
    ∃ child, kids id = [child] ∧ arena.Collapsed after kids id child payload := by
  rw [forest.run_collapse, enact_eq_ok] at done
  obtain ⟨child, only⟩ := forest.only_of_collapse done
  have member : child ∈ kids id := by simp [only]
  have different : id ≠ child := by
    rintro rfl
    exact forest.not_mem_self member
  obtain ⟨node, found⟩ := forest.parent_live member
  obtain ⟨childNode, isChild, _⟩ := forest.of_mem member
  obtain ⟨merging, again, isAfter, lookup⟩ := forest.collapse_eq found isChild only
  obtain ⟨rfl, rfl⟩ := Prod.mk.inj (Except.ok.inj (again.symm.trans done))
  have carried : ∀ other, other ≠ child → merging.carried? other =
      if other = id then some childNode.payload else arena.carried? other := by
    intro other notChild
    rw [carried?, lookup, if_neg notChild, Option.map_map]
    by_cases same : other = id
    · simp [same, found, merged]
    · rw [if_neg same, carried?]
      congr 1
      funext node
      by_cases below : other ∈ kids child <;> simp [merged, same, below]
  have edited : Function.update (Function.update kids child []) id (kids child) =
      fun other => if other = id then kids child
        else if other = child then [] else kids other := by
    funext other
    simp only [Function.update_apply]
  have live : ((arena.adopt id (kids child)).modify id
      ({ · with payload := childNode.payload })).contains child = true := by
    rw [contains_modify, (unmoved_contains child).adopt arena id (kids child)]
    exact contains_iff.mpr ⟨childNode, isChild⟩
  have held := (unmoved_storage (arena.adopt id (kids child)) id
    ({ · with payload := childNode.payload })).trans
    (unmoved_storage.adopt arena id (kids child))
  refine ⟨child, only, edited ▸ forest.of_merged only lookup, carried?_of_node? found,
    ?_, ?_, ?_, ?_, ?_, ?_⟩
  · rw [carried id different, if_pos rfl, carried?_of_node? isChild]
  · rw [contains, lookup, if_pos rfl]
    rfl
  · intro other notId notChild
    rw [carried other notChild, if_neg notId]
  · rw [isAfter, discard, if_pos live]
    exact congrArg (child.index :: ·.2.1) held
  · rw [isAfter, discard, if_pos live]
    exact congrArg (·.2.2.1) held
  · rw [isAfter, discard, if_pos live]
    exact congrArg (fun held => (held.2.2.2.add .freed 1).add .collapses 1) held

end Forest

end

def Request.isLinking : Request P → Bool
  | .append .. | .insert .. | .replace .. | .remove .. | .collapse _ => true
  | _ => false

/-- When each linking call succeeds, and what it does to the child lists. -/
structure Relinks (arena : Arena P) (kids : NodeId → List NodeId) : Prop where
  listed : ∀ id, arena.contains id = true → arena.children id = .ok (kids id)
  append_iff : ∀ parent child,
    (∃ after, Arena.append parent child arena = .ok () after) ↔ arena.Admits parent child
  append : ∀ parent child after, Arena.append parent child arena = .ok () after →
    arena.Relinked after (Function.update kids parent (kids parent ++ [child]))
  /-- The child comes right before the first sibling it compares less against,
  or last. -/
  insert : ∀ {σ : Type} parent child (compare : Comparator σ P) unique state after final,
    Arena.insert parent child compare unique (arena, state) = .ok true (after, final) →
    arena.Admits parent child ∧ ∃ payload before behind between,
      arena.carried? child = some (some payload) ∧
      kids parent = before ++ behind ∧
      arena.Passes compare unique payload before state between ∧
      arena.Stops compare payload behind between final ∧
      arena.Relinked after (Function.update kids parent (before ++ child :: behind))
  insert_exists : ∀ {σ : Type} parent child (compare : Comparator σ P) payload state,
    arena.Admits parent child → arena.carried? child = some (some payload) →
    (∀ sibling ∈ kids parent, arena.carried? sibling ≠ some none) →
    (∀ left right before, ∃ ordering after,
      compare left right before = .ok ordering after) →
    ∃ after final, Arena.insert parent child compare false (arena, state) =
      .ok true (after, final)
  insert_kept : ∀ {σ : Type} parent child (compare : Comparator σ P) unique state after
    final, Arena.insert parent child compare unique (arena, state) =
      .ok false (after, final) → after = arena
  replace_iff : ∀ old new, (∃ after, Arena.replace old new arena = .ok () after) ↔
    old ≠ new ∧ ∃ parent, arena.IsParent parent old ∧ arena.Admits parent new
  replace : ∀ old new after, Arena.replace old new arena = .ok () after →
    ∃ parent, arena.IsParent parent old ∧ arena.Relinked after
      (Function.update kids parent ((kids parent).replace old new)) ∧ after.Detached old
  remove_iff : ∀ parent child, (∃ after, Arena.remove parent child arena = .ok () after) ↔
    arena.contains parent = true ∧ arena.contains child = true ∧ parent ≠ child ∧
      arena.IsParent parent child
  remove : ∀ parent child after, Arena.remove parent child arena = .ok () after →
    arena.Relinked after
      (Function.update kids parent ((kids parent).erase child)) ∧ after.Detached child
  collapse_iff : ∀ id, (∃ payload after, Arena.collapse id arena = .ok payload after) ↔
    arena.contains id = true ∧ ∃ child, kids id = [child]
  collapse : ∀ id payload after, Arena.collapse id arena = .ok payload after →
    ∃ child, kids id = [child] ∧ arena.Collapsed after kids id child payload
  refused : ∀ request : Request P, request.isLinking = true →
    (arena.failure? request).isSome = true → arena.perform request = arena

private theorem reached_enact {β : Type} {arena : Arena P}
    {outcome : Except Error (β × Arena P)}
    (failed : (raised? (arena.enact outcome)).isSome = true) :
    reached (arena.enact outcome) = arena := by
  cases outcome with
  | ok _ => cases failed
  | error _ => rfl

theorem Forest.perform_of_failure {arena : Arena P} {kids : NodeId → List NodeId}
    (forest : arena.Forest kids) {request : Request P} (linking : request.isLinking = true)
    (failed : (arena.failure? request).isSome = true) :
    arena.perform request = arena := by
  cases request with
  | append parent child =>
      rw [failure?, forest.run_append] at failed
      rw [Arena.perform, forest.run_append, reached_enact failed]
  | insert parent child compare state unique =>
      rw [failure?, forest.run_insert] at failed
      rw [Arena.perform, forest.run_insert]
      cases done : arena.inserted parent child compare unique state with
      | ok outcome final => simp [done, enactBeside] at failed
      | error error final => rfl
  | replace old new =>
      rw [failure?, forest.run_replace] at failed
      rw [Arena.perform, forest.run_replace, reached_enact failed]
  | remove parent child =>
      rw [failure?, forest.run_remove] at failed
      rw [Arena.perform, forest.run_remove, reached_enact failed]
  | collapse id =>
      rw [failure?, forest.run_collapse] at failed
      rw [Arena.perform, forest.run_collapse, reached_enact failed]
  | _ => cases linking

/-- Linking calls are exact edits of child lists, and touch nothing else. -/
theorem linking_edits_lists {arena : Arena P} {kids : NodeId → List NodeId}
    (forest : arena.Forest kids) : arena.Relinks kids where
  listed _ live := forest.children_eq (contains_iff.mp live).choose_spec
  append_iff _ _ := forest.append_iff
  append _ _ _ done := forest.relinked_append done
  insert _ _ _ _ _ _ _ done := forest.relinked_insert done
  insert_exists _ _ _ _ state admits carries filled total :=
    forest.exists_insert admits carries filled total state
  insert_kept _ _ _ _ _ _ _ done := forest.eq_of_not_inserted done
  replace_iff _ _ := forest.replace_iff
  replace _ _ _ done := forest.relinked_replace done
  remove_iff _ _ := forest.remove_iff
  remove _ _ _ done := forest.relinked_remove done
  collapse_iff _ := forest.collapse_iff
  collapse _ _ _ done := forest.collapsed done
  refused _ linking failed := forest.perform_of_failure linking failed

theorem linking_edits_lists_replaced : ∃ (arena : Arena Nat) (kids : NodeId → List NodeId),
    [.allocate (some 5), .allocate (some 1), .allocate (some 2), .allocate (some 3),
      .append ⟨0, 0⟩ ⟨1, 0⟩, .append ⟨0, 0⟩ ⟨2, 0⟩].foldl perform
        ({ capacity := 4 } : Arena Nat) = arena ∧
      arena.Forest kids ∧ arena.Relinks kids ∧
      ∃ after, Arena.replace ⟨1, 0⟩ ⟨3, 0⟩ arena = .ok () after ∧
        after.children ⟨0, 0⟩ = .ok [⟨3, 0⟩, ⟨2, 0⟩] ∧ after.Detached ⟨1, 0⟩ := by
  have started : (withCapacity 4 : Except Error (Arena Nat)) =
      .ok { capacity := 4 } := rfl
  obtain ⟨kids, forest⟩ := (forest_withCapacity started).history
    [.allocate (some 5), .allocate (some 1), .allocate (some 2), .allocate (some 3),
      .append ⟨0, 0⟩ ⟨1, 0⟩, .append ⟨0, 0⟩ ⟨2, 0⟩]
  have relinks := linking_edits_lists forest
  generalize isArena : [Request.allocate (some 5), .allocate (some 1), .allocate (some 2),
    .allocate (some 3), .append ⟨0, 0⟩ ⟨1, 0⟩, .append ⟨0, 0⟩ ⟨2, 0⟩].foldl perform
      ({ capacity := 4 } : Arena Nat) = arena at forest relinks ⊢
  have done : returned? (Arena.replace ⟨1, 0⟩ ⟨3, 0⟩ arena) = some () := by
    subst isArena
    decide +kernel
  have children : (reached (Arena.replace ⟨1, 0⟩ ⟨3, 0⟩ arena)).children ⟨0, 0⟩ =
      .ok [⟨3, 0⟩, ⟨2, 0⟩] := by
    subst isArena
    decide +kernel
  obtain ⟨after, done⟩ := returned?_eq_some.mp done
  rw [done, reached_ok] at children
  obtain ⟨_, _, _, detached⟩ := relinks.replace _ _ _ done
  exact ⟨arena, kids, rfl, forest, relinks, after, done, children, detached⟩

end LinkedBTree.Arena
