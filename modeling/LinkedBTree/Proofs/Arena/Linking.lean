import Mathlib.Logic.Function.Basic
import LinkedBTree.Proofs.Arena.Forest

namespace LinkedBTree

section

variable {α : Type} {left right before after : List α} {item : α}

private theorem getLast?_eq_iff (nodup : (before ++ item :: after).Nodup) :
    (before ++ item :: after).getLast? = some item ↔ after = [] := by
  cases after with
  | nil => simp
  | cons head tail =>
      have later : (before ++ item :: head :: tail).getLast? =
          (head :: tail).getLast? := by
        simp [List.getLast?_cons]
      simp only [reduceCtorEq, iff_false, later]
      intro last
      have := List.mem_of_getLast? last
      grind

private theorem head?_eq_iff (nodup : (before ++ item :: after).Nodup) :
    (before ++ item :: after).head? = some item ↔ before = [] := by
  cases before with
  | nil => simp
  | cons head tail => grind

private theorem head?_insert (left right : List α) (item : α) :
    (left ++ item :: right).head? =
      if left.getLast? = none then some item else (left ++ right).head? := by
  cases left <;> simp

private theorem getLast?_insert (left right : List α) (item : α) :
    (left ++ item :: right).getLast? =
      if right.head? = none then some item else (left ++ right).getLast? := by
  cases right <;> simp [List.getLast?_cons]

theorem append_eq_append_cons (same : left ++ right = before ++ item :: after) :
    (∃ between, right = between ++ item :: after ∧ before = left ++ between) ∨
      ∃ between, left = before ++ item :: between ∧
        after = between ++ right := by
  rcases List.append_eq_append_iff.mp same with
    ⟨between, rfl, tail⟩ | ⟨between, rfl, tail⟩
  · exact .inl ⟨between, tail, rfl⟩
  · cases between with
    | nil => exact .inl ⟨[], by simpa using tail.symm, by simp⟩
    | cons head between =>
        obtain ⟨rfl, rfl⟩ := List.cons.inj tail
        exact .inr ⟨between, rfl, rfl⟩

theorem append_cons_inj (nodup : (before ++ item :: after).Nodup)
    (same : before ++ item :: after = left ++ item :: right) :
    before = left ∧ after = right := by
  induction before generalizing left with
  | nil => cases left <;> grind
  | cons head tail induction => cases left <;> grind

end

namespace Arena

/-! Editing child lists keeps an arena a forest, and changes the list that the
edit is about and no other. -/

variable {P : Type}

theorem node?_join (arena : Arena P) (parent id : NodeId)
    (previous next : Option NodeId) :
    (arena.join parent previous next).node? id =
      (arena.node? id).map fun node =>
        { node with
          previous := if next = some id then previous else node.previous
          next := if previous = some id then next else node.next
          firstChild :=
            if id = parent ∧ previous = none then next else node.firstChild
          lastChild :=
            if id = parent ∧ next = none then previous else node.lastChild } := by
  unfold join joinForward joinBackward
  cases previous <;> cases next <;>
    simp only [node?_modify, Option.map_map] <;>
    congr 1 <;> funext node <;> cases node <;> grind

def placed (parent child : NodeId) (previous next : Option NodeId)
    (id : NodeId) (node : Node P) : Node P :=
  { node with
    parent := if id = child then some parent else node.parent
    previous :=
      if id = child then previous
      else if next = some id then some child else node.previous
    next :=
      if id = child then next
      else if previous = some id then some child else node.next
    firstChild :=
      if id = parent ∧ previous = none then some child else node.firstChild
    lastChild :=
      if id = parent ∧ next = none then some child else node.lastChild }

theorem node?_place (arena : Arena P) (parent child id : NodeId)
    {previous next : Option NodeId} (notNext : next ≠ some child) :
    (arena.place parent child previous next).node? id =
      (arena.node? id).map (placed parent child previous next id) := by
  unfold place
  simp only [node?_modify, node?_join, Option.map_map]
  congr 1
  funext node
  cases node
  grind [placed]

theorem node?_attach (arena : Arena P) (parent child id : NodeId)
    {previous next : Option NodeId} (notNext : next ≠ some child) :
    (arena.attach parent child previous next).node? id =
      (arena.node? id).map fun node =>
        { placed parent child previous next id node with
          childCount :=
            if id = parent then node.childCount + 1 else node.childCount } := by
  unfold attach
  simp only [node?_modify, node?_place arena parent child _ notNext,
    Option.map_map]
  congr 1
  funext node
  cases node
  grind [placed]

def parted (parent child : NodeId) (previous next : Option NodeId)
    (id : NodeId) (node : Node P) : Node P :=
  { node with
    parent := if id = child then none else node.parent
    previous :=
      if id = child then none
      else if next = some id then previous else node.previous
    next :=
      if id = child then none
      else if previous = some id then next else node.next
    firstChild :=
      if id = parent ∧ previous = none then next else node.firstChild
    lastChild :=
      if id = parent ∧ next = none then previous else node.lastChild
    childCount := if id = parent then node.childCount - 1 else node.childCount }

theorem node?_detach (arena : Arena P) (parent child id : NodeId)
    {previous next : Option NodeId} (notPrevious : previous ≠ some child)
    (notNext : next ≠ some child) :
    (arena.detach parent child previous next).node? id =
      (arena.node? id).map (parted parent child previous next id) := by
  unfold detach
  simp only [node?_modify, node?_join, Option.map_map]
  congr 1
  funext node
  cases node
  grind [parted, Node.unlinked]

namespace Forest

variable {arena other : Arena P} {kids : NodeId → List NodeId}
  {parent child : NodeId} {left right : List NodeId}

theorem placement {node : Node P} (forest : arena.Forest kids)
    (found : arena.node? child = some node) (above : node.parent = some parent) :
    ∃ before after, kids parent = before ++ child :: after ∧
      node.previous = before.getLast? ∧ node.next = after.head? := by
  obtain ⟨before, after, split⟩ :=
    List.append_of_mem (forest.listed found above)
  obtain ⟨known, isFound, _, previous, next⟩ := forest.child split
  cases found.symm.trans isFound
  exact ⟨before, after, split, previous, next⟩

theorem of_nodes (nodup : ∀ id, (kids id).Nodup)
    (none_of_dead : ∀ id, arena.node? id = none → kids id = [])
    (ends : ∀ id node, arena.node? id = some node →
      node.firstChild = (kids id).head? ∧ node.lastChild = (kids id).getLast? ∧
        node.childCount = (kids id).length)
    (child : ∀ parent id, id ∈ kids parent →
      ∃ node, arena.node? id = some node ∧ node.parent = some parent)
    (place : ∀ id node, arena.node? id = some node →
      match node.parent with
      | none => node.previous = none ∧ node.next = none
      | some parent => ∃ before after, kids parent = before ++ id :: after ∧
          node.previous = before.getLast? ∧ node.next = after.head?)
    (grounded : ∀ id node, arena.node? id = some node →
      ∃ ancestors, arena.Lineage id ancestors) :
    arena.Forest kids where
  nodup := nodup
  none_of_dead := fun {id} => none_of_dead id
  firstChild := fun {id node} found => (ends id node found).1
  lastChild := fun {id node} found => (ends id node found).2.1
  childCount := fun {id node} found => (ends id node found).2.2
  child := by
    intro parent before id after split
    obtain ⟨node, found, above⟩ := child parent id (by simp [split])
    have placement := place id node found
    rw [above] at placement
    obtain ⟨left, right, again, previous, next⟩ := placement
    obtain ⟨rfl, rfl⟩ := append_cons_inj (split ▸ nodup parent)
      (split.symm.trans again)
    exact ⟨node, found, above, previous, next⟩
  listed := by
    intro id node parent found above
    have placement := place id node found
    rw [above] at placement
    obtain ⟨left, right, split, _⟩ := placement
    simp [split]
  alone := by
    intro id node found above
    have placement := place id node found
    rwa [above] at placement
  grounded := fun {id node} => grounded id node

/-- Climbing still ends if every node either is known to have an end above it
or has the parent it had. -/
theorem grounded_of_step (forest : arena.Forest kids)
    (step : ∀ id node, other.node? id = some node →
      (∃ ancestors, other.Lineage id ancestors) ∨
        ∃ old, arena.node? id = some old ∧ node.parent = old.parent ∧
          ∀ parent, node.parent = some parent →
            ∃ parentNode, other.node? parent = some parentNode)
    (id : NodeId) (node : Node P) (found : other.node? id = some node) :
    ∃ ancestors, other.Lineage id ancestors := by
  suffices climb : ∀ ancestors id, arena.Lineage id ancestors →
      ∀ node, other.node? id = some node →
        ∃ ancestors, other.Lineage id ancestors by
    rcases step id node found with done | ⟨old, known, _, _⟩
    · exact done
    · obtain ⟨ancestors, lineage⟩ := forest.grounded known
      exact climb ancestors id lineage node found
  intro ancestors id lineage
  induction lineage with
  | @top id old known isTop =>
      intro node found
      rcases step id node found with done | ⟨again, isKnown, same, _⟩
      · exact done
      · cases known.symm.trans isKnown
        exact ⟨[], .top found (same.trans isTop)⟩
  | @under id parent old ancestors known isParent above induction =>
      intro node found
      rcases step id node found with done | ⟨again, isKnown, same, stays⟩
      · exact done
      · cases known.symm.trans isKnown
        have isParent := same.trans isParent
        obtain ⟨parentNode, parentFound⟩ := stays parent isParent
        obtain ⟨climbed, lineage⟩ := induction parentNode parentFound
        exact ⟨parent :: climbed, .under found isParent lineage⟩

theorem not_mem_of_top {node : Node P} (forest : arena.Forest kids)
    (found : arena.node? child = some node) (isTop : node.parent = none)
    (id : NodeId) : child ∉ kids id := by
  intro member
  rw [forest.mem_iff found, isTop] at member
  cases member

private theorem place_of_placed {id child : NodeId} {old : Node P}
    (forest : arena.Forest kids) (split : kids parent = left ++ right)
    (known : arena.node? id = some old) (isOther : id ≠ child) :
    match old.parent with
    | none =>
        (placed parent child left.getLast? right.head? id old).previous = none ∧
          (placed parent child left.getLast? right.head? id old).next = none
    | some above =>
        ∃ before after,
          Function.update kids parent (left ++ child :: right) above =
            before ++ id :: after ∧
          (placed parent child left.getLast? right.head? id old).previous =
            before.getLast? ∧
          (placed parent child left.getLast? right.head? id old).next =
            after.head? := by
  have distinct : (left ++ right).Nodup := split ▸ forest.nodup parent
  have beside : right.head? = some id ∨ left.getLast? = some id →
      old.parent = some parent := by
    intro isNeighbour
    apply (forest.mem_iff known).mp
    rw [split, List.mem_append]
    exact isNeighbour.elim (fun next => .inr (List.mem_of_head? next))
      fun previous => .inl (List.mem_of_getLast? previous)
  cases isParent : old.parent with
  | none =>
      obtain ⟨previous, next⟩ := forest.alone known isParent
      have notNext : right.head? ≠ some id := by grind
      have notPrevious : left.getLast? ≠ some id := by grind
      simp [placed, isOther, notNext, notPrevious, previous, next]
  | some above =>
      obtain ⟨before, after, cut, previous, next⟩ :=
        forest.placement known isParent
      by_cases same : above = parent
      · subst same
        simp only [Function.update_self, placed, isOther, if_false]
        rw [split] at cut
        rcases append_eq_append_cons cut with
          ⟨between, rfl, rfl⟩ | ⟨between, rfl, rfl⟩
        · have notPrevious : left.getLast? ≠ some id := by
            intro isLast
            have := List.mem_of_getLast? isLast
            grind
          have parted : (between ++ id :: after).Nodup := by grind
          refine ⟨left ++ child :: between, after, by simp, ?_, ?_⟩
          · rw [getLast?_insert, previous]
            simp only [head?_eq_iff parted, List.head?_eq_none_iff]
          · simp [notPrevious, next]
        · have notNext : right.head? ≠ some id := by
            intro isFirst
            have := List.mem_of_head? isFirst
            grind
          have parted : (before ++ id :: between).Nodup := by grind
          refine ⟨before, between ++ child :: right, by simp, ?_, ?_⟩
          · simp [notNext, previous]
          · rw [head?_insert, next]
            simp only [getLast?_eq_iff parted, List.getLast?_eq_none_iff]
      · have notNext : right.head? ≠ some id := by grind
        have notPrevious : left.getLast? ≠ some id := by grind
        refine ⟨before, after, ?_, ?_, ?_⟩
        · rw [Function.update_of_ne same, cut]
        · simp [placed, isOther, notNext, previous]
        · simp [placed, isOther, notPrevious, next]

/-- Putting an unlinked node between two neighbours puts it into the list, as
long as it is not above its new parent. -/
theorem attach {parentNode childNode : Node P} (forest : arena.Forest kids)
    (split : kids parent = left ++ right)
    (isLive : arena.node? parent = some parentNode)
    (found : arena.node? child = some childNode)
    (isTop : childNode.parent = none)
    (apart : ∀ ancestors, arena.Lineage parent ancestors →
      child ∉ parent :: ancestors) :
    (arena.attach parent child left.getLast? right.head?).Forest
      (Function.update kids parent (left ++ child :: right)) := by
  have outside : child ∉ left ++ right :=
    split ▸ forest.not_mem_of_top found isTop parent
  have distinct : (left ++ right).Nodup := split ▸ forest.nodup parent
  have notNext : right.head? ≠ some child := fun next =>
    outside (List.mem_append_right left (List.mem_of_head? next))
  obtain ⟨ancestors, lineage⟩ := forest.grounded isLive
  have apart := apart ancestors lineage
  have lookup : ∀ id, (arena.attach parent child left.getLast? right.head?).node? id =
      (arena.node? id).map _ := fun id =>
    node?_attach arena parent child id notNext
  generalize arena.attach parent child left.getLast? right.head? = attached
    at lookup ⊢
  refine of_nodes ?_ ?_ ?_ ?_ ?_ (forest.grounded_of_step ?_)
  · intro id
    rw [Function.update_apply]
    split
    · grind
    · exact forest.nodup id
  · intro id dead
    rw [lookup, Option.map_eq_none_iff] at dead
    rw [Function.update_of_ne (by grind), forest.none_of_dead dead]
  · intro id node isFound
    rw [lookup] at isFound
    obtain ⟨old, known, rfl⟩ := Option.map_eq_some_iff.mp isFound
    by_cases same : id = parent
    · subst same
      have first := forest.firstChild known
      have last := forest.lastChild known
      have count := forest.childCount known
      rw [split] at first last count
      rw [Function.update_self, head?_insert, getLast?_insert]
      refine ⟨?_, ?_, ?_⟩
      · simp [placed, first]
      · simp [placed, last]
      · simp [count, Nat.add_assoc]
    · rw [Function.update_of_ne same]
      simp [placed, same, forest.firstChild known, forest.lastChild known,
        forest.childCount known]
  · intro above id member
    by_cases isChild : id = child
    · subst isChild
      have : above = parent := by
        by_contra different
        rw [Function.update_of_ne different] at member
        exact forest.not_mem_of_top found isTop above member
      exact ⟨_, by rw [lookup, found]; rfl, by simp [placed, this]⟩
    · have member : id ∈ kids above := by
        rw [Function.update_apply] at member
        split at member <;> grind
      obtain ⟨old, known, isParent⟩ := forest.of_mem member
      exact ⟨_, by rw [lookup, known]; rfl, by simp [placed, isChild, isParent]⟩
  · intro id node isFound
    rw [lookup] at isFound
    obtain ⟨old, known, rfl⟩ := Option.map_eq_some_iff.mp isFound
    by_cases isChild : id = child
    · subst isChild
      simp only [placed, if_true]
      exact ⟨left, right, Function.update_self .., rfl, rfl⟩
    · have := place_of_placed forest split known isChild
      simpa only [placed, isChild, if_false] using this
  · intro id node isFound
    rw [lookup] at isFound
    obtain ⟨old, known, rfl⟩ := Option.map_eq_some_iff.mp isFound
    by_cases isChild : id = child
    · subst isChild
      have above : attached.Lineage parent ancestors := by
        apply lineage.congr
        intro member isMember
        have : member ≠ id := by
          rintro rfl
          exact apart isMember
        simp [lookup, placed, this, Function.comp_def]
      exact .inl ⟨parent :: ancestors,
        .under (by rw [lookup, found]; rfl) (by simp [placed]) above⟩
    · refine .inr ⟨old, known, by simp [placed, isChild], fun above isParent => ?_⟩
      have isParent : old.parent = some above := by
        simpa [placed, isChild] using isParent
      obtain ⟨aboveNode, isAbove⟩ :=
        forest.parent_live (forest.listed known isParent)
      exact ⟨_, by rw [lookup, isAbove]; rfl⟩

theorem neighbours_ne (forest : arena.Forest kids)
    (split : kids parent = left ++ child :: right) :
    left.getLast? ≠ some child ∧ right.head? ≠ some child := by
  have distinct : (left ++ child :: right).Nodup := split ▸ forest.nodup parent
  constructor
  · intro isLast
    have := List.mem_of_getLast? isLast
    grind
  · intro isFirst
    have := List.mem_of_head? isFirst
    grind

private theorem place_of_parted {id : NodeId} {old : Node P}
    (forest : arena.Forest kids) (split : kids parent = left ++ child :: right)
    (known : arena.node? id = some old) (isOther : id ≠ child) :
    match old.parent with
    | none =>
        (parted parent child left.getLast? right.head? id old).previous = none ∧
          (parted parent child left.getLast? right.head? id old).next = none
    | some above =>
        ∃ before after,
          Function.update kids parent (left ++ right) above =
            before ++ id :: after ∧
          (parted parent child left.getLast? right.head? id old).previous =
            before.getLast? ∧
          (parted parent child left.getLast? right.head? id old).next =
            after.head? := by
  have distinct : (left ++ child :: right).Nodup := split ▸ forest.nodup parent
  have beside : right.head? = some id ∨ left.getLast? = some id →
      old.parent = some parent := by
    intro isNeighbour
    apply (forest.mem_iff known).mp
    rw [split, List.mem_append, List.mem_cons]
    exact isNeighbour.elim
      (fun next => .inr (.inr (List.mem_of_head? next)))
      fun previous => .inl (List.mem_of_getLast? previous)
  cases isParent : old.parent with
  | none =>
      obtain ⟨previous, next⟩ := forest.alone known isParent
      have notNext : right.head? ≠ some id := by grind
      have notPrevious : left.getLast? ≠ some id := by grind
      simp [parted, isOther, notNext, notPrevious, previous, next]
  | some above =>
      obtain ⟨before, after, cut, previous, next⟩ :=
        forest.placement known isParent
      by_cases same : above = parent
      · subst same
        simp only [Function.update_self, parted, isOther, if_false]
        rw [split] at cut
        rcases append_eq_append_cons cut with
          ⟨between, tail, rfl⟩ | ⟨between, rfl, rfl⟩
        · cases between with
          | nil => exact absurd (List.cons.inj tail).1.symm isOther
          | cons head between =>
              obtain ⟨rfl, rfl⟩ := List.cons.inj tail
              have notPrevious : left.getLast? ≠ some id := by
                intro isLast
                have := List.mem_of_getLast? isLast
                grind
              refine ⟨left ++ between, after, by simp, ?_, ?_⟩
              · cases between with
                | nil => simp
                | cons head between =>
                    have : head ≠ id := by grind
                    simp [previous, this, List.getLast?_append,
                      List.getLast?_cons]
              · simp [notPrevious, next]
        · have notNext : right.head? ≠ some id := by
            intro isFirst
            have := List.mem_of_head? isFirst
            grind
          refine ⟨before, between ++ right, by simp, ?_, ?_⟩
          · simp [notNext, previous]
          · have distinct : (before ++ id :: between).Nodup := by grind
            rw [next]
            simp only [getLast?_eq_iff distinct]
            cases between with
            | nil => simp
            | cons head between => simp
      · have notNext : right.head? ≠ some id := by grind
        have notPrevious : left.getLast? ≠ some id := by grind
        refine ⟨before, after, ?_, ?_, ?_⟩
        · rw [Function.update_of_ne same, cut]
        · simp [parted, isOther, notNext, previous]
        · simp [parted, isOther, notPrevious, next]

theorem detach (forest : arena.Forest kids)
    (split : kids parent = left ++ child :: right) :
    (arena.detach parent child left.getLast? right.head?).Forest
      (Function.update kids parent (left ++ right)) := by
  have isChild : child ∈ kids parent := by simp [split]
  obtain ⟨childNode, found, isParent⟩ := forest.of_mem isChild
  have distinct : (left ++ child :: right).Nodup := split ▸ forest.nodup parent
  obtain ⟨notPrevious, notNext⟩ := forest.neighbours_ne split
  have lookup : ∀ id, (arena.detach parent child left.getLast? right.head?).node? id =
      (arena.node? id).map _ := fun id =>
    node?_detach arena parent child id notPrevious notNext
  generalize arena.detach parent child left.getLast? right.head? = after
    at lookup ⊢
  refine of_nodes ?_ ?_ ?_ ?_ ?_ (forest.grounded_of_step ?_)
  · intro id
    rw [Function.update_apply]
    split
    · grind
    · exact forest.nodup id
  · intro id dead
    rw [lookup, Option.map_eq_none_iff] at dead
    have := forest.none_of_dead dead
    rw [Function.update_of_ne (by grind), this]
  · intro id node isFound
    rw [lookup] at isFound
    obtain ⟨old, known, rfl⟩ := Option.map_eq_some_iff.mp isFound
    by_cases same : id = parent
    · subst same
      have first := forest.firstChild known
      have last := forest.lastChild known
      have count := forest.childCount known
      rw [split] at first last count
      rw [Function.update_self]
      refine ⟨?_, ?_, ?_⟩
      · cases left <;> simp [parted, first]
      · cases right <;> simp [parted, last, List.getLast?_cons]
      · simp [parted, count]
    · rw [Function.update_of_ne same]
      simp [parted, same, forest.firstChild known, forest.lastChild known,
        forest.childCount known]
  · intro above id member
    have notChild : id ≠ child := by
      rintro rfl
      rw [Function.update_apply] at member
      split at member
      · grind
      · exact absurd (forest.parent_unique isChild member).symm ‹_›
    have member : id ∈ kids above := by
      rw [Function.update_apply] at member
      split at member <;> grind
    obtain ⟨old, known, isParent⟩ := forest.of_mem member
    exact ⟨_, by rw [lookup, known]; rfl, by simp [parted, notChild, isParent]⟩
  · intro id node isFound
    rw [lookup] at isFound
    obtain ⟨old, known, rfl⟩ := Option.map_eq_some_iff.mp isFound
    by_cases same : id = child
    · simp [parted, same]
    · have := place_of_parted forest split known same
      simpa only [parted, same, if_false] using this
  · intro id node isFound
    rw [lookup] at isFound
    obtain ⟨old, known, rfl⟩ := Option.map_eq_some_iff.mp isFound
    by_cases same : id = child
    · subst same
      exact .inl ⟨[], .top (by rw [lookup, known]; rfl) (by simp [parted])⟩
    · refine .inr ⟨old, known, by simp [parted, same], fun above isParent => ?_⟩
      have isParent : old.parent = some above := by
        simpa [parted, same] using isParent
      obtain ⟨aboveNode, isAbove⟩ :=
        forest.parent_live (forest.listed known isParent)
      exact ⟨_, by rw [lookup, isAbove]; rfl⟩

end Forest

end Arena

end LinkedBTree
