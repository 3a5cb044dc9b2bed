import LinkedBTree.Proofs.Walk
import LinkedBTree.Proofs.Arena.Lookup

namespace LinkedBTree.Arena

/-! When the links of an arena describe a forest: child lists and parent links
agree, and climbing from any node ends. -/

variable {P : Type}

/-- `ancestors` are the nodes above `id`, the nearest first. -/
inductive Lineage (arena : Arena P) : NodeId → List NodeId → Prop
  | top {id : NodeId} {node : Node P} :
      arena.node? id = some node → node.parent = none → Lineage arena id []
  | under {id parent : NodeId} {node : Node P} {ancestors : List NodeId} :
      arena.node? id = some node → node.parent = some parent →
      Lineage arena parent ancestors → Lineage arena id (parent :: ancestors)

/-- Each of `ids` links the one after it, and the last one links nothing. -/
def Chained (arena : Arena P) : List NodeId → Prop
  | [] => True
  | id :: rest =>
      (∃ node, arena.node? id = some node ∧ node.next = rest.head?) ∧
        Chained arena rest

/-- `kids` gives the children of every node, first to last, and all links of
the arena say the same. -/
structure Forest (arena : Arena P) (kids : NodeId → List NodeId) : Prop where
  nodup : ∀ id, (kids id).Nodup
  /-- What is not live has no children. -/
  none_of_dead : ∀ {id}, arena.node? id = none → kids id = []
  firstChild : ∀ {id node}, arena.node? id = some node →
    node.firstChild = (kids id).head?
  lastChild : ∀ {id node}, arena.node? id = some node →
    node.lastChild = (kids id).getLast?
  childCount : ∀ {id node}, arena.node? id = some node →
    node.childCount = (kids id).length
  /-- A child is live, and names its parent and the children beside it. -/
  child : ∀ {parent before id after}, kids parent = before ++ id :: after →
    ∃ node, arena.node? id = some node ∧ node.parent = some parent ∧
      node.previous = before.getLast? ∧ node.next = after.head?
  listed : ∀ {id node parent}, arena.node? id = some node →
    node.parent = some parent → id ∈ kids parent
  /-- Without a parent there are no siblings. -/
  alone : ∀ {id node}, arena.node? id = some node → node.parent = none →
    node.previous = none ∧ node.next = none
  /-- No node is above itself. -/
  grounded : ∀ {id node}, arena.node? id = some node →
    ∃ ancestors, arena.Lineage id ancestors

namespace Lineage

variable {arena other : Arena P} {id parent : NodeId}
  {ancestors : List NodeId} {node : Node P}

theorem live (lineage : arena.Lineage id ancestors) :
    ∃ node, arena.node? id = some node := by
  cases lineage with
  | top found _ => exact ⟨_, found⟩
  | under found _ _ => exact ⟨_, found⟩

theorem parent_eq (lineage : arena.Lineage id ancestors)
    (found : arena.node? id = some node) : node.parent = ancestors.head? := by
  cases lineage with
  | top known parent =>
      cases found.symm.trans known
      exact parent
  | under known parent _ =>
      cases found.symm.trans known
      exact parent

theorem unique {others : List NodeId} (lineage : arena.Lineage id ancestors)
    (again : arena.Lineage id others) : ancestors = others := by
  induction lineage generalizing others with
  | top found parent =>
      have := again.parent_eq found
      rw [parent] at this
      exact (List.head?_eq_none_iff.mp this.symm).symm
  | under found parent _ induction =>
      cases again with
      | top known noParent =>
          cases found.symm.trans known
          cases parent.symm.trans noParent
      | under known sameParent rest =>
          cases found.symm.trans known
          cases parent.symm.trans sameParent
          rw [induction rest]

theorem drop {before after : List NodeId}
    (lineage : arena.Lineage id (before ++ parent :: after)) :
    arena.Lineage parent after := by
  induction before generalizing id with
  | nil =>
      cases lineage with
      | under _ _ above => exact above
  | cons _ _ induction =>
      cases lineage with
      | under _ _ above => exact induction above

theorem live_of_mem (lineage : arena.Lineage id ancestors)
    (member : parent ∈ ancestors) : ∃ node, arena.node? parent = some node := by
  obtain ⟨before, after, rfl⟩ := List.append_of_mem member
  exact lineage.drop.live

theorem self_not_mem (lineage : arena.Lineage id ancestors) :
    id ∉ ancestors := by
  intro member
  obtain ⟨before, after, rfl⟩ := List.append_of_mem member
  have := congrArg List.length (lineage.unique lineage.drop)
  simp at this
  omega

theorem nodup (lineage : arena.Lineage id ancestors) :
    (id :: ancestors).Nodup := by
  induction lineage with
  | top _ _ => simp
  | under found parent above induction =>
      exact List.nodup_cons.mpr
        ⟨(Lineage.under found parent above).self_not_mem, induction⟩

theorem length_lt (lineage : arena.Lineage id ancestors) :
    ancestors.length < arena.slots.size := by
  refine length_le_slots lineage.nodup fun member isMember => contains_iff.mpr ?_
  rcases List.mem_cons.mp isMember with rfl | above
  · exact lineage.live
  · exact lineage.live_of_mem above

theorem congr (lineage : arena.Lineage id ancestors)
    (same : ∀ member ∈ id :: ancestors,
      (other.node? member).map Node.parent =
        (arena.node? member).map Node.parent) :
    other.Lineage id ancestors := by
  induction lineage with
  | @top id node found parent =>
      have kept := same id (by simp)
      rw [found, Option.map_some, parent] at kept
      obtain ⟨moved, found, parent⟩ := Option.map_eq_some_iff.mp kept
      exact .top found parent
  | @under id _ node ancestors found parent above induction =>
      have kept := same id (by simp)
      rw [found, Option.map_some, parent] at kept
      obtain ⟨moved, found, parent⟩ := Option.map_eq_some_iff.mp kept
      exact .under found parent
        (induction fun member isMember => same member (by
          exact List.mem_cons_of_mem _ isMember))

end Lineage

theorem follow_siblingStep {arena : Arena P} {ids : List NodeId}
    (chained : arena.Chained ids) {bound : Nat} (enough : ids.length < bound)
    (seen : List NodeId) :
    follow arena.siblingStep bound (seen, ids.head?) =
      .ok (seen.reverse ++ ids) := by
  induction ids generalizing seen bound with
  | nil =>
      obtain ⟨bound, rfl⟩ := Nat.exists_eq_succ_of_ne_zero (by omega : bound ≠ 0)
      rw [List.append_nil]
      exact follow_answer rfl bound
  | cons id rest induction =>
      obtain ⟨bound, rfl⟩ := Nat.exists_eq_succ_of_ne_zero (by omega : bound ≠ 0)
      obtain ⟨⟨node, found, next⟩, chained⟩ := chained
      have stepped : arena.siblingStep (seen, some id) =
          .ok (.inl (id :: seen, rest.head?)) := by
        rw [siblingStep, bind_of_ok (read_eq found), next]
        rfl
      have shorter : rest.length < bound := by
        simp only [List.length_cons] at enough
        omega
      rw [List.head?_cons, follow_next stepped, induction chained shorter]
      simp

theorem childList_of_chained {arena : Arena P} {node : Node P}
    {ids : List NodeId} (nodup : ids.Nodup) (chained : arena.Chained ids)
    (first : node.firstChild = ids.head?)
    (count : node.childCount = ids.length) :
    arena.childList node = .ok ids := by
  have live : ∀ id ∈ ids, arena.contains id = true := by
    clear nodup first count
    induction ids with
    | nil => simp
    | cons id rest induction =>
        obtain ⟨⟨found, isFound, _⟩, chained⟩ := chained
        intro member isMember
        rcases List.mem_cons.mp isMember with rfl | later
        · exact contains_iff.mpr ⟨found, isFound⟩
        · exact induction chained member later
  have enough : ids.length < arena.visits :=
    Nat.lt_succ_of_le (length_le_slots nodup live)
  unfold childList
  rw [first, bind_of_ok (follow_siblingStep chained enough []), count]
  simp [pure, Except.pure]

namespace Forest

variable {arena : Arena P} {kids : NodeId → List NodeId}
  {id parent : NodeId} {node : Node P}

theorem of_mem (forest : arena.Forest kids) (member : id ∈ kids parent) :
    ∃ node, arena.node? id = some node ∧ node.parent = some parent := by
  obtain ⟨before, after, split⟩ := List.append_of_mem member
  obtain ⟨node, found, above, _⟩ := forest.child split
  exact ⟨node, found, above⟩

theorem mem_iff (forest : arena.Forest kids) (found : arena.node? id = some node) :
    id ∈ kids parent ↔ node.parent = some parent := by
  constructor
  · intro member
    obtain ⟨known, isFound, above⟩ := forest.of_mem member
    cases found.symm.trans isFound
    exact above
  · exact forest.listed found

theorem parent_unique {other : NodeId} (forest : arena.Forest kids)
    (member : id ∈ kids parent) (again : id ∈ kids other) : parent = other := by
  obtain ⟨node, found, above⟩ := forest.of_mem member
  have := (forest.mem_iff found).mp again
  exact Option.some.inj (above.symm.trans this)

theorem parent_live (forest : arena.Forest kids) (member : id ∈ kids parent) :
    ∃ node, arena.node? parent = some node := by
  cases found : arena.node? parent with
  | some node => exact ⟨node, rfl⟩
  | none =>
      rw [forest.none_of_dead found] at member
      cases member

theorem lineage_of_mem {ancestors : List NodeId} (forest : arena.Forest kids)
    (member : id ∈ kids parent) (above : arena.Lineage parent ancestors) :
    arena.Lineage id (parent :: ancestors) := by
  obtain ⟨node, found, isParent⟩ := forest.of_mem member
  exact .under found isParent above

theorem not_mem_self (forest : arena.Forest kids) : id ∉ kids id := by
  intro member
  obtain ⟨node, found⟩ := forest.parent_live member
  obtain ⟨ancestors, lineage⟩ := forest.grounded found
  have := lineage.unique (forest.lineage_of_mem member lineage)
  simp at this

theorem chained (forest : arena.Forest kids) (id : NodeId) :
    arena.Chained (kids id) := by
  have tail : ∀ after before, kids id = before ++ after →
      arena.Chained after := by
    intro after
    induction after with
    | nil => exact fun _ _ => trivial
    | cons child rest induction =>
        intro before split
        obtain ⟨node, found, _, _, next⟩ := forest.child split
        exact ⟨⟨node, found, next⟩, induction (before ++ [child]) (by simp [split])⟩
  exact tail (kids id) [] rfl

theorem childList_eq (forest : arena.Forest kids)
    (found : arena.node? id = some node) :
    arena.childList node = .ok (kids id) :=
  childList_of_chained (forest.nodup id) (forest.chained id)
    (forest.firstChild found) (forest.childCount found)

theorem children_eq (forest : arena.Forest kids)
    (found : arena.node? id = some node) :
    arena.children id = .ok (kids id) := by
  unfold children
  rw [bind_of_ok (read_eq found)]
  exact forest.childList_eq found

/-- The links determine the forest. -/
theorem unique {others : NodeId → List NodeId} (forest : arena.Forest kids)
    (again : arena.Forest others) : kids = others := by
  funext id
  cases found : arena.node? id with
  | none => rw [forest.none_of_dead found, again.none_of_dead found]
  | some node =>
      exact Except.ok.inj
        ((forest.childList_eq found).symm.trans (again.childList_eq found))

section

variable {after : Arena P} {others : NodeId → List NodeId} {other : Node P}

theorem beside_eq (forest : arena.Forest kids) (again : after.Forest others)
    (found : arena.node? id = some node) (isFound : after.node? id = some other)
    (same : ∀ parent, id ∈ kids parent ∨ id ∈ others parent →
      others parent = kids parent) : other.parent = node.parent ∧
      other.previous = node.previous ∧ other.next = node.next := by
  have parent : other.parent = node.parent := by
    ext above
    rw [← again.mem_iff isFound, ← forest.mem_iff found]
    constructor
    · exact fun member => same above (.inr member) ▸ member
    · exact fun member => (same above (.inl member)).symm ▸ member
  refine ⟨parent, ?_⟩
  cases above : node.parent with
  | none =>
      obtain ⟨previous, next⟩ := forest.alone found above
      obtain ⟨again, later⟩ := again.alone isFound (parent.trans above)
      exact ⟨again.trans previous.symm, later.trans next.symm⟩
  | some top =>
      have member := forest.listed found above
      obtain ⟨before, behind, split⟩ := List.append_of_mem member
      obtain ⟨_, isNode, _, previous, next⟩ := forest.child split
      obtain ⟨_, isOther, _, again, later⟩ :=
        again.child ((same top (.inl member)).trans split)
      obtain rfl := Option.some.inj (found.symm.trans isNode)
      obtain rfl := Option.some.inj (isFound.symm.trans isOther)
      exact ⟨again.trans previous.symm, later.trans next.symm⟩

theorem links_eq_of_beside (forest : arena.Forest kids) (again : after.Forest others)
    (found : arena.node? id = some node) (isFound : after.node? id = some other)
    (beside : ∀ parent, id ∈ kids parent ∨ id ∈ others parent →
      others parent = kids parent) :
    other = { node with
      payload := other.payload
      firstChild := (others id).head?
      lastChild := (others id).getLast?
      childCount := (others id).length } := by
  obtain ⟨parent, previous, next⟩ := forest.beside_eq again found isFound beside
  have first := again.firstChild isFound
  have last := again.lastChild isFound
  have count := again.childCount isFound
  obtain ⟨_, _, _, _, _, _, _⟩ := other
  simp only at first last count parent previous next
  rw [first, last, count, parent, previous, next]

theorem links_eq (forest : arena.Forest kids) (again : after.Forest others)
    (found : arena.node? id = some node) (isFound : after.node? id = some other)
    (below : others id = kids id)
    (beside : ∀ parent, id ∈ kids parent ∨ id ∈ others parent →
      others parent = kids parent) : other = { node with payload := other.payload } := by
  rw [forest.links_eq_of_beside again found isFound beside, below,
    ← forest.firstChild found, ← forest.lastChild found, ← forest.childCount found]

end

theorem isLeaf_iff (forest : arena.Forest kids)
    (found : arena.node? id = some node) : node.isLeaf = true ↔ kids id = [] := by
  rw [Node.isLeaf, forest.childCount found, beq_iff_eq, List.length_eq_zero_iff]

theorem isLinked_eq (forest : arena.Forest kids)
    (found : arena.node? id = some node) :
    node.isLinked = node.parent.isSome := by
  unfold Node.isLinked
  cases above : node.parent with
  | some parent => rfl
  | none =>
      obtain ⟨previous, next⟩ := forest.alone found above
      rw [previous, next]
      rfl

theorem child_at {position : Nat} {child : NodeId} (forest : arena.Forest kids)
    (isChild : (kids id)[position]? = some child) :
    ∃ node, arena.node? child = some node ∧ node.parent = some id ∧
      node.previous = ((kids id).take position).getLast? ∧
      node.next = (kids id)[position + 1]? := by
  obtain ⟨inRange, rfl⟩ := List.getElem?_eq_some_iff.mp isChild
  have split := List.take_append_drop position (kids id)
  rw [List.drop_eq_getElem_cons inRange] at split
  obtain ⟨node, found, above, previous, next⟩ := forest.child split.symm
  rw [List.head?_drop] at next
  exact ⟨node, found, above, previous, next⟩

private theorem hop_next {position distance : Nat} {child : NodeId}
    (forest : arena.Forest kids) (broken : Cause)
    (isChild : (kids id)[position + distance]? = some child) :
    arena.hop Node.next broken distance (kids id)[position]? = .ok child := by
  induction distance generalizing position with
  | zero =>
      rw [Nat.add_zero] at isChild
      rw [isChild]
      rfl
  | succ distance induction =>
      obtain ⟨inRange, _⟩ := List.getElem?_eq_some_iff.mp isChild
      have isHere : (kids id)[position]? = some _ :=
        List.getElem?_eq_getElem (by omega)
      obtain ⟨node, found, _, _, next⟩ := forest.child_at isHere
      rw [isHere, hop, bind_of_ok (read_eq found), next]
      apply induction
      rw [← isChild]
      congr 1
      omega

private theorem hop_previous {position distance : Nat} {child : NodeId}
    (forest : arena.Forest kids) (broken : Cause)
    (isChild : (kids id)[position]? = some child)
    (inRange : position + distance < (kids id).length) :
    arena.hop Node.previous broken distance (kids id)[position + distance]? =
      .ok child := by
  induction distance with
  | zero =>
      rw [Nat.add_zero, isChild]
      rfl
  | succ distance induction =>
      have isHere : (kids id)[position + (distance + 1)]? = some _ :=
        List.getElem?_eq_getElem inRange
      obtain ⟨node, found, _, previous, _⟩ := forest.child_at isHere
      have isPrevious : node.previous = (kids id)[position + distance]? := by
        have before : position + distance < (kids id).length := by omega
        rw [previous, List.getLast?_take, if_neg (by omega)]
        simp [before]
      rw [isHere, hop, bind_of_ok (read_eq found), isPrevious]
      exact induction (by omega)

theorem childAt_eq {position : Nat} {child : NodeId} (forest : arena.Forest kids)
    (found : arena.node? id = some node)
    (isChild : (kids id)[position]? = some child) :
    arena.childAt id position = .ok child := by
  obtain ⟨inRange, _⟩ := List.getElem?_eq_some_iff.mp isChild
  unfold childAt
  rw [bind_of_ok (read_eq found), forest.childCount found,
    if_neg (by omega)]
  by_cases near : position < (kids id).length / 2
  · rw [if_pos near, forest.firstChild found, List.head?_eq_getElem?]
    apply forest.hop_next _
    rw [Nat.zero_add]
    exact isChild
  · rw [if_neg near, forest.lastChild found, List.getLast?_eq_getElem?]
    have hops := @hop_previous _ _ _ _ position
      ((kids id).length - 1 - position) child forest (.childListEndsEarly id)
      isChild (by omega)
    have ends : position + ((kids id).length - 1 - position) =
        (kids id).length - 1 := by omega
    rw [ends] at hops
    exact hops

end Forest

end LinkedBTree.Arena
