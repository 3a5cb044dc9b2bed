import LinkedBTree.Proofs.Arena.Editing
import LinkedBTree.Proofs.Arena.Steps

namespace LinkedBTree.Arena

/-! On sound links none of the changes that a call makes on its way can fail, so
every call comes to its checks and one edit. -/

variable {P σ β : Type} {arena other after : Arena P} {id parent child : NodeId}
  {previous next : Option NodeId}

def frame (arena : Arena P) : (Nat → Option UInt32) × List Nat × Nat × Stats :=
  (fun index => arena.slots[index]?.map Slot.generation, arena.free, arena.capacity,
    arena.stats)

theorem unmoved_frame : Unmoved (frame (P := P)) := by
  intro arena id change
  have generations : ∀ index : Nat, ((arena.modify id change).slots[index]?.map Slot.generation) =
      arena.slots[index]?.map Slot.generation := by
    intro index
    simp only [Arena.modify, Array.getElem?_modify]
    split
    · rw [Option.map_map]
      congr 1
      funext slot
      simp only [Function.comp_apply]
      split <;> rfl
    · rfl
  exact congrArg (·, arena.free, arena.capacity, arena.stats) (funext generations)

theorem eq_of_frame (framed : other.frame = arena.frame)
    (nodes : ∀ id, other.node? id = arena.node? id) : other = arena := by
  obtain ⟨slots, free, capacity, stats⟩ := other
  obtain ⟨generations, rfl, rfl, rfl⟩ :
      _ ∧ free = arena.free ∧ capacity = arena.capacity ∧ stats = arena.stats := by
    simpa only [frame, Prod.mk.injEq] using framed
  have slots_eq : slots = arena.slots := by
    refine Array.ext_getElem? fun index => ?_
    have same := congrFun generations index
    cases known : arena.slots[index]? with
    | none =>
        rw [known] at same
        exact Option.map_eq_none_iff.mp same
    | some slot =>
        rw [known] at same
        obtain ⟨twin, found, generation⟩ := Option.map_eq_some_iff.mp same
        have node := nodes ⟨index, slot.generation⟩
        simp only [node?, known, found, generation, if_true] at node
        rw [found]
        cases slot
        cases twin
        simp_all
  rw [slots_eq]

theorem frame_discard (framed : other.frame = arena.frame)
    (live : other.contains id = arena.contains id) :
    (other.discard id).frame = (arena.discard id).frame := by
  unfold discard
  by_cases isLive : arena.contains id = true
  · rw [live, if_pos isLive, if_pos isLive]
    obtain ⟨_, found⟩ := contains_iff.mp isLive
    obtain ⟨_, twin⟩ := contains_iff.mp (live.trans isLive)
    simp only [frame, count, Prod.mk.injEq] at framed ⊢
    obtain ⟨generations, free, capacity, stats⟩ := framed
    refine ⟨funext fun index => ?_, by rw [free], capacity, by rw [stats]⟩
    rw [Array.getElem?_setIfInBounds, Array.getElem?_setIfInBounds,
      if_pos (index_lt_of_node? found), if_pos (index_lt_of_node? twin)]
    split
    · rfl
    · exact congrFun generations index
  · rw [live, if_neg isLive, if_neg isLive]
    exact framed

variable {kids : NodeId → List NodeId} {parentNode childNode : Node P}

theorem Forest.lastChild?_eq (forest : arena.Forest kids)
    (isLive : arena.node? parent = some parentNode) :
    arena.lastChild? parent = (kids parent).getLast? := by
  unfold lastChild?
  rw [isLive, Option.bind_some, forest.lastChild isLive]

theorem Forest.contains_of_mem (forest : arena.Forest kids) (member : id ∈ kids parent) :
    arena.contains id = true := by
  obtain ⟨_, found, _⟩ := forest.of_mem member
  exact contains_iff.mpr ⟨_, found⟩

theorem Forest.run_linkChild (forest : arena.Forest kids)
    (isLive : arena.node? parent = some parentNode)
    (unlinked : arena.checkUnlinked child = .ok childNode) :
    linkChild parent child arena = .ok () (arena.attachLast parent child) := by
  obtain ⟨found, isTop⟩ := of_checkUnlinked forest unlinked
  have ends := forest.lastChild?_eq isLive
  have live : ∀ id, arena.lastChild? parent = some id → arena.contains id = true :=
    fun id isLast => forest.contains_of_mem (List.mem_of_getLast? (ends ▸ isLast))
  have notLast : arena.lastChild? parent ≠ some child := fun isLast =>
    forest.not_mem_of_top found isTop parent (List.mem_of_getLast? (ends ▸ isLast))
  unfold linkChild Arena.attachLast addToCount
  rw [run_get_bind, run_get_bind, run_lift_bind unlinked]
  generalize arena.lastChild? parent = last at live notLast ⊢
  have forward : linkForward parent last (some child) (arena.modify child
      ({ · with parent := some parent, previous := last })) = .ok () _ :=
    run_linkForward fun id isLast => (contains_modify ..).trans (live id isLast)
  simp only [run_bind, run_alter, forward]
  refine congrArg (EStateM.Result.ok ()) (eq_of_frame ?_ fun id => ?_)
  · rw [unmoved_frame.attach]
    cases last <;> simp only [joinForward, unmoved_frame _ _ _]
  · have alone := (forest.alone found isTop).2
    rw [node?_attach _ _ _ _ (by simp)]
    cases known : arena.node? id with
    | none => cases last <;> simp only [joinForward, node?_modify, known, Option.map_none]
    | some node =>
        have isChild : id = child → node.next = none := by
          rintro rfl
          cases known.symm.trans found
          exact alone
        cases last <;> simp only [joinForward, node?_modify, known, Option.map_some] <;> congr 1 <;>
          cases node <;> grind [placed]

theorem Forest.Pending.run_linkChildren {children : List NodeId}
    (pending : Forest.Pending arena kids parent children) :
    children.forM (Arena.linkChild parent) arena =
      .ok () (children.foldl (fun arena child => arena.attachLast parent child) arena) := by
  induction children generalizing arena kids with
  | nil => rfl
  | cons child rest induction =>
      obtain ⟨top, _⟩ := pending.ready child List.mem_cons_self
      obtain ⟨childNode, found, isTop⟩ := Option.map_eq_some_iff.mp top
      obtain ⟨parentNode, isLive⟩ := contains_iff.mp pending.live
      rw [run_forM_cons, pending.forest.run_linkChild isLive
        (pending.forest.checkUnlinked_eq found isTop), List.foldl_cons]
      exact induction pending.of_cons

theorem Forest.run_linkLast {payload : Option P} (forest : arena.Forest kids)
    (isLive : arena.contains parent = true)
    (allocated : Arena.allocate payload arena = .ok child after) :
    linkLast parent child after = .ok () (after.attachLast parent child) := by
  obtain ⟨_, lookup⟩ := node?_allocate allocated
  have stays : after.contains parent = true := by
    rw [contains, lookup]
    split
    · rfl
    · exact isLive
  obtain ⟨node, found⟩ := contains_iff.mp stays
  have fresh : after.checkUnlinked child = .ok { payload } := by
    unfold checkUnlinked
    rw [bind_of_ok (read_eq ((lookup child).trans (if_pos rfl)))]
    rfl
  unfold linkLast
  rw [run_get_bind, run_lift_bind (read_eq found)]
  exact (forest.allocate allocated).run_linkChild found fresh

theorem run_linkChild_error {error : Error}
    (refused : arena.checkUnlinked child = .error error) :
    linkChild parent child arena = .error error arena := by
  unfold linkChild
  rw [run_get_bind, run_get_bind, refused]
  rfl

theorem Forest.run_append (forest : arena.Forest kids) (parent child : NodeId) :
    Arena.append parent child arena = arena.enact (arena.appended parent child) := by
  unfold Arena.append linkLast appended
  rw [run_get_bind, run_bind, run_lift]
  cases arena.checkNotAbove child parent with
  | error error => rfl
  | ok _ =>
      simp only [run_bind, run_get, run_lift]
      cases isRead : arena.read parent with
      | error error => rfl
      | ok parentNode =>
          cases checked : arena.checkUnlinked child with
          | error error => exact run_linkChild_error checked
          | ok childNode =>
              exact forest.run_linkChild ((read_eq_ok_iff ..).mp isRead) checked

theorem Forest.run_linkBefore {sibling : NodeId} {node : Node P}
    (forest : arena.Forest kids) (isSibling : arena.node? sibling = some node)
    (member : sibling ∈ kids parent)
    (unlinked : arena.checkUnlinked child = .ok childNode) :
    linkBefore parent child sibling arena =
      .ok () (arena.attach parent child node.previous (some sibling)) := by
  obtain ⟨found, isTop⟩ := of_checkUnlinked forest unlinked
  obtain ⟨before, behind, split⟩ := List.append_of_mem member
  obtain ⟨again, isAgain, _, previous, _⟩ := forest.child split
  cases isSibling.symm.trans isAgain
  have outside := forest.not_mem_of_top found isTop parent
  have notSibling : sibling ≠ child := by
    rintro rfl
    exact outside member
  have beside : ∀ id, node.previous = some id → id ∈ kids parent := fun id isPrevious =>
    split ▸ List.mem_append_left _ (List.mem_of_getLast? (previous ▸ isPrevious))
  have live : ∀ id, node.previous = some id → arena.contains id = true :=
    fun id isPrevious => forest.contains_of_mem (beside id isPrevious)
  have notPrevious : node.previous ≠ some child :=
    fun isPrevious => outside (beside child isPrevious)
  unfold linkBefore addToCount
  rw [run_get_bind, run_lift_bind (read_eq isSibling)]
  generalize node.previous = last at live notPrevious ⊢
  have stays : ∀ id, arena.contains id = true → (arena.modify child
      ({ · with parent := some parent, previous := last, next := some sibling })).contains
        id = true :=
    fun id isLive => (contains_modify ..).trans isLive
  have written := run_write ({ · with previous := some child })
    (stays sibling (contains_iff.mpr ⟨_, isSibling⟩))
  have forward : linkForward parent last (some child) ((arena.modify child
      ({ · with parent := some parent, previous := last, next := some sibling })).modify
        sibling ({ · with previous := some child })) = .ok () _ :=
    run_linkForward fun id isLast => (contains_modify ..).trans (stays id (live id isLast))
  simp only [run_bind, run_alter, written, forward]
  refine congrArg (EStateM.Result.ok ()) (eq_of_frame ?_ fun id => ?_)
  · rw [unmoved_frame.attach]
    cases last <;> simp only [joinForward, unmoved_frame _ _ _]
  · rw [node?_attach _ _ _ _ (by simpa using notSibling)]
    cases known : arena.node? id with
    | none => cases last <;> simp only [joinForward, node?_modify, known, Option.map_none]
    | some other =>
        cases last <;> simp only [joinForward, node?_modify, known, Option.map_some] <;> congr 1 <;>
          cases other <;> grind [placed]

theorem Forest.run_insert (forest : arena.Forest kids) (parent child : NodeId)
    (compare : Comparator σ P) (unique : Bool) (state : σ) :
    Arena.insert parent child compare unique (arena, state) =
      arena.enactBeside (arena.inserted parent child compare unique state) := by
  unfold Arena.insert inserted
  simp only [run_bind, run_get, run_lift]
  cases arena.checkNotAbove child parent with
  | error error => rfl
  | ok _ =>
      cases isRead : arena.read parent with
      | error error => rfl
      | ok parentNode =>
          cases checked : arena.checkUnlinked child with
          | error error => rfl
          | ok childNode =>
              have isLive := (read_eq_ok_iff ..).mp isRead
              cases carried : childNode.payload with
              | none => simp only [carried]; rfl
              | some payload =>
                  simp only [carried, run_bind, run_consult]
                  have spotted : arena.Spotted compare unique payload (kids parent) state _ :=
                    forest.spotted (List.nil_append _).symm (forest.length_kids_lt parent)
                      state
                  rw [← forest.firstChild isLive] at spotted
                  generalize follow (arena.spotStep payload compare unique) arena.visits
                    parentNode.firstChild state = search at spotted ⊢
                  generalize isSplit : kids parent = siblings at spotted
                  cases spotted with
                  | last passes =>
                      simp only [run_bind, run_apply, forest.run_linkChild isLive checked]
                      rfl
                  | @before left sibling right _ between after passes less =>
                      have member : sibling ∈ kids parent := by simp [isSplit]
                      obtain ⟨node, isSibling, _⟩ := forest.of_mem member
                      simp only [run_bind, run_apply, run_lift, read_eq isSibling,
                        forest.run_linkBefore isSibling member checked]
                      rfl
                  | duplicate passes isUnique equal => rfl
                  | bare passes bare => rfl
                  | raised passes carried raised => rfl

theorem Forest.contains_beside (forest : arena.Forest kids)
    (found : arena.node? child = some childNode)
    (above : childNode.parent = some parent) :
    (∀ id, childNode.previous = some id → arena.contains id = true) ∧
      ∀ id, childNode.next = some id → arena.contains id = true := by
  obtain ⟨before, behind, split, previous, next⟩ := forest.placement found above
  have live : ∀ id ∈ before ++ child :: behind, arena.contains id = true :=
    fun id member => forest.contains_of_mem (split ▸ member)
  refine ⟨fun id isPrevious => live id (List.mem_append_left _ ?_),
    fun id isNext => live id (List.mem_append_right _ (List.mem_cons_of_mem _ ?_))⟩
  · exact List.mem_of_getLast? (previous ▸ isPrevious)
  · exact List.mem_of_head? (next ▸ isNext)

theorem Forest.run_remove (forest : arena.Forest kids) (parent child : NodeId) :
    Arena.remove parent child arena = arena.enact (arena.removed parent child) := by
  unfold Arena.remove removed
  by_cases same : parent = child
  · simp only [same, if_true]
    rfl
  · simp only [same, if_false, run_bind, run_get, run_lift]
    cases isRead : arena.read parent with
    | error error => rfl
    | ok parentNode =>
        dsimp only
        cases isChild : arena.read child with
        | error error => rfl
        | ok childNode =>
            dsimp only
            by_cases above : childNode.parent = some parent
            · have found := (read_eq_ok_iff ..).mp isChild
              obtain ⟨before, behind⟩ := forest.contains_beside found above
              have stays : ∀ id, arena.contains id = true →
                  (arena.modify child Node.unlinked).contains id = true :=
                fun id live => (contains_modify ..).trans live
              simp only [above, ne_eq, not_true, if_false, run_bind, run_alter]
              rw [run_linkForward fun id isPrevious => stays id (before id isPrevious)]
              dsimp only
              rw [run_linkBackward fun id isNext =>
                ((unmoved_contains id).joinForward ..).trans (stays id (behind id isNext))]
              simp only [ok_bind, above, not_true, if_false]
              rfl
            · simp only [ok_bind, ne_eq, above, not_false_eq_true, if_true]
              rfl

private theorem Forest.run_exchange {old new : NodeId} {oldNode newNode : Node P}
    (forest : arena.Forest kids) (found : arena.node? old = some oldNode)
    (above : oldNode.parent = some parent) (isNew : arena.node? new = some newNode)
    (isTop : newNode.parent = none) :
    (do
      alter new ({ · with
        parent := some parent, previous := oldNode.previous, next := oldNode.next })
      alter old Node.unlinked
      linkForward parent oldNode.previous (some new)
      linkBackward parent (some new) oldNode.next : Action P Unit) arena =
      .ok () ((arena.modify old Node.unlinked).place parent new oldNode.previous
        oldNode.next) := by
  obtain ⟨before, behind⟩ := forest.contains_beside found above
  have outside := forest.not_mem_of_top isNew isTop parent
  obtain ⟨left, right, split, previous, next⟩ := forest.placement found above
  have notPrevious : oldNode.previous ≠ some new := fun isPrevious => outside (by
    rw [split]
    exact List.mem_append_left _ (List.mem_of_getLast? (previous ▸ isPrevious)))
  have notNext : oldNode.next ≠ some new := fun isNext => outside (by
    rw [split]
    exact List.mem_append_right _
      (List.mem_cons_of_mem _ (List.mem_of_head? (next ▸ isNext))))
  have different : old ≠ new := by
    rintro rfl
    exact outside (by simp [split])
  generalize oldNode.previous = last at before notPrevious ⊢
  generalize oldNode.next = first at behind notNext ⊢
  simp only [run_bind, run_alter]
  rw [run_linkForward fun id isLast => (contains_modify ..).trans
    ((contains_modify ..).trans (before id isLast))]
  dsimp only
  rw [run_linkBackward fun id isFirst => ((unmoved_contains id).joinForward ..).trans
    ((contains_modify ..).trans ((contains_modify ..).trans (behind id isFirst)))]
  refine congrArg (EStateM.Result.ok ()) (eq_of_frame ?_ fun id => ?_)
  · simp only [unmoved_frame.place, unmoved_frame.joinBackward, unmoved_frame.joinForward,
      unmoved_frame _ _ _]
  · rw [node?_place _ _ _ _ notNext]
    cases known : arena.node? id with
    | none =>
        cases last <;> cases first <;>
          simp only [joinForward, joinBackward, node?_modify, known, Option.map_none]
    | some node =>
        cases last <;> cases first <;>
          simp only [joinForward, joinBackward, node?_modify, known, Option.map_some] <;>
          congr 1 <;> cases node <;> grind [placed, Node.unlinked]

theorem Forest.run_replace (forest : arena.Forest kids) (old new : NodeId) :
    Arena.replace old new arena = arena.enact (arena.replaced old new) := by
  unfold Arena.replace Arena.replaced
  by_cases same : old = new
  · simp only [same, if_true]
    rfl
  · simp only [same, if_false, run_bind, run_get, run_lift]
    cases isOld : arena.read old with
    | error error => rfl
    | ok oldNode =>
        have found := (read_eq_ok_iff ..).mp isOld
        simp only [ok_bind]
        cases above : oldNode.parent with
        | none => rfl
        | some parent =>
            simp only [run_bind, run_get, run_lift]
            cases arena.checkNotAbove new parent with
            | error error => rfl
            | ok _ =>
                have listed := forest.listed found above
                obtain ⟨parentNode, isLive⟩ := forest.parent_live listed
                simp only [ok_bind, read_eq isLive, isOld, above, ne_eq, not_true, if_false,
                  run_bind, run_get, run_lift]
                cases checked : arena.checkUnlinked new with
                | error error => rfl
                | ok newNode =>
                    obtain ⟨isNew, isTop⟩ := of_checkUnlinked forest checked
                    simp only [ok_bind, run_alter]
                    have exchanged := forest.run_exchange found above isNew isTop
                    simp only [run_bind, run_alter] at exchanged
                    exact exchanged

private theorem discard_eq {grandchildren : List NodeId} {payload : Option P}
    (outside : id ∉ grandchildren) (change : Node P → Node P) :
    (((grandchildren.foldl (fun arena child =>
        arena.modify child ({ · with parent := some id })) (arena.modify child change)).modify
      id fun node =>
        { node with
          firstChild := grandchildren.head?
          lastChild := grandchildren.getLast?
          childCount := grandchildren.length
          payload }).discard child) =
      ((arena.adopt id grandchildren).modify id ({ · with payload })).discard child := by
  have unseen : ∀ {β : Type} {read : Arena P → β}, Unmoved read →
      read ((grandchildren.foldl (fun arena child =>
        arena.modify child ({ · with parent := some id })) (arena.modify child change)).modify
          id fun node =>
            { node with
              firstChild := grandchildren.head?
              lastChild := grandchildren.getLast?
              childCount := grandchildren.length
              payload }) =
        read ((arena.adopt id grandchildren).modify id ({ · with payload })) := by
    intro β read unmoved
    rw [unmoved, unmoved, unmoved.adopt, unmoved.foldl, unmoved]
  refine eq_of_frame (frame_discard (unseen unmoved_frame) (unseen (unmoved_contains child)))
    fun other => ?_
  rw [node?_discard, node?_discard]
  split
  · rfl
  · rename_i different
    rw [node?_modify, node?_modify, node?_foldl_modify, node?_adopt _ _ _ _ outside,
      node?_modify_of_ne _ different]
    cases arena.node? other with
    | none => rfl
    | some node =>
        simp only [Option.map_some]
        congr 1
        cases node
        grind

theorem Forest.run_collapse (forest : arena.Forest kids) (id : NodeId) :
    Arena.collapse id arena = arena.enact (arena.collapsed id) := by
  unfold Arena.collapse Arena.collapsed
  simp only [run_bind, run_get, run_lift]
  cases isRead : arena.read id with
  | error error => rfl
  | ok node =>
      have found := (read_eq_ok_iff ..).mp isRead
      simp only [ok_bind]
      by_cases single : node.childCount = 1
      · simp only [single, ne_eq, not_true, if_false]
        cases first : node.firstChild with
        | none => rfl
        | some child =>
            have isChild : child ∈ kids id :=
              List.mem_of_head? ((forest.firstChild found).symm.trans first)
            obtain ⟨childNode, childFound, _⟩ := forest.of_mem isChild
            have live : ∀ other ∈ kids child, arena.contains other = true :=
              fun other member => forest.contains_of_mem member
            simp only [run_bind, run_get, run_lift, ok_bind, read_eq childFound,
              forest.childList_eq childFound, run_alter]
            rw [run_writes _ fun other member => (contains_modify ..).trans (live other member)]
            have counted := unmoved_contains (P := P) child
            obtain ⟨_, isLeft⟩ := contains_iff.mp <|
              (counted _ id _).trans <| (counted.foldl _ (kids child) _).trans <|
                (counted arena child _).trans (contains_iff.mpr ⟨_, childFound⟩)
            dsimp only
            rw [run_take isLeft]
            dsimp only
            rw [discard_eq (forest.not_mem_grandchildren isChild)]
            rfl
      · simp only [single, ne_eq, not_false_eq_true, if_true]
        rfl

end LinkedBTree.Arena
