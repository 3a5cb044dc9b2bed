import Mathlib.Data.List.Basic
import LinkedBTree.Proofs.Arena.Subtree
import LinkedBTree.Proofs.Arena.Calls
import LinkedBTree.Proofs.Arena.Steps
import LinkedBTree.Proofs.Arena.Linking

namespace LinkedBTree.Arena

/-! Giving up subtrees: what is given up, and that a forest remains. -/

variable {P : Type} {arena other after : Arena P}
  {kids : NodeId → List NodeId} {tree : Subtree P}

/-- A forest remains when everything below `top` goes, and when everything
from an unlinked `top` down goes. -/
theorem Forest.prune (forest : arena.Forest kids) (gone : List NodeId)
    (top : NodeId)
    (down : ∀ id, id ∈ gone ∨ id = top → ∀ child ∈ kids id, child ∈ gone)
    (up : ∀ id, ∀ child ∈ kids id, child ∈ gone → id ∈ gone ∨ id = top)
    (lookup : ∀ id, after.node? id =
      if id ∈ gone then none
      else (arena.node? id).map fun node =>
        if id = top then node.childless else node) :
    after.Forest fun id => if id ∈ gone ∨ id = top then [] else kids id := by
  have came : ∀ {id node}, after.node? id = some node → id ∉ gone ∧
      ∃ old, arena.node? id = some old ∧
        (if id = top then old.childless else old) = node := by
    intro id node found
    rw [lookup] at found
    split at found
    · cases found
    · exact ⟨‹_›, Option.map_eq_some_iff.mp found⟩
  have upwards : ∀ {id} {old : Node P},
      (if id = top then old.childless else old).parent = old.parent ∧
        (if id = top then old.childless else old).previous = old.previous ∧
        (if id = top then old.childless else old).next = old.next := by
    intro id old
    split <;> exact ⟨rfl, rfl, rfl⟩
  refine of_nodes ?_ ?_ ?_ ?_ ?_ (forest.grounded_of_step ?_)
  · intro id
    split
    · exact List.nodup_nil
    · exact forest.nodup id
  · intro id dead
    rw [lookup] at dead
    split at dead
    · rename_i isGone
      rw [if_pos (.inl isGone)]
    · rw [forest.none_of_dead (Option.map_eq_none_iff.mp dead), ite_self]
  · intro id node found
    obtain ⟨stays, old, known, rfl⟩ := came found
    by_cases isTop : id = top
    · simp [isTop, Node.childless]
    · simp [isTop, stays, forest.firstChild known, forest.lastChild known,
        forest.childCount known]
  · intro parent id member
    split at member
    · cases member
    · rename_i stays
      obtain ⟨old, known, above⟩ := forest.of_mem member
      have : id ∉ gone := fun isGone => stays (up parent id member isGone)
      refine ⟨_, by rw [lookup, if_neg this, known]; rfl, ?_⟩
      rw [upwards.1, above]
  · intro id node found
    obtain ⟨stays, old, known, rfl⟩ := came found
    rw [upwards.1, upwards.2.1, upwards.2.2]
    cases above : old.parent with
    | none => exact forest.alone known above
    | some parent =>
        have kept : ¬(parent ∈ gone ∨ parent = top) := fun isGone =>
          stays (down parent isGone id (forest.listed known above))
        simp only [kept, if_false]
        exact forest.placement known above
  · intro id node found
    obtain ⟨stays, old, known, rfl⟩ := came found
    refine .inr ⟨old, known, upwards.1, fun parent above => ?_⟩
    rw [upwards.1] at above
    have listed := forest.listed known above
    obtain ⟨parentNode, isLive⟩ := forest.parent_live listed
    have kept : parent ∉ gone := fun isGone =>
      stays (down parent (.inl isGone) id listed)
    exact ⟨_, by rw [lookup, if_neg kept, isLive]; rfl⟩

/-- The walk through a subtree does not depend on anything outside of it, nor
on how its root is linked. -/
theorem Forest.preorder_of_agreeing (forest : arena.Forest kids)
    (held : arena.Holds kids tree) {old node : Node P}
    (known : arena.node? tree.id = some old)
    (found : other.node? tree.id = some node)
    (first : node.firstChild = old.firstChild)
    (count : node.childCount = old.childCount)
    (same : ∀ id ∈ tree.ids, id ≠ tree.id → other.node? id = arena.node? id) :
    other.preorder tree.id = .ok tree.ids := by
  obtain ⟨ancestors, lineage⟩ := forest.grounded known
  have notRoot : ∀ id ∈ tree.ids, ∀ child ∈ kids id, child ≠ tree.id := by
    rintro id member child isChild rfl
    obtain ⟨between, above, climbs, split⟩ :=
      forest.lineage_of_mem_ids held lineage member
    have := (forest.lineage_of_mem isChild climbs).unique lineage
    have := congrArg List.length (split.symm.trans this)
    simp at this
    omega
  have agree : ∀ id ∈ tree.ids, ∀ child ∈ kids id,
      other.node? child = arena.node? child := fun id member child isChild =>
    same child (held.mem_of_kids member isChild) (notRoot id member child isChild)
  have live : ∀ id ∈ tree.ids, other.contains id = true := by
    intro id member
    by_cases isRoot : id = tree.id
    · exact contains_iff.mpr ⟨node, isRoot ▸ found⟩
    · rw [contains, same id member isRoot]
      exact contains_iff.mpr (held.live member)
  refine preorder_of_listing ((forest.listing held).imp ?_)
    (length_le_slots (forest.nodup_ids held) live)
  intro id member children isBelow
  obtain ⟨idNode, isLive⟩ := held.live member
  rw [forest.children_eq isLive] at isBelow
  obtain rfl := Except.ok.inj isBelow
  have chained : other.Chained (kids id) := by
    have copied : ∀ listed : List NodeId,
        (∀ child ∈ listed, other.node? child = arena.node? child) →
        arena.Chained listed → other.Chained listed := by
      intro listed
      induction listed with
      | nil => exact fun _ _ => trivial
      | cons child rest induction =>
          rintro agree ⟨⟨node, found, next⟩, chained⟩
          exact ⟨⟨node, (agree child (by simp)).trans found, next⟩,
            induction (fun child member => agree child (by simp [member])) chained⟩
    exact copied (kids id) (agree id member) (forest.chained id)
  obtain ⟨otherNode, isOther⟩ := contains_iff.mp (live id member)
  have links : otherNode.firstChild = (kids id).head? ∧
      otherNode.childCount = (kids id).length := by
    by_cases isRoot : id = tree.id
    · subst isRoot
      cases isOther.symm.trans found
      exact ⟨first.trans (forest.firstChild known),
        count.trans (forest.childCount known)⟩
    · cases ((same id member isRoot).symm.trans isOther).symm.trans isLive
      exact ⟨forest.firstChild isLive, forest.childCount isLive⟩
  unfold children
  rw [bind_of_ok (read_eq isOther)]
  exact childList_of_chained (forest.nodup id) chained links.1 links.2

theorem run_release {id : NodeId} {node : Node P} {ids : List NodeId}
    (found : arena.node? id = some node) (unlinked : node.isLinked = false)
    (listed : arena.preorder id = .ok ids) (nodup : ids.Nodup)
    (live : ∀ other ∈ ids, arena.contains other = true) (payloads : List P) :
    Arena.release id (arena, payloads) =
      arena.enactHanding payloads (.ok (arena.discardAll ids.reverse)) := by
  unfold Arena.release
  simp only [run_bind, run_get, run_lift, read_eq found, unlinked, Bool.false_eq_true,
    if_false, listed]
  exact run_surrenders ((List.reverse_perm ids).nodup_iff.mpr nodup)
    (fun other member => live other (List.mem_reverse.mp member)) payloads

theorem Forest.release_of_agreeing (forest : arena.Forest kids)
    (held : arena.Holds kids tree) {old node : Node P}
    (known : arena.node? tree.id = some old)
    (found : other.node? tree.id = some node) (unlinked : node.isLinked = false)
    (first : node.firstChild = old.firstChild)
    (count : node.childCount = old.childCount)
    (same : ∀ id ∈ tree.ids, id ≠ tree.id → other.node? id = arena.node? id)
    (payloads : List P) :
    Arena.release tree.id (other, payloads) =
      other.enactHanding payloads (.ok (other.discardAll tree.ids.reverse)) := by
  refine run_release found unlinked
    (forest.preorder_of_agreeing held known found first count same) (forest.nodup_ids held)
    (fun id member => ?_) payloads
  by_cases isRoot : id = tree.id
  · exact contains_iff.mpr ⟨node, isRoot ▸ found⟩
  · rw [contains, same id member isRoot]
    exact contains_iff.mpr (held.live member)

theorem Forest.run_release (forest : arena.Forest kids) (id : NodeId) (payloads : List P) :
    Arena.release id (arena, payloads) =
      arena.enactHanding payloads (arena.released id) := by
  cases found : arena.node? id with
  | none =>
      have dead : arena.read id = .error (.cause (.stale id)) := by
        unfold read
        rw [found]
        rfl
      unfold Arena.release Arena.released
      simp only [run_bind, run_get, run_lift, dead, error_bind]
      rfl
  | some node =>
      by_cases unlinked : node.isLinked = false
      · obtain ⟨tree, rfl, held⟩ := forest.exists_subtree found
        rw [forest.release_of_agreeing held found found unlinked rfl rfl fun _ _ _ => rfl,
          released_eq_ok.mpr ⟨⟨node, found, unlinked⟩, tree.ids,
            forest.preorder_eq held, rfl⟩]
      · have linked := eq_true_of_ne_false unlinked
        unfold Arena.release Arena.released
        simp only [run_bind, run_get, run_lift, read_eq found, ok_bind, linked, if_true]
        rfl

theorem Forest.release_eq (forest : arena.Forest kids)
    (held : arena.Holds kids tree) {node : Node P}
    (found : arena.node? tree.id = some node) (isTop : node.parent = none) :
    ∃ after, arena.released tree.id =
        .ok (tree.ids.reverse.filterMap arena.payload?, after) ∧
      after = tree.ids.reverse.foldl discard arena ∧
      ∀ id, after.node? id =
        if id ∈ tree.ids then none else arena.node? id := by
  refine ⟨_, released_eq_ok.mpr ⟨⟨node, found, ?_⟩, tree.ids, forest.preorder_eq held, rfl⟩,
    rfl, fun id => ?_⟩
  · rw [forest.isLinked_eq found, isTop]
    rfl
  · rw [node?_foldl_discard]
    simp only [List.mem_reverse]

theorem Forest.of_released (forest : arena.Forest kids)
    (held : arena.Holds kids tree) {node : Node P}
    (found : arena.node? tree.id = some node) (isTop : node.parent = none)
    (lookup : ∀ id, after.node? id =
      if id ∈ tree.ids then none else arena.node? id) :
    after.Forest fun id => if id ∈ tree.ids then [] else kids id := by
  have isRoot := tree.id_mem_ids
  have pruned : after.Forest fun id =>
      if id ∈ tree.ids ∨ id = tree.id then [] else kids id := by
    refine forest.prune _ _ ?_ ?_ fun id => ?_
    · rintro id (member | rfl) child isChild
      · exact held.mem_of_kids member isChild
      · exact held.mem_of_kids isRoot isChild
    · intro id child isChild member
      refine .inl (held.parent_mem forest member ?_ isChild)
      rintro rfl
      exact forest.not_mem_of_top found isTop id isChild
    · rw [lookup]
      by_cases member : id ∈ tree.ids
      · rw [if_pos member, if_pos member]
      · have : id ≠ tree.id := by
          rintro rfl
          exact member isRoot
        simp [member, this]
  have same : ∀ id, (id ∈ tree.ids ∨ id = tree.id) ↔ id ∈ tree.ids := fun id =>
    or_iff_left_of_imp fun isId => isId ▸ isRoot
  simpa only [same] using pruned

theorem Forest.release (forest : arena.Forest kids) {id : NodeId}
    {freed : List P} (done : arena.released id = .ok (freed, after)) :
    ∃ others, after.Forest others := by
  obtain ⟨⟨node, found, unlinked⟩, _⟩ := released_eq_ok.mp done
  have isTop : node.parent = none := by
    rw [forest.isLinked_eq found] at unlinked
    simpa using unlinked
  obtain ⟨tree, rfl, held⟩ := forest.exists_subtree found
  obtain ⟨_, isReleased, _, lookup⟩ := forest.release_eq held found isTop
  cases isReleased.symm.trans done
  exact ⟨_, forest.of_released held found isTop lookup⟩

theorem Forest.run_dropping_release (forest : arena.Forest kids) {id : NodeId}
    {freed : List P} (done : arena.released id = .ok (freed, after)) :
    dropping (Arena.release id) arena = .ok () after := by
  unfold dropping
  rw [forest.run_release, done]
  rfl

theorem Forest.release_reached (forest : arena.Forest kids) (id : NodeId)
    (payloads : List P) :
    ∃ others, (reached (Arena.release id (arena, payloads))).1.Forest others := by
  rw [forest.run_release]
  cases done : arena.released id with
  | error error => exact ⟨kids, forest⟩
  | ok freed => exact forest.release done

private theorem Forest.clear_child (forest : arena.Forest kids) (id : NodeId)
    {tree : Subtree P} (held : arena.Holds kids tree) (payloads : List P)
    {other : Arena P}
    (same : ∀ member ∈ tree.ids, other.node? member = arena.node? member) :
    ∃ after,
      (do
        Session.apply (write tree.id Node.unlinked)
        within s!"unable to free sub node {tree.id} of {id}" (Arena.release tree.id) :
          Handover P Unit) (other, payloads) =
        .ok () (after, payloads ++ tree.ids.reverse.filterMap arena.payload?) ∧
      ∀ member, after.node? member =
        if member ∈ tree.ids then none else other.node? member := by
  have isRoot := tree.id_mem_ids
  obtain ⟨node, known⟩ := held.live isRoot
  have live : other.contains tree.id = true :=
    contains_iff.mpr ⟨node, (same _ isRoot).trans known⟩
  have unlinked : (other.modify tree.id Node.unlinked).node? tree.id =
      some node.unlinked := by
    rw [node?_modify_self, same _ isRoot, known]
    rfl
  have released := forest.release_of_agreeing held known unlinked rfl rfl rfl
    (fun member isMember notRoot => by
      rw [node?_modify_of_ne _ notRoot, same member isMember]) payloads
  refine ⟨tree.ids.reverse.foldl discard (other.modify tree.id Node.unlinked), ?_,
    fun member => ?_⟩
  · have payloads_eq : tree.ids.reverse.filterMap
        (other.modify tree.id Node.unlinked).payload? =
          tree.ids.reverse.filterMap arena.payload? := by
      refine List.filterMap_congr fun member isMember => ?_
      rw [payload?, payload?, node?_modify, same member (List.mem_reverse.mp isMember),
        Option.bind_map]
      congr 1
      funext node
      by_cases isRoot : member = tree.id <;> simp [isRoot, Node.unlinked]
    rw [run_bind, run_apply, run_write _ live]
    dsimp only
    rw [run_within, released, ← payloads_eq]
    rfl
  · rw [node?_foldl_discard]
    simp only [List.mem_reverse]
    by_cases inside : member ∈ tree.ids
    · rw [if_pos inside, if_pos inside]
    · have notRoot : member ≠ tree.id := by
        rintro rfl
        exact inside isRoot
      rw [if_neg inside, if_neg inside, node?_modify_of_ne _ notRoot]

private theorem Forest.clear_children (forest : arena.Forest kids)
    (id : NodeId) {trees : List (Subtree P)}
    (held : ∀ tree ∈ trees, arena.Holds kids tree)
    (distinct : (trees.flatMap Subtree.ids).Nodup)
    (payloads : List P) (other : Arena P)
    (same : ∀ member ∈ trees.flatMap Subtree.ids,
      other.node? member = arena.node? member) :
    ∃ after,
      (trees.map Subtree.id).forM (fun child => do
        Session.apply (write child Node.unlinked)
        within s!"unable to free sub node {child} of {id}" (Arena.release child) :
          NodeId → Handover P Unit) (other, payloads) =
        .ok () (after, payloads ++
          (trees.flatMap fun tree => tree.ids.reverse).filterMap arena.payload?) ∧
      ∀ member, after.node? member =
        if member ∈ trees.flatMap Subtree.ids then none
        else other.node? member := by
  induction trees generalizing payloads other with
  | nil => exact ⟨other, by simp, by simp⟩
  | cons tree rest induction =>
      rw [List.flatMap_cons, List.nodup_append] at distinct
      obtain ⟨between, first, lookup⟩ :=
        forest.clear_child id (held tree List.mem_cons_self) payloads fun member isMember =>
          same member (List.mem_append_left _ isMember)
      have stillSame : ∀ member ∈ rest.flatMap Subtree.ids,
          between.node? member = arena.node? member := by
        intro member isMember
        rw [lookup, if_neg fun inTree => distinct.2.2 member inTree member isMember rfl]
        exact same member (List.mem_append_right _ isMember)
      obtain ⟨after, onward, lookupRest⟩ :=
        induction (fun other member => held other (List.mem_cons_of_mem _ member))
          distinct.2.1 (payloads ++ tree.ids.reverse.filterMap arena.payload?) between
          stillSame
      refine ⟨after, ?_, fun member => ?_⟩
      · rw [List.map_cons, run_forM_cons, first, List.flatMap_cons, List.filterMap_append,
          ← List.append_assoc]
        exact onward
      · rw [lookupRest, lookup]
        simp only [List.flatMap_cons, List.mem_append]
        by_cases later : member ∈ rest.flatMap Subtree.ids <;>
          by_cases now : member ∈ tree.ids <;> simp [later, now]

theorem Forest.clear_node (forest : arena.Forest kids) {id : NodeId} {payload : Option P}
    {trees : List (Subtree P)} (held : arena.Holds kids (.node id payload trees))
    (payloads : List P) :
    ∃ after, Arena.clear id (arena, payloads) = .ok () (after, payloads ++
        (trees.flatMap fun tree => tree.ids.reverse).filterMap arena.payload?) ∧
      ∀ other, after.node? other =
        if other ∈ trees.flatMap Subtree.ids then none
        else (arena.node? other).map fun node =>
          if other = id then node.childless else node := by
  have distinct := forest.nodup_ids held
  obtain ⟨carried, below, held⟩ := holds_node.mp held
  obtain ⟨node, found, _⟩ := carried?_eq_some.mp carried
  rw [Subtree.ids_node, List.nodup_cons] at distinct
  obtain ⟨after, isCleared, lookup⟩ :=
    forest.clear_children id held distinct.2 payloads
      (arena.modify id Node.childless) (fun member isMember => by
        refine node?_modify_of_ne _ ?_ _
        rintro rfl
        exact distinct.1 isMember)
  refine ⟨after, ?_, fun other => by rw [lookup, node?_modify]⟩
  unfold Arena.clear
  rw [run_get_bind, run_lift_bind (forest.children_eq found), below, run_bind, run_apply,
    run_alter]
  exact isCleared

theorem run_clear_stale {id : NodeId} (dead : arena.node? id = none) (payloads : List P) :
    Arena.clear id (arena, payloads) = .error (.cause (.stale id)) (arena, payloads) := by
  unfold Arena.clear children read
  rw [run_get_bind, dead]
  rfl

theorem Forest.of_cleared (forest : arena.Forest kids) {id : NodeId} {payload : Option P}
    {trees : List (Subtree P)} (held : arena.Holds kids (.node id payload trees))
    (lookup : ∀ other, after.node? other =
      if other ∈ trees.flatMap Subtree.ids then none
      else (arena.node? other).map fun node =>
        if other = id then node.childless else node) :
    ∃ others, after.Forest others := by
  obtain ⟨_, below, held⟩ := holds_node.mp held
  have isBelow : ∀ {child}, child ∈ kids id →
      child ∈ trees.flatMap Subtree.ids := by
    intro child isChild
    rw [below] at isChild
    obtain ⟨tree, isTree, rfl⟩ := List.mem_map.mp isChild
    exact List.mem_flatMap.mpr ⟨tree, isTree, tree.id_mem_ids⟩
  refine ⟨_, forest.prune (trees.flatMap Subtree.ids) id ?_ ?_ lookup⟩
  · rintro other (isGone | rfl) child isChild
    · obtain ⟨tree, isTree, member⟩ := List.mem_flatMap.mp isGone
      exact List.mem_flatMap.mpr
        ⟨tree, isTree, (held tree isTree).mem_of_kids member isChild⟩
    · exact isBelow isChild
  · intro other child isChild isGone
    obtain ⟨tree, isTree, member⟩ := List.mem_flatMap.mp isGone
    by_cases isRoot : child = tree.id
    · right
      apply forest.parent_unique isChild
      rw [below, isRoot]
      exact List.mem_map_of_mem isTree
    · left
      exact List.mem_flatMap.mpr ⟨tree, isTree,
        (held tree isTree).parent_mem forest member isRoot isChild⟩

theorem Forest.clear (forest : arena.Forest kids) (id : NodeId) (payloads : List P) :
    ∃ others, (reached (Arena.clear id (arena, payloads))).1.Forest others := by
  cases found : arena.node? id with
  | none =>
      rw [run_clear_stale found]
      exact ⟨kids, forest⟩
  | some node =>
      obtain ⟨⟨root, payload, trees⟩, rfl, held⟩ := forest.exists_subtree found
      obtain ⟨after, isCleared, lookup⟩ := forest.clear_node held payloads
      rw [Subtree.id_node, isCleared]
      exact forest.of_cleared held lookup

end LinkedBTree.Arena
