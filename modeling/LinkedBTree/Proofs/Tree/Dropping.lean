import LinkedBTree.Proofs.Tree.Occurrences

namespace LinkedBTree

/-! When an emptied leaf goes: what becomes of its branch, and of every other
node. -/

variable {α : Type}

open Subtree

def Frame.rejoined (frame : Frame α) : Shape α :=
  joined frame.id frame.remaining (frame.before ++ frame.after)

namespace Subtree

variable {id : NodeId} {list : EntryList α} {children : List (Shape α)}
  {frame : Frame α} {path : List (Frame α)} {part : Shape α} {old : Entry α}

theorem id_joined : (joined id list children).id = id := by
  unfold joined
  split <;> rfl

theorem mem_twigs_joined {twig : Twig (EntryList α)}
    (member : twig ∈ children.flatMap twigs)
    (outside : ∀ only, children = [only] → twig.id ≠ only.id) :
    twig ∈ (joined id list children).twigs := by
  unfold joined
  split
  · rename_i only
    obtain ⟨top, payload, below⟩ := only
    rw [List.flatMap_singleton, twigs_node, List.mem_cons] at member
    rcases member with rfl | deeper
    · exact absurd rfl (outside _ rfl)
    · rw [twigs_node]
      exact List.mem_cons_of_mem _ deeper
  · rw [twigs_node]
    exact List.mem_cons_of_mem _ member

theorem ids_joined_subset :
    (joined id list children).ids ⊆ id :: children.flatMap ids := by
  unfold joined
  split
  · rename_i only
    obtain ⟨top, payload, below⟩ := only
    simp
  · rw [ids_node]
    exact List.Subset.refl _

theorem Sound.rejoined_recast {last : Option (Entry α)} (sound : Sound (frame.close part))
    (distinct : Distinct (frame.close part).entries) (member : old ∈ part.entries) :
    frame.rejoined.recast (EntryList.refresh old.index last) = frame.rejoined := by
  obtain ⟨left, right⟩ := absent_outside distinct member
  apply (join_remaining sound).recast_of_absent
  intro other inside
  rw [entries_joined (Frame.append_ne_nil (close_iff.mp sound).1), List.flatMap_append,
    List.mem_append] at inside
  exact inside.elim (left other) (right other)

theorem dropped_eq_recast (sound : Sound (plug (frame :: path) part))
    (distinct : Distinct (plug (frame :: path) part).entries) (member : old ∈ part.entries) :
    dropped old.index frame path = (plug path frame.rejoined).recast
      (EntryList.refresh old.index frame.newLast) := by
  have outer : Sound (plug path (frame.close part)) := sound
  have apart : Distinct (plug path (frame.close part)).entries := distinct
  have whole : Sound (frame.close part) := outer.of_plug
  rw [dropped, list_rest whole apart.of_plug member, recast_plug,
    outer.recast_path apart (by simp [member]), whole.rejoined_recast apart.of_plug member]
  rfl

end Subtree

theorem Frame.rejoined_of_several {frame : Frame α}
    (several : 2 ≤ (frame.before ++ frame.after).length) : frame.rejoined =
      node frame.id (some frame.remaining) (frame.before ++ frame.after) := by
  rw [rejoined, joined]
  rintro only single
  rw [single] at several
  exact absurd several (by simp)

namespace Arena.Whole

variable {arena after : Arena (EntryList α)} {kids others : NodeId → List NodeId}
  {outer : List (Frame α)} {frame : Frame α} {leaf id : NodeId}
  {payload : Option (EntryList α)} {change : EntryList α → EntryList α}

/-- A leaf has gone from its branch, and what other nodes carry has changed. -/
structure Dropping (arena after : Arena (EntryList α))
    (kids others : NodeId → List NodeId) (outer : List (Frame α)) (frame : Frame α)
    (leaf : NodeId) (payload : Option (EntryList α))
    (change : EntryList α → EntryList α) : Prop where
  whole : arena.Whole kids (plug outer (frame.close (.node leaf payload [])))
  again : after.Whole others ((plug outer frame.rejoined).recast change)
  idle : frame.rejoined.recast change = frame.rejoined

namespace Dropping

variable (dropping : Dropping arena after kids others outer frame leaf payload change)
include dropping

theorem siblings : kids frame.id =
    frame.before.map Subtree.id ++ leaf :: frame.after.map Subtree.id := by
  have below := (holds_node.mp dropping.whole.held_part).2.1
  rw [below]
  simp

theorem childless : kids leaf = [] := by
  have below := (holds_node.mp dropping.whole.held_part).2.2
  exact (holds_node.mp (below (.node leaf payload []) (by simp))).2.1

theorem nodup :
    (leaf :: frame.id :: (frame.before ++ frame.after).flatMap Subtree.ids).Nodup := by
  have nodup := dropping.whole.nodup_part
  rw [Frame.close, ids_node, List.flatMap_append, List.flatMap_cons, ids_node,
    List.flatMap_nil] at nodup
  rw [List.flatMap_append]
  refine (List.Perm.nodup_iff ?_).mp nodup
  exact (List.perm_middle.cons frame.id).trans (List.Perm.swap ..)

theorem own : after.carried? frame.id = some frame.rejoined.payload ∧
    others frame.id = frame.rejoined.children.map Subtree.id := by
  have again := dropping.again
  rw [recast_plug, dropping.idle] at again
  obtain ⟨node, found, carried, below, _⟩ := again.node_of_part
  have isId : frame.rejoined.id = frame.id := id_joined
  rw [isId] at found below
  rw [carried?_of_node? found, carried]
  exact ⟨rfl, below⟩

theorem came (member : id ∈ ((plug outer frame.rejoined).recast change).ids) :
    id ∈ (plug outer (frame.close (.node leaf payload []))).ids ∧ id ≠ leaf ∧
      ∀ only, frame.before ++ frame.after = [only] → id ≠ only.id := by
  have nodup := dropping.nodup
  have inside : ∀ id, id = leaf ∨ id ∈ (frame.before ++ frame.after).flatMap Subtree.ids →
      id ∈ (frame.close (.node leaf payload [])).ids := by
    intro id member
    rw [Frame.close, ids_node, List.flatMap_append, List.flatMap_cons, ids_node]
    grind
  have isOnly : ∀ only, frame.before ++ frame.after = [only] →
      only.id ∈ (frame.before ++ frame.after).flatMap Subtree.ids := by
    intro only single
    rw [single, List.flatMap_singleton]
    exact only.id_mem_ids
  have isId : frame.rejoined.id = frame.id := id_joined
  rw [ids_recast, mem_ids_plug, isId] at member
  rw [mem_ids_plug]
  rcases member with within | around
  · have listed := ids_joined_subset within
    refine ⟨.inl ?_, ?_, ?_⟩
    · rcases List.mem_cons.mp listed with rfl | deeper
      · exact id_mem_ids (frame.close _)
      · exact inside id (.inr deeper)
    · rintro rfl
      exact (List.nodup_cons.mp nodup).1 listed
    · rintro ⟨top, list, below⟩ single rfl
      rw [Frame.rejoined, single, joined, ids_node] at within
      rw [single, List.flatMap_singleton, ids_node] at nodup
      obtain ⟨parentOutside, nodup⟩ := List.nodup_cons.mp (List.nodup_cons.mp nodup).2
      rcases List.mem_cons.mp within with same | deeper
      · exact parentOutside (same ▸ List.mem_cons_self)
      · exact (List.nodup_cons.mp nodup).1 deeper
  · obtain ⟨twig, isTwig, rfl⟩ := List.mem_map.mp around
    have outside := disjoint_around dropping.whole.nodup isTwig
    refine ⟨.inr (List.mem_map_of_mem isTwig), ?_, fun only single same => ?_⟩
    · exact fun same => outside (inside _ (.inl same))
    · exact outside (inside _ (.inr (same ▸ isOnly only single)))

theorem agree (notLeaf : id ≠ leaf) (notParent : id ≠ frame.id)
    (notOnly : ∀ only, frame.before ++ frame.after = [only] → id ≠ only.id) :
    after.carried? id = (arena.carried? id).map (Option.map change) ∧
      others id = kids id := by
  refine dropping.whole.agree dropping.again ?_ fun member => (dropping.came member).1
  rintro twig isTwig rfl
  rw [twigs_recast]
  apply List.mem_map_of_mem
  have isId : frame.rejoined.id = frame.id := id_joined
  rw [mem_twigs_plug] at isTwig
  rw [mem_twigs_plug, isId]
  refine isTwig.imp_left fun within => mem_twigs_joined ?_ notOnly
  rw [Frame.close, twigs_node, List.mem_cons, List.flatMap_append, List.flatMap_cons,
    twigs_node, List.flatMap_nil] at within
  rw [List.flatMap_append]
  grind

theorem dead (gone : id = leaf ∨
    ∃ only, frame.before ++ frame.after = [only] ∧ id = only.id) :
    after.node? id = none ∧ others id = [] := by
  have dead : after.node? id = none := by
    cases found : after.node? id with
    | none => rfl
    | some node =>
        obtain ⟨_, notLeaf, notOnly⟩ := dropping.came (dropping.again.covered id node found)
        rcases gone with same | ⟨only, single, same⟩
        · exact absurd same notLeaf
        · exact absurd same (notOnly only single)
  exact ⟨dead, dropping.again.forest.none_of_dead dead⟩

theorem only_eq {only : Shape α} (single : frame.before ++ frame.after = [only]) :
    arena.carried? only.id = some only.payload ∧
      kids only.id = only.children.map Subtree.id ∧ frame.id ∉ only.id :: kids only.id := by
  have nodup := (List.nodup_cons.mp dropping.nodup).2
  rw [single, List.flatMap_singleton] at nodup
  have member : only ∈ frame.before ++ frame.after := by simp [single]
  have held := (holds_node.mp dropping.whole.held_part).2.2 only (List.mem_append.mpr
    ((List.mem_append.mp member).imp_right (List.mem_cons_of_mem _)))
  obtain ⟨carried, below⟩ : arena.carried? only.id = some only.payload ∧
      kids only.id = only.children.map Subtree.id := by
    obtain ⟨top, list, children⟩ := only
    obtain ⟨carried, below, _⟩ := holds_node.mp held
    exact ⟨carried, below⟩
  refine ⟨carried, below, fun inside => (List.nodup_cons.mp nodup).1 ?_⟩
  rcases List.mem_cons.mp inside with same | listed
  · exact same ▸ only.id_mem_ids
  · exact held.mem_of_kids only.id_mem_ids listed

theorem children_branch : after.children frame.id =
    .ok (frame.rejoined.children.map Subtree.id) := by
  obtain ⟨carried, below⟩ := dropping.own
  obtain ⟨node, found, _⟩ := carried?_eq_some.mp carried
  rw [dropping.again.forest.children_eq found, below]

theorem node?_branch : after.node? frame.id = (arena.node? frame.id).map fun node =>
    { node with
      payload := frame.rejoined.payload
      firstChild := (frame.rejoined.children.map Subtree.id).head?
      lastChild := (frame.rejoined.children.map Subtree.id).getLast?
      childCount := (frame.rejoined.children.map Subtree.id).length } := by
  obtain ⟨carries, below⟩ := dropping.own
  have forest := dropping.whole.forest
  have carried : after.carried? frame.id =
      (arena.carried? frame.id).map fun _ => frame.rejoined.payload := by
    rw [carries, (holds_node.mp dropping.whole.held_part).1, Option.map_some]
  -- The lists that change are its own, the leaf's and an only child's. It is in none.
  have beside : ∀ parent, frame.id ∈ kids parent ∨ frame.id ∈ others parent →
      others parent = kids parent := by
    intro parent isChild
    by_cases isLeaf : parent = leaf
    · rw [isLeaf, dropping.childless, (dropping.dead (.inl rfl)).2]
    · refine (dropping.agree isLeaf ?_ ?_).2
      · rintro rfl
        exact isChild.elim forest.not_mem_self dropping.again.forest.not_mem_self
      · rintro only single rfl
        rcases isChild with listed | listed
        · exact (dropping.only_eq single).2.2 (List.mem_cons_of_mem _ listed)
        · rw [(dropping.dead (.inr ⟨only, single, rfl⟩)).2] at listed
          cases listed
  have links : ∀ old new, arena.node? frame.id = some old → after.node? frame.id = some new →
      new = { old with
        payload := new.payload
        firstChild := (others frame.id).head?
        lastChild := (others frame.id).getLast?
        childCount := (others frame.id).length } := fun _ _ known found =>
    forest.links_eq_of_beside dropping.again.forest known found beside
  rw [← below]
  exact @node?_eq_map _ _ _ _ (fun node => { node with
    firstChild := (others frame.id).head?
    lastChild := (others frame.id).getLast?
    childCount := (others frame.id).length }) _ carried links

theorem node?_beside (several : 2 ≤ (frame.before ++ frame.after).length)
    (notLeaf : id ≠ leaf) (notParent : id ≠ frame.id) :
    after.node? id = (arena.node? id).map fun node =>
      { node with
        payload := node.payload.map change
        previous := if (frame.after.map Subtree.id).head? = some id
          then (frame.before.map Subtree.id).getLast? else node.previous
        next := if (frame.before.map Subtree.id).getLast? = some id
          then (frame.after.map Subtree.id).head? else node.next } := by
  have notOnly {id} : ∀ only, frame.before ++ frame.after = [only] → id ≠ only.id := by
    intro only single
    rw [single] at several
    exact absurd several (by simp)
  have edited : others = Function.update kids frame.id
      (frame.before.map Subtree.id ++ frame.after.map Subtree.id) := by
    funext other
    by_cases isParent : other = frame.id
    · rw [isParent, Function.update_self, dropping.own.2, Frame.rejoined_of_several several,
        children_node, List.map_append]
    · rw [Function.update_of_ne isParent]
      by_cases isLeaf : other = leaf
      · rw [isLeaf, dropping.childless, (dropping.dead (.inl rfl)).2]
      · exact (dropping.agree isLeaf isParent notOnly).2
  have again := dropping.again.forest
  rw [edited] at again
  rw [node?_eq_map (dropping.agree notLeaf notParent notOnly).1 fun _ _ known found =>
    dropping.whole.forest.links_of_detached dropping.siblings again known found]
  simp [parted, notLeaf, notParent]

theorem node?_below {only : Shape α} (single : frame.before ++ frame.after = [only])
    (notLeaf : id ≠ leaf) (notParent : id ≠ frame.id) (notOnly : id ≠ only.id) :
    after.node? id = (arena.node? id).map fun node =>
      { node with
        payload := node.payload.map change
        parent := if id ∈ kids only.id then some frame.id else node.parent } := by
  obtain ⟨_, below, outside⟩ := dropping.only_eq single
  have different : only.id ≠ frame.id := fun same => outside (same ▸ List.mem_cons_self)
  have lone : frame.before.map Subtree.id ++ frame.after.map Subtree.id = [only.id] := by
    rw [← List.map_append, single, List.map_singleton]
  have isOnly : ∀ other, frame.before ++ frame.after = [other] → other = only :=
    fun other again => (List.cons.inj (again.symm.trans single)).1
  -- First the leaf goes, and then the branch and its only child become one.
  have detached := dropping.whole.forest.detach dropping.siblings
  rw [lone] at detached
  have edited : others = fun other =>
      if other = frame.id then Function.update kids frame.id [only.id] only.id
      else if other = only.id then []
      else Function.update kids frame.id [only.id] other := by
    funext other
    by_cases isParent : other = frame.id
    · rw [if_pos isParent, isParent, Function.update_of_ne different, dropping.own.2,
        Frame.rejoined, single, joined, children_node, below]
    · rw [if_neg isParent, Function.update_of_ne isParent]
      split
      · rename_i same
        exact (dropping.dead (.inr ⟨only, single, same⟩)).2
      · rename_i notOnly
        by_cases isLeaf : other = leaf
        · rw [isLeaf, dropping.childless, (dropping.dead (.inl rfl)).2]
        · exact (dropping.agree isLeaf isParent fun only again =>
            isOnly only again ▸ notOnly).2
  have again := dropping.again.forest
  rw [edited] at again
  obtain ⟨notPrevious, notNext⟩ := dropping.whole.forest.neighbours_ne dropping.siblings
  have notBefore : (frame.before.map Subtree.id).getLast? ≠ some id := by
    intro isLast
    have member := List.mem_append_left (frame.after.map Subtree.id)
      (List.mem_of_getLast? isLast)
    rw [lone] at member
    exact notOnly (List.mem_singleton.mp member)
  have notAfter : (frame.after.map Subtree.id).head? ≠ some id := by
    intro isFirst
    have member := List.mem_append_right (frame.before.map Subtree.id)
      (List.mem_of_head? isFirst)
    rw [lone] at member
    exact notOnly (List.mem_singleton.mp member)
  have links : ∀ old new, arena.node? id = some old → after.node? id = some new →
      new = { old with
        payload := new.payload
        parent := if id ∈ kids only.id then some frame.id else old.parent } := by
    intro old new known found
    have moved := node?_detach arena frame.id leaf id notPrevious notNext
    rw [known, Option.map_some] at moved
    rw [detached.links_of_merged (Function.update_self ..) again moved found notOnly,
      Function.update_of_ne different]
    by_cases isBelow : id ∈ kids only.id <;>
      simp only [merged, parted, notLeaf, notParent, isBelow, notBefore, notAfter,
        false_and, if_false, if_true]
  exact @node?_eq_map _ _ _ _
    (fun node => { node with
      parent := if id ∈ kids only.id then some frame.id else node.parent }) _
    (dropping.agree notLeaf notParent fun other again => isOnly other again ▸ notOnly).1 links

end Dropping

end Arena.Whole

end LinkedBTree
