import LinkedBTree.Proofs.Tree.Descent
import LinkedBTree.Proofs.Tree.Reshaping
import LinkedBTree.Proofs.Tree.Walking

namespace LinkedBTree

/-! The same shape under other handles: nothing that is read off a shape or made
of it depends on them. -/

variable {P α σ : Type}

namespace Subtree

def rename (change : NodeId → NodeId) : Subtree P → Subtree P
  | node id payload children =>
      node (change id) payload (children.map (rename change))

def nameless (_ : NodeId) : NodeId :=
  ⟨0, 0⟩

def anonymous (tree : Subtree P) : Subtree P :=
  tree.rename nameless

section

variable (change : NodeId → NodeId) (tree other : Subtree P)

@[simp] theorem rename_node (id : NodeId) (payload : Option P)
    (children : List (Subtree P)) :
    (node id payload children).rename change =
      node (change id) payload (children.map (rename change)) := by
  rw [rename]

@[simp] theorem id_rename : (tree.rename change).id = change tree.id := by
  cases tree
  rw [rename_node]
  rfl

@[simp] theorem payload_rename : (tree.rename change).payload = tree.payload := by
  cases tree
  rw [rename_node]
  rfl

@[simp] theorem children_rename :
    (tree.rename change).children = tree.children.map (rename change) := by
  cases tree
  rw [rename_node]
  rfl

theorem ids_rename : (tree.rename change).ids = tree.ids.map change := by
  induction tree with
  | node id payload children induction =>
      rw [rename_node, ids_node, ids_node, List.map_cons, List.map_flatMap,
        List.flatMap_map, List.flatMap_def, List.flatMap_def]
      exact congrArg (change id :: List.flatten ·) (List.map_congr_left induction)

theorem rename_rename (later : NodeId → NodeId) :
    (tree.rename change).rename later = tree.rename (later ∘ change) := by
  induction tree with
  | node id payload children induction =>
      rw [rename_node, rename_node, rename_node, List.map_map]
      exact congrArg (node _ payload) (List.map_congr_left induction)

@[simp] theorem anonymous_rename :
    (tree.rename change).anonymous = tree.anonymous :=
  rename_rename ..

variable {tree other}

theorem length_ids (same : tree.anonymous = other.anonymous) :
    tree.ids.length = other.ids.length := by
  have ids := congrArg (fun shape => shape.ids.length) same
  simpa [anonymous, ids_rename] using ids

theorem eq_of_ids (same : tree.anonymous = other.anonymous)
    (ids : tree.ids = other.ids) : tree = other := by
  induction tree generalizing other with
  | node id payload children induction =>
      obtain ⟨otherId, otherPayload, others⟩ := other
      simp only [anonymous, rename_node, node.injEq] at same
      obtain ⟨_, rfl, below⟩ := same
      rw [ids_node, ids_node, List.cons.injEq] at ids
      obtain ⟨rfl, ids⟩ := ids
      apply congrArg (node id payload)
      induction children generalizing others with
      | nil => exact (List.map_eq_nil_iff.mp below.symm).symm
      | cons child rest following =>
          obtain ⟨next, later, rfl, isNext, isLater⟩ :=
            List.map_eq_cons_iff.mp below.symm
          rw [List.flatMap_cons, List.flatMap_cons] at ids
          obtain ⟨first, ids⟩ := List.append_inj ids (length_ids isNext.symm)
          rw [induction child (by simp) isNext.symm first,
            following (fun other member => induction other (by simp [member])) later
              isLater.symm ids]

theorem exists_renaming (same : tree.anonymous = other.anonymous)
    (nodup : tree.ids.Nodup) (alsoNodup : other.ids.Nodup) :
    ∃ change : NodeId → NodeId, tree.rename change = other ∧
      ∀ left ∈ tree.ids, ∀ right ∈ tree.ids,
        change left = change right → left = right := by
  have length := length_ids same
  -- A handle goes to the one at its place in preorder.
  let change (id : NodeId) : NodeId := other.ids[tree.ids.idxOf id]?.getD id
  have follows : ∀ (position : Nat) (inRange : position < tree.ids.length),
      change tree.ids[position] = other.ids[position] := by
    intro position inRange
    simp only [change]
    rw [nodup.idxOf_getElem, List.getElem?_eq_getElem (length ▸ inRange)]
    rfl
  refine ⟨change, eq_of_ids ((anonymous_rename ..).trans same) ?_, ?_⟩
  · rw [ids_rename]
    apply List.ext_getElem (by simpa using length)
    intro position inRange _
    rw [List.getElem_map]
    exact follows position (by simpa using inRange)
  · intro left isLeft right isRight equal
    obtain ⟨position, inRange, rfl⟩ := List.getElem_of_mem isLeft
    obtain ⟨place, alsoInRange, rfl⟩ := List.getElem_of_mem isRight
    rw [follows, follows] at equal
    have same := alsoNodup.idxOf_getElem position (length ▸ inRange)
    rw [equal, alsoNodup.idxOf_getElem] at same
    simp only [same]

end

theorem height_rename (change : NodeId → NodeId) (tree : Subtree P) :
    (tree.rename change).height = tree.height := by
  induction tree with
  | node id payload children induction =>
      rw [rename_node, height, height, List.map_map]
      exact congrArg (List.foldr max 0 · + 1) (List.map_congr_left induction)

end Subtree

open Subtree

def Frame.rename (change : NodeId → NodeId) (frame : Frame α) : Frame α where
  id := change frame.id
  list := frame.list
  before := frame.before.map (Subtree.rename change)
  after := frame.after.map (Subtree.rename change)

namespace Subtree

variable (change : NodeId → NodeId) {path : List (Frame α)} {frame : Frame α}
  {part shape : Shape α} {index : Nat} {last : Option (Entry α)}

theorem entries_rename (shape : Shape α) :
    (shape.rename change).entries = shape.entries := by
  induction shape using Subtree.induction with
  | node id payload children induction =>
      rw [rename_node, entries, entries]
      by_cases isLeaf : children = []
      · rw [if_pos isLeaf, if_pos (by simp [isLeaf])]
        rfl
      · rw [if_neg isLeaf, if_neg (by simpa using isLeaf), List.flatMap_map,
          List.flatMap_def, List.flatMap_def]
        exact congrArg List.flatten (List.map_congr_left induction)

private theorem flatMap_entries_rename (children : List (Shape α)) :
    (children.map (rename change)).flatMap entries = children.flatMap entries := by
  rw [List.flatMap_map, List.flatMap_def, List.flatMap_def]
  exact congrArg List.flatten
    (List.map_congr_left fun child _ => entries_rename change child)

theorem leftOf_rename (path : List (Frame α)) :
    leftOf (path.map (Frame.rename change)) = leftOf path := by
  induction path with
  | nil => rfl
  | cons frame path induction =>
      rw [List.map_cons, leftOf, leftOf, induction, Frame.rename,
        flatMap_entries_rename]

theorem rightOf_rename (path : List (Frame α)) :
    rightOf (path.map (Frame.rename change)) = rightOf path := by
  induction path with
  | nil => rfl
  | cons frame path induction =>
      rw [List.map_cons, rightOf, rightOf, induction, Frame.rename,
        flatMap_entries_rename]

theorem rename_plug : (plug path part).rename change =
    plug (path.map (Frame.rename change)) (part.rename change) := by
  induction path generalizing part with
  | nil => rfl
  | cons frame path induction =>
      rw [plug, induction, List.map_cons, plug, Frame.close, Frame.close]
      simp [Frame.rename]

theorem rename_refresh : (frame.refresh index last).rename change =
    (frame.rename change).refresh index last := by
  cases last with
  | none => rfl
  | some entry =>
      simp only [Frame.refresh, Option.elim_some, Frame.renew]
      simp only [Frame.rename]
      split <;> rfl

theorem map_rename_refresh :
    (path.map (Frame.refresh index last)).map (Frame.rename change) =
      (path.map (Frame.rename change)).map (Frame.refresh index last) := by
  rw [List.map_map, List.map_map]
  exact List.map_congr_left fun frame _ => rename_refresh change

theorem rename_leaf (id : NodeId) (list : EntryList α) :
    (node id (some list) []).rename change = node (change id) (some list) [] := by
  rw [rename_node]
  rfl

theorem rename_grown {config : Config} {leaf : NodeId} {list : EntryList α}
    {fresh : List NodeId} :
    (grown config leaf list fresh).rename change =
      grown config (change leaf) list (fresh.map change) := by
  unfold grown
  split
  · rw [spread, spread, rename_node, leavesOf, leavesOf, List.zip_map_left,
      List.map_map, List.map_map]
    apply congrArg (node _ _)
    exact List.map_congr_left fun pair _ => rename_leaf change pair.1 pair.2
  · exact rename_leaf change leaf list

theorem rename_joined {id : NodeId} {list : EntryList α}
    {children : List (Shape α)} : (joined id list children).rename change =
      joined (change id) list (children.map (rename change)) := by
  match children with
  | [] => exact rename_leaf change id list
  | [child] => simp [joined]
  | first :: second :: rest =>
      rw [joined, joined, rename_node]
      all_goals simp

theorem rename_dropped {index : Nat} :
    (dropped index frame path).rename change =
      dropped index (frame.rename change) (path.map (Frame.rename change)) := by
  have newLast : (frame.rename change).newLast = frame.newLast := by
    simp [Frame.newLast, Frame.rename]
  have rest : ((frame.rename change).rest index frame.newLast).list =
      (frame.rest index frame.newLast).list := by
    have remaining : (frame.rename change).remaining = frame.remaining := by
      simp [Frame.remaining, Frame.rename]
    have same := congrArg Frame.list (@rename_refresh α change
      { frame with list := frame.remaining } index frame.newLast)
    rw [Frame.rest, Frame.rest, remaining]
    exact same.symm
  unfold dropped
  rw [rename_plug, map_rename_refresh, rename_joined, newLast, rest,
    List.map_append]
  rfl

theorem rename_erased {leaf : NodeId} {front back : List (Entry α)}
    {entry : Entry α} : (erased path leaf front entry back).rename change =
      erased (path.map (Frame.rename change)) (change leaf) front entry back := by
  by_cases stays : path = [] ∨ front ++ back ≠ []
  · have alsoStays : path.map (Frame.rename change) = [] ∨ front ++ back ≠ [] := by
      simpa using stays
    rw [erased_shortened stays, erased_shortened alsoStays, rename_plug,
      map_rename_refresh, rename_leaf]
  · rw [not_or, Classical.not_not] at stays
    obtain ⟨rfl, rfl⟩ := List.append_eq_nil_iff.mp stays.2
    obtain ⟨frame, outer, rfl⟩ := List.exists_cons_of_ne_nil stays.1
    rw [List.map_cons, erased_emptied, erased_emptied, rename_dropped]

theorem rename_overwritten {leaf : NodeId} {front back : List (Entry α)}
    {entry : Entry α} : (overwritten path leaf front entry back).rename change =
      overwritten (path.map (Frame.rename change)) (change leaf) front entry back := by
  rw [overwritten, overwritten, rename_plug, map_rename_refresh, rename_leaf]

end Subtree

def Landing.rename (change : NodeId → NodeId) (landing : Landing α) :
    Landing α where
  path := landing.path.map (Frame.rename change)
  id := change landing.id
  children := landing.children.map (Subtree.rename change)
  stop := landing.stop

theorem Subtree.descend_rename (change : NodeId → NodeId) (value : α)
    (compare : Comparator σ α) (pastEqual : Bool) (path : List (Frame α))
    (shape : Shape α) :
    (shape.rename change).descend value compare pastEqual
        (path.map (Frame.rename change)) =
      Landing.rename change <$> shape.descend value compare pastEqual path := by
  induction shape using Subtree.induction generalizing path with
  | node id payload children induction =>
      rw [rename_node, descend, descend, map_bind]
      apply bind_congr
      intro stop
      by_cases ends : (stop.equal?.isSome && !pastEqual) = true
      · rw [if_pos ends, if_pos ends, map_pure]
        rfl
      · rw [if_neg ends, if_neg ends]
        by_cases inRange : stop.front.length < children.length
        · have follows := induction _ (List.getElem_mem inRange)
            (⟨id, payload.getD {}, children.take stop.front.length,
              children.drop (stop.front.length + 1)⟩ :: path)
          rw [dif_pos (by simpa using inRange), dif_pos inRange, ← follows,
            List.getElem_map, List.map_cons, Frame.rename, List.map_take,
            List.map_drop]
        · rw [dif_neg (by simpa using inRange), dif_neg inRange, map_pure]
          rfl

end LinkedBTree
