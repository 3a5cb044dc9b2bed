import LinkedBTree.Proofs.Tree.Descent
import LinkedBTree.Proofs.Tree.Edited
import LinkedBTree.Proofs.Tree.Neighbours

namespace LinkedBTree.Tree

/-! What each operation makes of an upright tree, once it is known where the
descent for its value ends. -/

variable {α σ β : Type}

open Subtree

variable {tree : Tree α} {shape : Shape α} {compare : Comparator σ α}
  {value : α} {state after : σ} {path : List (Frame α)} {id leaf : NodeId}
  {children : List (Shape α)} {front back : List (Entry α)} {entry : Entry α}

private theorem storedValue_eq {list : EntryList α}
    (embodies : tree.Embodies (plug path (.node id (some list) children)))
    (split : list.entries = front ++ entry :: back) (activity : String) :
    tree.storedValue id front.length activity = .ok entry.value := by
  have isValue : list.value? front.length = some entry.value := by
    simp [EntryList.value?, EntryList.entry?, split]
  unfold storedValue
  rw [bind_of_ok embodies.list_eq, isValue]
  rfl

theorem Upright.landed {pastEqual : Bool} {landing : Landing α}
    (upright : tree.Upright shape)
    (descended : descend value compare pastEqual [] shape state =
      .ok landing after) : Landed value compare pastEqual shape landing :=
  (descend_meets upright value compare pastEqual).of_ok descended

section

variable {error : Error}

theorem insert_raised (upright : tree.Upright shape)
    (failed : descend value compare false [] shape state = .error error after) :
    ∃ raised, insert value compare (tree, state) = .error raised (tree, after) ∧
      raised.root = error.root := by
  obtain ⟨raised, isRaised, same⟩ := (locate_alike upright value compare).of_error failed
  refine ⟨raised, ?_, same⟩
  rw [insert, run_bind, run_consult, isRaised]

theorem insert_found (upright : tree.Upright shape)
    (descended : descend value compare false [] shape state =
      .ok ⟨path, id, children, .equal front entry back⟩ after) :
    insert value compare (tree, state) =
      .ok (.existing entry.value value) (tree, after) := by
  obtain ⟨_, located, rfl⟩ := (locate_alike upright value compare).of_ok descended
  have embodies := upright.embodies
  rw [(upright.landed descended).whole] at embodies
  rw [insert, run_bind, run_consult, located]
  simp only [Landing.location]
  rw [run_bind, run_consult, run_lift, storedValue_eq embodies rfl]
  rfl

theorem insert_gap (upright : tree.Upright shape)
    (descended : descend value compare false [] shape state =
      .ok ⟨path, leaf, children, .before front back⟩ after) :
    insert value compare (tree, state) =
      (InsertResult.inserted <$> Session.apply
        (Edit.store leaf front.length value)) (tree, after) := by
  obtain ⟨_, located, rfl⟩ := (locate_alike upright value compare).of_ok descended
  rw [insert, run_bind, run_consult, located, map_eq_pure_bind]
  rfl

theorem insert_room (upright : tree.Upright shape)
    (descended : descend value compare false [] shape state =
      .ok ⟨path, leaf, children, .before front back⟩ after)
    (room : Edit.Room tree ⟨front ++ ⟨value, tree.values.size⟩ :: back⟩) :
    ∃ fresh arena, insert value compare (tree, state) =
        .ok (.inserted tree.values.size)
          ({ tree with arena, values := tree.values.push value }, after) ∧
      tree.config.Supplied
        ⟨front ++ ⟨value, tree.values.size⟩ :: back⟩ fresh ∧
      arena.setting = (tree.arena.capacity, tree.arena.stats.splits +
        if tree.config.Overfull ⟨front ++ ⟨value, tree.values.size⟩ :: back⟩
        then 1 else 0) ∧
      ({ tree with arena, values := tree.values.push value } :
        Tree α).Embodies (plug path (grown tree.config leaf
          ⟨front ++ ⟨value, tree.values.size⟩ :: back⟩ fresh)) := by
  have embodies := upright.embodies
  rw [(upright.landed descended).gap] at embodies
  obtain ⟨fresh, arena, stored, rest⟩ :=
    Edit.store_room embodies rfl value room
  refine ⟨fresh, arena, ?_, rest⟩
  rw [insert_gap upright descended, map_eq_pure_bind, run_bind, run_apply,
    stored]
  rfl

theorem insert_refused (upright : tree.Upright shape)
    (descended : descend value compare false [] shape state =
      .ok ⟨path, leaf, children, .before front back⟩ after)
    (none : ¬Edit.Room tree ⟨front ++ ⟨value, tree.values.size⟩ :: back⟩) :
    ∃ arena error, insert value compare (tree, state) =
        .error error ({ tree with arena }, after) ∧
      error.root = .arenaExhausted tree.arena.capacity ∧
      tree.arena.Unwound arena ∧
      ({ tree with arena } : Tree α).Upright shape := by
  have landed := upright.landed descended
  have embodies := upright.embodies
  rw [landed.gap] at embodies
  obtain ⟨arena, error, refused, cause, unwound, embodied⟩ :=
    Edit.store_refused embodies rfl value none
  refine ⟨arena, error, ?_, cause, unwound, ?_, upright.formed, upright.mirrors⟩
  · rw [insert_gap upright descended, map_eq_pure_bind, run_bind, run_apply,
      refused]
  · rw [landed.gap]
    exact embodied

theorem remove_raised (upright : tree.Upright shape)
    (failed : descend value compare true [] shape state = .error error after) :
    ∃ raised, remove value compare (tree, state) = .error raised (tree, after) ∧
      raised.root = error.root := by
  obtain ⟨raised, isRaised, same⟩ :=
    (locateInLeaf_alike upright value compare).of_error failed
  refine ⟨raised, ?_, same⟩
  rw [remove, run_bind, run_consult, isRaised]

theorem remove_gap (upright : tree.Upright shape)
    (descended : descend value compare true [] shape state =
      .ok ⟨path, id, children, .before front back⟩ after) :
    remove value compare (tree, state) = .ok none (tree, after) := by
  obtain ⟨_, located, rfl⟩ :=
    (locateInLeaf_alike upright value compare).of_ok descended
  rw [remove, run_bind, run_consult, located]
  rfl

theorem remove_found (upright : tree.Upright shape)
    (descended : descend value compare true [] shape state =
      .ok ⟨path, leaf, children, .equal front entry back⟩ after) :
    ∃ arena, remove value compare (tree, state) = .ok (some entry.value)
        ({ tree with
          arena
          values := tree.values.put entry.index none },
          after) ∧
      arena.setting = tree.arena.setting ∧
      ({ tree with
        arena
        values := tree.values.put entry.index none } :
        Tree α).Embodies (erased path leaf front entry back) := by
  obtain ⟨_, located, rfl⟩ :=
    (locateInLeaf_alike upright value compare).of_ok descended
  have whole := (upright.landed descended).found
  subst whole
  obtain ⟨arena, removed, rest⟩ := Edit.erase_makes upright rfl
  refine ⟨arena, ?_, rest⟩
  rw [remove, run_bind, run_consult, located]
  simp only [Landing.place?]
  rw [run_bind, run_apply, removed]
  rfl

variable {old new : α}

theorem replace_raised (upright : tree.Upright shape)
    (failed : descend old compare true [] shape state = .error error after) :
    ∃ raised, replace old new compare (tree, state) =
        .error raised (tree, after) ∧ raised.root = error.root := by
  obtain ⟨raised, isRaised, same⟩ :=
    (locateInLeaf_alike upright old compare).of_error failed
  refine ⟨raised, ?_, same⟩
  rw [replace, run_bind, run_consult, isRaised]

theorem replace_gap (upright : tree.Upright shape)
    (descended : descend old compare true [] shape state =
      .ok ⟨path, id, children, .before front back⟩ after) :
    replace old new compare (tree, state) =
      .error (.cause .nothingToReplace) (tree, after) := by
  obtain ⟨_, located, rfl⟩ :=
    (locateInLeaf_alike upright old compare).of_ok descended
  rw [replace, run_bind, run_consult, located]
  rfl

theorem replace_asks (upright : tree.Upright shape)
    (descended : descend old compare true [] shape state =
      .ok ⟨path, leaf, children, .equal front entry back⟩ after) :
    replace old new compare (tree, state) =
      (Session.consult (fun _ => checkBetween new compare
          ((leftOf path ++ front).getLast?.map Entry.value)
          ((back ++ rightOf path).head?.map Entry.value)) >>= fun _ =>
        Session.apply (Edit.overwrite leaf front.length new)) (tree, after) := by
  obtain ⟨_, located, rfl⟩ :=
    (locateInLeaf_alike upright old compare).of_ok descended
  have whole := (upright.landed descended).found
  subst whole
  have formed := upright.formed_of_filled (by simp)
  rw [replace, run_bind, run_consult, located]
  simp only [Landing.place?]
  rw [run_bind, run_bind, run_consult, run_consult,
    checkFits_eq rfl formed upright.embodies]

theorem replace_misfit {last : σ} (upright : tree.Upright shape)
    (descended : descend old compare true [] shape state =
      .ok ⟨path, leaf, children, .equal front entry back⟩ after)
    (refused : checkBetween new compare
      ((leftOf path ++ front).getLast?.map Entry.value)
      ((back ++ rightOf path).head?.map Entry.value) after =
        .error error last) :
    replace old new compare (tree, state) = .error error (tree, last) := by
  rw [replace_asks upright descended, run_bind, run_consult, refused]

theorem replace_found {last : σ} (upright : tree.Upright shape)
    (descended : descend old compare true [] shape state =
      .ok ⟨path, leaf, children, .equal front entry back⟩ after)
    (fits : checkBetween new compare
      ((leftOf path ++ front).getLast?.map Entry.value)
      ((back ++ rightOf path).head?.map Entry.value) after = .ok () last) :
    ∃ arena, replace old new compare (tree, state) = .ok entry.value
        ({ tree with
          arena
          values := tree.values.put entry.index
            (some new) }, last) ∧
      arena.setting = tree.arena.setting ∧
      ({ tree with
        arena
        values := tree.values.put entry.index
          (some new) } : Tree α).Embodies
        (overwritten path leaf front ⟨new, entry.index⟩ back) := by
  have whole := (upright.landed descended).found
  have asks := @replace_asks _ _ _ _ _ _ _ _ _ _ _ _ _ old new upright descended
  subst whole
  obtain ⟨arena, replaced, rest⟩ := Edit.overwrite_makes upright rfl new
  refine ⟨arena, ?_, rest⟩
  rw [asks, run_bind, run_consult, fits]
  simp only
  rw [run_apply, replaced]

theorem get?_alike (upright : tree.Upright shape) (value : α)
    (compare : Comparator σ α) :
    Alike (fun stored landing => stored = landing.stop.equal?.map Entry.value)
      (tree.get? value compare) (descend value compare false [] shape) := by
  have embodies := upright.embodies
  rw [← bind_pure (descend value compare false [] shape)]
  apply ((locate_alike upright value compare).and_meets
    (descend_meets upright value compare false)).bind
  rintro _ ⟨path, id, children, stop⟩ ⟨rfl, landed⟩
  rw [landed.whole] at embodies
  cases stop with
  | equal front entry back =>
      exact Alike.lift_bind (storedValue_eq embodies rfl "lookup") (.pure rfl)
  | before front back => exact .pure rfl

theorem contains_alike (upright : tree.Upright shape) (value : α)
    (compare : Comparator σ α) :
    Alike (fun found landing => found = landing.stop.equal?.isSome)
      (tree.contains value compare) (descend value compare false [] shape) := by
  rw [← bind_pure (descend value compare false [] shape)]
  apply (locate_alike upright value compare).bind
  rintro _ ⟨path, id, children, stop⟩ rfl
  cases stop with
  | equal front entry back => exact .pure rfl
  | before front back => exact .pure rfl

theorem split_dead (upright : tree.Upright shape) (dead : id ∉ shape.ids) :
    Edit.split id tree = .error (.cause (.stale id)) tree := by
  obtain ⟨_, kids, whole⟩ := upright.embodies
  have vacant : tree.arena.node? id = none := by
    cases found : tree.arena.node? id with
    | none => rfl
    | some node => exact absurd (whole.covered id node found) dead
  rw [Edit.split, run_get_bind, Arena.read, vacant]
  rfl

theorem split_branch {list : EntryList α}
    (upright : tree.Upright (plug path (.node id (some list) children)))
    (inner : children ≠ []) :
    Edit.split id tree = .error (.cause (.notALeaf id children.length)) tree := by
  obtain ⟨_, kids, whole⟩ := upright.embodies
  obtain ⟨node, found, _, below, _⟩ := whole.node_of_part
  rw [id_node, children_node] at below
  have counted : node.childCount = children.length := by
    rw [whole.forest.childCount found, id_node, below, List.length_map]
  have isBranch : node.isLeaf = false := by
    refine Bool.eq_false_iff.mpr fun single => inner ?_
    have none := (whole.forest.isLeaf_iff found).mp single
    rw [id_node, below] at none
    exact List.map_eq_nil_iff.mp none
  rw [id_node] at found
  rw [Edit.split, run_get_bind, run_lift_bind (Arena.read_eq found), isBranch,
    ← counted]
  rfl

end

end LinkedBTree.Tree
