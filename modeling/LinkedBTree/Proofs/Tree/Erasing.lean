import LinkedBTree.Tree.Erase
import LinkedBTree.Tree.Overwrite
import LinkedBTree.Proofs.Arena.Running
import LinkedBTree.Proofs.Tree.Reshaping
import LinkedBTree.Proofs.Tree.Standing

namespace LinkedBTree

/-! Removing and overwriting entries of a leaf. The separators above follow
the last entry of the leaf, and nodes that became useless go. -/

variable {α : Type}

open Subtree

namespace Arena.Whole

variable {arena : Arena (EntryList α)} {kids : NodeId → List NodeId}
  {path : List (Frame α)} {frame : Frame α} {leaf id : NodeId}
  {payload : Option (EntryList α)} {child : Shape α}

private theorem ids_close_leaf : (frame.close (.node leaf payload [])).ids.Perm
    (leaf :: (Subtree.node frame.id (some frame.list)
      (frame.before ++ frame.after)).ids) := by
  rw [Frame.close, ids_node, ids_node, List.flatMap_append, List.flatMap_append,
    List.flatMap_cons, ids_node, List.flatMap_nil]
  exact ((List.perm_middle).cons frame.id).trans (List.Perm.swap ..)

private theorem release_leaf {before after : List NodeId}
    (forest : arena.Forest kids) (tidy : arena.Tidy)
    (held : arena.Holds kids (.node leaf payload []))
    (split : kids id = before ++ leaf :: after) :
    ∃ between final, Arena.remove id leaf arena = .ok () between ∧
      dropping (Arena.release leaf) between = .ok () final ∧
      (final.Forest fun other => if other = leaf then []
        else Function.update kids id (before ++ after) other) ∧
      final.Tidy ∧ final.carried? leaf = none ∧
      ∀ other, other ≠ leaf → final.carried? other = arena.carried? other := by
  obtain ⟨leafCarried, leafBelow, _⟩ := holds_node.mp held
  have isChild : leaf ∈ kids id := by simp [split]
  have different : leaf ≠ id := by
    rintro rfl
    exact forest.not_mem_self isChild
  have detached := forest.detach split
  obtain ⟨notPrevious, notNext⟩ := forest.neighbours_ne split
  have carries := fun other =>
    carried?_detach arena id leaf other notPrevious notNext
  have removed : Arena.remove id leaf arena =
      .ok () (arena.detach id leaf before.getLast? after.head?) := by
    rw [forest.run_remove, forest.remove_eq split]
    rfl
  generalize arena.detach id leaf _ _ = between at detached carries removed
  have stillTidy := stable_tidy.remove id leaf arena tidy
  rw [removed, reached_ok] at stillTidy
  have heldLeaf : between.Holds (Function.update kids id (before ++ after))
      (.node leaf payload []) := by
    refine holds_node.mpr ⟨by rw [carries, leafCarried], ?_, by simp⟩
    rw [Function.update_of_ne different, leafBelow]
  obtain ⟨node, found⟩ := heldLeaf.live (id_mem_ids _)
  have isTop : node.parent = none := by
    cases above : node.parent with
    | none => rfl
    | some parent =>
        have listed := detached.listed found above
        rw [Function.update_apply] at listed
        split at listed
        · have := forest.nodup id
          rw [split] at this
          simp only [id_node] at listed
          grind
        · exact absurd (forest.parent_unique listed isChild) ‹_›
  obtain ⟨final, released, isFinal, lookup⟩ := detached.release_eq heldLeaf found isTop
  have dropped := detached.of_released heldLeaf found isTop lookup
  have leafIds : ∀ {id}, id ∈ (Subtree.node leaf payload []).ids ↔ id = leaf := by
    simp
  simp only [leafIds] at lookup dropped
  refine ⟨between, final, removed, detached.run_dropping_release released, dropped,
    isFinal ▸ stillTidy.foldl_discard _, ?_, ?_⟩
  · rw [carried?, lookup, if_pos rfl]
    rfl
  · intro other notLeaf
    rw [← carries, carried?, lookup, if_neg notLeaf, carried?]

theorem drop (whole : arena.Whole kids
      (plug path (frame.close (.node leaf payload [])))) :
    ∃ between after others,
      Arena.remove frame.id leaf arena = .ok () between ∧
      dropping (Arena.release leaf) between = .ok () after ∧
      after.Whole others (plug path
        (.node frame.id (some frame.list) (frame.before ++ frame.after))) := by
  have nodup := whole.nodup_part
  rw [ids_close_leaf.nodup_iff, List.nodup_cons] at nodup
  obtain ⟨outside, nodup⟩ := nodup
  rw [ids_node, List.nodup_cons] at nodup
  obtain ⟨carried, below, held⟩ := holds_node.mp whole.held_part
  have split : kids frame.id = frame.before.map Subtree.id ++
      leaf :: frame.after.map Subtree.id := by simpa using below
  have different : leaf ≠ frame.id := by
    intro same
    refine outside (same ▸ ?_)
    simp
  obtain ⟨between, after, removed, released, dropped, tidy, gone, remains⟩ :=
    release_leaf whole.forest whole.tidy
      (held (.node leaf payload []) (by simp)) split
  refine ⟨between, after, _, removed, released,
    whole.exchange dropped tidy ?_ rfl ?_ ?_ ?_⟩
  · refine holds_node.mpr ⟨by rw [remains _ different.symm, carried], ?_, ?_⟩
    · simp [different.symm]
    · intro child member
      have inside : ∀ id ∈ child.ids, id ≠ leaf ∧ id ≠ frame.id := by
        intro id isBelow
        have listed : id ∈ (frame.before ++ frame.after).flatMap Subtree.ids :=
          List.mem_flatMap.mpr ⟨child, member, isBelow⟩
        constructor
        · rintro rfl
          exact outside (by rw [ids_node]; exact List.mem_cons_of_mem _ listed)
        · rintro rfl
          exact nodup.1 listed
      apply (held child (by grind)).frame
      intro id isBelow payload known
      obtain ⟨notLeaf, notParent⟩ := inside id isBelow
      rw [remains id notLeaf]
      exact ⟨known, by simp [notLeaf, notParent]⟩
  · intro id
    simp only [Function.update_apply]
    split
    · exact List.not_mem_nil
    · split
      · intro member
        apply whole.root_not_mem frame.id
        rw [split]
        grind
      · exact whole.root_not_mem id
  · intro id payload known notPart
    rw [ids_close_leaf.mem_iff, List.mem_cons, not_or, ids_node, List.mem_cons,
      not_or] at notPart
    rw [remains id notPart.1]
    exact ⟨known, by simp [notPart.1, notPart.2.1]⟩
  · intro id payload known notNew
    have notLeaf : id ≠ leaf := by
      rintro rfl
      cases gone.symm.trans known
    rw [remains id notLeaf] at known
    rw [ids_close_leaf.mem_iff, List.mem_cons, not_or]
    exact ⟨⟨payload, known⟩, notLeaf, notNew⟩

private theorem carried?_collapsed {after : Arena (EntryList α)}
    {only : NodeId} {grandchildren : List NodeId}
    {payload : Option (EntryList α)}
    (lookup : ∀ other, after.node? other =
      if other = only then none
      else (arena.node? other).map (merged id grandchildren payload other)) :
    after.carried? only = none ∧
      (id ≠ only → after.carried? id = (arena.carried? id).map fun _ => payload) ∧
      ∀ other, other ≠ only → other ≠ id →
        after.carried? other = arena.carried? other := by
  have each : ∀ other, after.carried? other =
      if other = only then none
      else (arena.carried? other).map fun old =>
        if other = id then payload else old := by
    intro other
    rw [carried?, lookup, carried?]
    split
    · rfl
    · rw [Option.map_map, Option.map_map]
      congr 1
      funext node
      simp only [Function.comp_apply, merged]
      split
      · rfl
      · split <;> rfl
  refine ⟨by simp [each], fun different => by simp [each, different], ?_⟩
  intro other notOnly notId
  simp [each, notOnly, notId]

theorem collapse (whole : arena.Whole kids (plug path (.node id payload [child]))) :
    ∃ old after others, Arena.collapse id arena = .ok old after ∧
      after.Whole others
        (plug path (.node id child.payload child.children)) := by
  obtain ⟨childId, childPayload, grandchildren⟩ := child
  have nodup := whole.nodup_part
  rw [ids_node, List.nodup_cons, List.flatMap_singleton, ids_node] at nodup
  obtain ⟨outside, nodup⟩ := nodup
  rw [List.mem_cons, not_or] at outside
  rw [List.nodup_cons] at nodup
  obtain ⟨carried, below, held⟩ := holds_node.mp whole.held_part
  obtain ⟨childCarried, childBelow, heldBelow⟩ :=
    holds_node.mp (held _ (List.mem_singleton_self _))
  obtain ⟨node, found, _⟩ := carried?_eq_some.mp carried
  obtain ⟨childNode, childFound, rfl⟩ := carried?_eq_some.mp childCarried
  have only : kids id = [childId] := below
  obtain ⟨after, collapsed, _, lookup⟩ :=
    whole.forest.collapse_eq found childFound only
  have forest := whole.forest.of_merged only lookup
  obtain ⟨gone, moved, stays⟩ := carried?_collapsed lookup
  have collapses : Arena.collapse id arena = .ok node.payload after := by
    rw [whole.forest.run_collapse, collapsed]
    rfl
  have tidy := stable_tidy.collapse id arena whole.tidy
  rw [collapses, reached_ok] at tidy
  refine ⟨node.payload, after, _, collapses,
    whole.exchange forest tidy ?_ rfl ?_ ?_ ?_⟩
  · refine holds_node.mpr ⟨?_, ?_, fun grandchild member => ?_⟩
    · rw [moved outside.1, carried]
      rfl
    · rw [if_pos rfl]
      exact childBelow
    · apply (heldBelow grandchild member).frame
      intro other isBelow _ known
      have listed : other ∈ grandchildren.flatMap Subtree.ids :=
        List.mem_flatMap.mpr ⟨grandchild, member, isBelow⟩
      have notId : other ≠ id := by
        rintro rfl
        exact outside.2 listed
      have notChild : other ≠ childId := by
        rintro rfl
        exact nodup.1 listed
      rw [stays other notChild notId, if_neg notId, if_neg notChild]
      exact ⟨known, rfl⟩
  · intro other
    split
    · exact whole.root_not_mem childId
    · split
      · exact List.not_mem_nil
      · exact whole.root_not_mem other
  · intro other _ known notPart
    rw [ids_node, List.flatMap_singleton, ids_node, List.mem_cons, List.mem_cons,
      not_or, not_or] at notPart
    rw [stays other notPart.2.1 notPart.1, if_neg notPart.1,
      if_neg notPart.2.1]
    exact ⟨known, rfl⟩
  · intro other _ known notNew
    have notChild : other ≠ childId := by
      rintro rfl
      cases gone.symm.trans known
    rw [ids_node, List.mem_cons, not_or] at notNew
    rw [stays other notChild notNew.1] at known
    rw [ids_node, List.flatMap_singleton, ids_node, List.mem_cons, List.mem_cons,
      not_or, not_or]
    exact ⟨⟨_, known⟩, notNew.1, notChild, notNew.2⟩

end Arena.Whole

namespace Edit

variable {tree : Tree α} {path : List (Frame α)} {frame : Frame α}
  {leaf : NodeId} {payload : Option (EntryList α)} {list : EntryList α}

private theorem idxOf?_child {arena : Arena (EntryList α)} {kids : NodeId → List NodeId}
    {before after : List NodeId} {id child : NodeId} (forest : arena.Forest kids)
    (split : kids id = before ++ child :: after) :
    (kids id).idxOf? child = some before.length := by
  have nodup := forest.nodup id
  rw [split] at nodup ⊢
  rw [List.idxOf?, List.findIdx?_append, List.findIdx?_eq_none_iff.mpr]
  · simp [List.findIdx?_cons]
  · intro other member
    have := (List.nodup_append.mp nodup).2.2 other member child (by simp)
    simpa using this

private theorem eraseIdx_bounding
    (length : frame.list.length = frame.before.length + frame.after.length)
    (enough : frame.before ≠ [] ∨ frame.after ≠ []) :
    ∃ separator, frame.list.eraseIdx (if frame.after = [] then frame.before.length - 1
        else frame.before.length) = .ok (separator, frame.remaining) ∧
      (if frame.after = [] then some separator else none) = frame.newLast := by
  have length : frame.list.entries.length = _ := length
  have bound : (if frame.after = [] then frame.before.length - 1
      else frame.before.length) < frame.list.entries.length := by
    have := List.length_pos_iff (l := frame.before)
    have := List.length_pos_iff (l := frame.after)
    grind
  obtain ⟨separator, isSeparator⟩ : ∃ separator, frame.list.entries[
      if frame.after = [] then frame.before.length - 1
        else frame.before.length]? = some separator :=
    ⟨_, List.getElem?_eq_getElem bound⟩
  refine ⟨separator, ?_, ?_⟩
  · unfold EntryList.eraseIdx
    rw [bind_of_ok ((EntryList.get_eq_ok_iff ..).mpr isSeparator)]
    rfl
  · rw [Frame.newLast]
    split
    · rename_i none
      rw [if_pos none] at isSeparator
      rw [← isSeparator, List.getLast?_eq_getElem?, length, none]
      rfl
    · rfl

private theorem setting_of_dropped {arena between after : Arena (EntryList α)} {id : NodeId}
    (removed : Arena.remove id leaf arena = .ok () between)
    (released : Arena.dropping (Arena.release leaf) between = .ok () after) :
    after.setting = arena.setting := by
  have stable := Arena.stable_setting arena
  have first := stable.remove id leaf arena rfl
  rw [removed, reached_ok] at first
  have dropping : Maintains (fun after : Arena _ => after.setting = arena.setting)
      (Arena.dropping (Arena.release leaf)) :=
    Arena.Stable.dropping (stable.release leaf)
  have second := dropping between first
  rwa [released] at second

theorem dropLeaf_makes
    (embodies : tree.Embodies (plug (frame :: path) (.node leaf payload [])))
    (length : frame.list.length = frame.before.length + frame.after.length)
    (enough : frame.before ≠ [] ∨ frame.after ≠ []) :
    Makes (dropLeaf leaf) tree (frame.id, frame.newLast) (plug path
      (.node frame.id (some frame.remaining) (frame.before ++ frame.after))) := by
  have closed : tree.Embodies (plug path (frame.close (.node leaf payload []))) :=
    embodies
  have isList : tree.list frame.id = .ok frame.list := closed.list_eq
  obtain ⟨kids, whole⟩ := embodies.2
  obtain ⟨node, found, _, _, isParent⟩ := whole.node_of_part
  have siblings : kids frame.id = frame.before.map Subtree.id ++
      leaf :: frame.after.map Subtree.id :=
    (whole.held _ (mem_twigs_plug.mpr (.inr mem_around_head))).2
  have isChild : leaf ∈ kids frame.id := by simp [siblings]
  obtain ⟨branch, branchFound⟩ := whole.forest.parent_live isChild
  have isRead : tree.arena.read leaf = .ok node :=
    Arena.read_eq found
  have isSiblings := whole.forest.children_eq branchFound
  have isPosition := idxOf?_child whole.forest siblings
  rw [List.length_map] at isPosition
  have isLast : frame.before.length + 1 = (kids frame.id).length ↔
      frame.after = [] := by
    rw [siblings, ← List.length_eq_zero_iff]
    simp only [List.length_append, List.length_cons, List.length_map]
    omega
  obtain ⟨separator, isErased, isNewLast⟩ := eraseIdx_bounding length enough
  have several : ¬(frame.after = [] ∧ frame.before.length = 0) := by
    rintro ⟨none, few⟩
    exact enough.elim (fun some => some (List.length_eq_zero_iff.mp few))
      fun some => some none
  unfold dropLeaf
  apply Makes.get_bind
  apply Makes.lift_bind isRead
  simp only [isParent, List.head?_cons, Option.map_some]
  apply Makes.lift_bind isSiblings
  simp only [isPosition]
  apply Makes.lift_bind isList
  simp only [isLast]
  rw [if_neg several]
  apply Makes.lift_bind isErased
  apply (Makes.putList closed frame.remaining).bind
  intro arena embodied
  obtain ⟨kids, whole⟩ := embodied.2
  have renewed : arena.Whole kids (plug path
      (({ frame with list := frame.remaining } : Frame α).close
        (.node leaf payload []))) := whole
  obtain ⟨between, after, others, removed, released, dropped⟩ := renewed.drop
  refine ⟨after, ?_, setting_of_dropped removed released, embodied.exchange rfl dropped⟩
  rw [run_bind_of_ok (inArena_eq removed), run_bind_of_ok (inArena_eq released),
    ← isNewLast]
  rfl

private theorem collapseSingle_makes {id : NodeId} {children : List (Shape α)}
    (embodies : tree.Embodies (plug path (.node id (some list) children))) :
    Makes (do
      if (← (← get).arena.read id).childCount = 1 then
        let _ ← within s!"unable to collapse {id}"
          (inArena (Arena.collapse id)) : Edit α Unit) tree ()
      (plug path (joined id list children)) := by
  obtain ⟨kids, whole⟩ := embodies.2
  obtain ⟨node, found, _, below, _⟩ := whole.node_of_part
  have isRead : tree.arena.read id = .ok node :=
    Arena.read_eq found
  have counted : node.childCount = children.length := by
    rw [whole.forest.childCount found]
    exact (congrArg List.length below).trans (List.length_map _)
  apply Makes.get_bind
  apply Makes.lift_bind isRead
  rw [counted]
  match children with
  | [child] =>
      obtain ⟨old, after, others, collapsed, merged⟩ := whole.collapse
      have same : (joined id list [child]).id =
          (Subtree.node id (some list) [child]).id := rfl
      have kept := (Arena.stable_setting tree.arena).collapse id tree.arena rfl
      rw [collapsed] at kept
      rw [if_pos List.length_singleton]
      apply (Makes.within _ (Makes.inArena embodies collapsed kept same merged)).bind
      exact fun _ embodied => .pure embodied
  | [] => exact .pure embodies
  | first :: second :: rest =>
      rw [if_neg (by simp)]
      exact .pure embodies

private theorem renewDropped_makes {index : Nat} {separator : Entry α}
    (embodies : tree.Embodies (plug path (.node frame.id (some frame.remaining)
      (frame.before ++ frame.after))))
    (some : frame.before ≠ []) (isLast : frame.after = []) :
    Makes (renewSeparators (.some frame.id) index separator) tree ()
      (plug (path.map (Frame.renew index separator))
        (.node frame.id (.some (frame.rest index (.some separator)).list)
          (frame.before ++ frame.after))) := by
  have reopened : ∀ list, Frame.close
      ⟨frame.id, list, frame.before.dropLast, []⟩ (frame.before.getLast some) =
      .node frame.id (.some list) (frame.before ++ frame.after) := by
    intro list
    rw [Frame.close, List.dropLast_concat_getLast some, isLast, List.append_nil]
  have renewed : Frame.renew index separator
      ⟨frame.id, frame.remaining, frame.before.dropLast, []⟩ =
      ⟨frame.id, (frame.rest index (.some separator)).list,
        frame.before.dropLast, []⟩ := by
    unfold Frame.rest Frame.refresh Frame.renew
    simp only [Option.elim_some]
    split <;> rfl
  rw [← reopened] at embodies ⊢
  rw [← renewed]
  have opened : tree.Embodies (plug
      (⟨frame.id, frame.remaining, frame.before.dropLast, []⟩ :: path)
      (frame.before.getLast some)) := embodies
  exact renewSeparators_makes opened index separator

theorem settleEmptied_makes
    (embodies : tree.Embodies (plug (frame :: path) (.node leaf payload [])))
    (length : frame.list.length = frame.before.length + frame.after.length)
    (enough : frame.before ≠ [] ∨ frame.after ≠ []) (index : Nat) :
    Makes (settleEmptied leaf index) tree () (dropped index frame path) := by
  apply (Makes.within _ (dropLeaf_makes embodies length enough)).bind
  intro arena embodied
  unfold dropped
  cases isNew : frame.newLast with
  | none =>
      rw [Frame.map_refresh_none]
      exact collapseSingle_makes embodied
  | some separator =>
      have isLast : frame.after = [] := by
        apply Classical.byContradiction
        intro inner
        rw [Frame.newLast, if_neg inner] at isNew
        cases isNew
      apply (Makes.within _ (renewDropped_makes embodied
        (enough.resolve_right (absurd isLast)) isLast)).bind
      exact fun _ embodied => collapseSingle_makes embodied

private theorem settleShortened_makes
    (embodies : tree.Embodies (plug path (.node leaf payload []))) (index : Nat)
    (entry : Entry α) :
    Makes (settleShortened leaf index entry) tree ()
      (plug (path.map (Frame.renew index entry)) (.node leaf payload [])) := by
  obtain ⟨node, isRead, renews⟩ :=
    renewAbove_makes embodies "unable to update separators after remove" index entry
  apply Makes.get_bind
  exact Makes.lift_bind isRead renews

private theorem settle_makes {front back : List (Entry α)} {entry : Entry α}
    {β : Type} {result : β}
    (embodies : tree.Embodies (plug path (.node leaf (some ⟨front ++ back⟩) [])))
    (formed : Formed (plug path (.node leaf (some list) []))) :
    Makes (do
      if (⟨front ++ back⟩ : EntryList α).isEmpty ∧ leaf ≠ tree.root then
        settleEmptied leaf entry.index
      else if front.length = (⟨front ++ back⟩ : EntryList α).length then
        if let some last := (⟨front ++ back⟩ : EntryList α).last? then
          settleShortened leaf entry.index last
      pure result : Edit α β) tree result
      (erased path leaf front entry back) := by
  have isRoot : leaf = tree.root ↔ path = [] := by
    obtain ⟨isTop, kids, whole⟩ := embodies
    cases path with
    | nil => exact ⟨fun _ => rfl, fun _ => isTop⟩
    | cons frame outer =>
        refine ⟨?_, nofun⟩
        rintro rfl
        exfalso
        apply whole.root_not_mem frame.id
        rw [isTop, (whole.held _ (mem_twigs_plug.mpr (.inr mem_around_head))).2]
        simp
  have stop : ∀ {shape}, Makes (pure () : Edit α Unit) tree () shape →
      Makes (pure () >>= fun _ => pure result : Edit α β) tree result shape :=
    fun makes => makes.bind fun _ embodied => .pure embodied
  by_cases emptied : front ++ back = [] ∧ path ≠ []
  · obtain ⟨none, inner⟩ := emptied
    obtain ⟨rfl, rfl⟩ := List.append_eq_nil_iff.mp none
    obtain ⟨frame, outer, rfl⟩ := List.exists_cons_of_ne_nil inner
    have whole : Formed (frame.close (.node leaf (some list) [])) :=
      Formed.of_plug formed
    obtain ⟨enough, _, _, _, length⟩ := Formed.close_iff.mp whole
    rw [if_pos ⟨rfl, isRoot.not.mpr inner⟩]
    exact (settleEmptied_makes embodies length enough entry.index).bind
      fun _ embodied => .pure embodied
  · rw [erased_shortened (by grind), if_neg (by
      simpa [EntryList.isEmpty, isRoot] using emptied)]
    by_cases atEnd : back = []
    · have length : front.length = (⟨front ++ back⟩ : EntryList α).length := by
        simp [atEnd, EntryList.length]
      have isLast : (⟨front ++ back⟩ : EntryList α).last? = front.getLast? := by
        simp [atEnd, EntryList.last?]
      rw [if_pos length, if_pos atEnd, isLast]
      cases front.getLast? with
      | none =>
          rw [Frame.map_refresh_none]
          exact stop (.pure embodies)
      | some last =>
          exact (settleShortened_makes embodies entry.index last).bind
            fun _ embodied => .pure embodied
    · rw [if_neg (by simpa [EntryList.length] using atEnd), if_neg atEnd,
        Frame.map_refresh_none]
      exact stop (.pure embodies)

theorem erase_makes {front back : List (Entry α)} {entry : Entry α}
    (upright : tree.Upright (plug path (.node leaf (some list) [])))
    (split : list.entries = front ++ entry :: back) :
    ∃ arena, erase leaf front.length tree =
        .ok entry.value { tree with
          arena
          values := tree.values.put entry.index none } ∧
      arena.setting = tree.arena.setting ∧
      ({ tree with
          arena
          values := tree.values.put entry.index none } :
        Tree α).Embodies (erased path leaf front entry back) := by
  have formed := upright.formed_of_filled (by simp [split])
  have known : tree.values.value? entry.index = some entry.value := by
    apply upright.mirrors.stored
    simp [entries_plug, split]
  have stored : putValue entry.index none (tree.setList leaf ⟨front ++ back⟩) =
      .ok (some entry.value) { tree.setList leaf ⟨front ++ back⟩ with
        values := tree.values.put entry.index none } :=
    @putValue_eq _ (tree.setList leaf _) _ _ known none
  have shortened : ({ tree.setList leaf ⟨front ++ back⟩ with
      values := tree.values.put entry.index none } :
      Tree α).Embodies (plug path (.node leaf (some ⟨front ++ back⟩) [])) :=
    upright.embodies.setList ⟨front ++ back⟩
  obtain ⟨arena, settled, kept, embodied⟩ :=
    @settle_makes _ _ _ _ _ _ _ entry _ entry.value shortened formed
  refine ⟨arena, ?_, kept, embodied⟩
  unfold erase
  rw [run_get_bind, run_lift_bind upright.embodies.list_eq,
    run_lift_bind (EntryList.eraseIdx_eq split)]
  simp only
  rw [run_bind_of_ok (putList_eq ..), run_bind_of_ok stored]
  simp only [Option.isNone_some, Bool.false_eq_true, if_false]
  exact settled

end Edit

end LinkedBTree
