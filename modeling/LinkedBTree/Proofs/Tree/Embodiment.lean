import LinkedBTree.Tree.Edit
import LinkedBTree.Proofs.Arena.Accounting
import LinkedBTree.Proofs.Tree.Context

namespace LinkedBTree

/-! When the arena of a tree holds one shape and nothing else, and how that
follows an edit of one part. -/

variable {α : Type}

namespace Subtree

theorem id_plug {path : List (Frame α)} {part other : Shape α}
    (same : other.id = part.id) : (plug path other).id = (plug path part).id := by
  induction path generalizing part other with
  | nil => exact same
  | cons frame path induction =>
      have closed : (frame.close other).id = (frame.close part).id := rfl
      exact induction closed

def around : List (Frame α) → (hole : NodeId) → List (Twig (EntryList α))
  | [], _ => []
  | frame :: path, hole =>
      ⟨frame.id, some frame.list,
        frame.before.map Subtree.id ++ hole :: frame.after.map Subtree.id⟩ ::
        (frame.before.flatMap twigs ++ frame.after.flatMap twigs ++
          around path frame.id)

theorem perm_twigs_plug (path : List (Frame α)) (part : Shape α) :
    (plug path part).twigs.Perm (part.twigs ++ around path part.id) := by
  induction path generalizing part with
  | nil => simp [plug, around]
  | cons frame path induction =>
      apply (induction (frame.close part)).trans
      rw [Frame.close, twigs_node, id_node, around]
      simp only [List.map_append, List.map_cons, List.flatMap_append,
        List.flatMap_cons, List.cons_append, List.append_assoc]
      refine List.Perm.trans ?_ List.perm_middle.symm
      apply List.Perm.cons _
      exact (List.perm_append_comm_assoc ..)

theorem mem_twigs_plug {path : List (Frame α)} {part : Shape α}
    {twig : Twig (EntryList α)} : twig ∈ (plug path part).twigs ↔
      twig ∈ part.twigs ∨ twig ∈ around path part.id := by
  rw [(perm_twigs_plug path part).mem_iff, List.mem_append]

theorem mem_ids_plug {path : List (Frame α)} {part : Shape α} {id : NodeId} :
    id ∈ (plug path part).ids ↔
      id ∈ part.ids ∨ id ∈ (around path part.id).map Twig.id := by
  unfold ids
  rw [((perm_twigs_plug path part).map Twig.id).mem_iff, List.map_append,
    List.mem_append]

theorem disjoint_around {path : List (Frame α)} {part : Shape α}
    (nodup : (plug path part).ids.Nodup) {twig : Twig (EntryList α)}
    (member : twig ∈ around path part.id) : twig.id ∉ part.ids := by
  unfold ids at nodup
  rw [((perm_twigs_plug path part).map Twig.id).nodup_iff, List.map_append,
    List.nodup_append] at nodup
  intro inside
  exact nodup.2.2 _ inside _ (List.mem_map_of_mem member) rfl

theorem mem_around_head {frame : Frame α} {path : List (Frame α)}
    {hole : NodeId} :
    ⟨frame.id, some frame.list,
      frame.before.map Subtree.id ++ hole :: frame.after.map Subtree.id⟩ ∈
      around (frame :: path) hole :=
  List.mem_cons_self

end Subtree

open Subtree

namespace Arena

variable {P : Type}

/-- The arena holds `shape`, unlinked, and nothing else. -/
structure Whole (arena : Arena P) (kids : NodeId → List NodeId)
    (shape : Subtree P) : Prop where
  forest : arena.Forest kids
  held : arena.Holds kids shape
  top : ∀ node, arena.node? shape.id = some node → node.parent = none
  covered : ∀ id node, arena.node? id = some node → id ∈ shape.ids
  tidy : arena.Tidy

namespace Whole

variable {arena after : Arena (EntryList α)} {kids others : NodeId → List NodeId}
  {path : List (Frame α)} {part other : Shape α}

theorem nodup (whole : arena.Whole kids (plug path part)) :
    (plug path part).ids.Nodup :=
  whole.forest.nodup_ids whole.held

theorem node_of_part (whole : arena.Whole kids (plug path part)) :
    ∃ node, arena.node? part.id = some node ∧ node.payload = part.payload ∧
      kids part.id = part.children.map Subtree.id ∧
      node.parent = path.head?.map Frame.id := by
  have isTwig : ⟨part.id, part.payload, part.children.map Subtree.id⟩ ∈
      (plug path part).twigs := by
    rw [mem_twigs_plug]
    left
    cases part
    rw [twigs_node]
    exact List.mem_cons_self
  obtain ⟨carried, below⟩ := whole.held _ isTwig
  obtain ⟨node, found, carried⟩ := carried?_eq_some.mp carried
  refine ⟨node, found, carried, below, ?_⟩
  cases path with
  | nil => exact whole.top node found
  | cons frame path =>
      have listed := (whole.held _ (mem_twigs_plug.mpr (.inr mem_around_head))).2
      have isChild : part.id ∈ kids frame.id := by simp [listed]
      rw [List.head?_cons, Option.map_some]
      exact (whole.forest.mem_iff found).mp isChild

theorem lineage (whole : arena.Whole kids (plug path part)) :
    arena.Lineage part.id (path.map Frame.id) := by
  induction path generalizing part with
  | nil =>
      obtain ⟨node, found, _, _, parent⟩ := whole.node_of_part
      exact .top found parent
  | cons frame path induction =>
      obtain ⟨node, found, _, _, parent⟩ := whole.node_of_part
      have outer : arena.Whole kids (plug path (frame.close part)) := whole
      exact .under found parent (induction outer)

theorem congr {shape : Shape α} (whole : arena.Whole kids shape)
    (same : ∀ id, after.node? id = arena.node? id) (tidy : after.Tidy) :
    after.Whole kids shape where
  forest := whole.forest.congr same
  held := by
    intro twig isTwig
    unfold carried?
    rw [same]
    exact whole.held twig isTwig
  top := fun node found => whole.top node (same _ ▸ found)
  covered := fun id node found => whole.covered id node (same _ ▸ found)
  tidy := tidy

theorem agree {shape final : Shape α}
    {change : Option (EntryList α) → Option (EntryList α)}
    (whole : arena.Whole kids shape) (again : after.Whole others final) {id : NodeId}
    (kept : ∀ twig ∈ shape.twigs, twig.id = id →
      { twig with payload := change twig.payload } ∈ final.twigs)
    (came : id ∈ final.ids → id ∈ shape.ids) :
    after.carried? id = (arena.carried? id).map change ∧ others id = kids id := by
  cases found : arena.node? id with
  | none =>
      have dead : after.node? id = none := by
        cases isFound : after.node? id with
        | none => rfl
        | some other =>
            obtain ⟨_, isLive⟩ := whole.held.live (came (again.covered id other isFound))
            cases found.symm.trans isLive
      rw [carried?, carried?, found, dead, whole.forest.none_of_dead found,
        again.forest.none_of_dead dead]
      exact ⟨rfl, rfl⟩
  | some node =>
      obtain ⟨twig, isTwig, rfl⟩ := List.mem_map.mp (whole.covered id node found)
      obtain ⟨carried, below⟩ := whole.held twig isTwig
      obtain ⟨changed, same⟩ := again.held _ (kept twig isTwig rfl)
      rw [carried, below, same]
      exact ⟨changed, rfl⟩

theorem node?_map {shape final : Shape α}
    {change : NodeId → Option (EntryList α) → Option (EntryList α)}
    (whole : arena.Whole kids shape) (again : after.Whole others final)
    (kept : ∀ twig ∈ shape.twigs,
      { twig with payload := change twig.id twig.payload } ∈ final.twigs)
    (came : ∀ id ∈ final.ids, id ∈ shape.ids) (id : NodeId) :
    after.node? id = (arena.node? id).map fun node =>
      { node with payload := change id node.payload } := by
  have agree : ∀ id, after.carried? id = (arena.carried? id).map (change id) ∧
      others id = kids id := fun id =>
    whole.agree again (fun twig isTwig isId => isId ▸ kept twig isTwig) (came id)
  exact node?_eq_map (agree id).1 fun _ _ known found =>
    whole.forest.links_eq again.forest known found (agree id).2 fun parent _ =>
      (agree parent).2

theorem node?_eq {shape : Shape α} (whole : arena.Whole kids shape)
    (again : after.Whole others shape) (id : NodeId) :
    after.node? id = arena.node? id := by
  rw [@node?_map _ _ _ _ _ _ _ (fun _ payload => payload) whole again
    (fun _ isTwig => isTwig) fun _ member => member]
  exact Option.map_id'

theorem contains_iff_mem {shape : Shape α} (whole : arena.Whole kids shape)
    (id : NodeId) : arena.contains id = true ↔ id ∈ shape.ids := by
  constructor
  · intro isLive
    obtain ⟨node, found⟩ := contains_iff.mp isLive
    exact whole.covered id node found
  · intro member
    exact contains_iff.mpr (whole.held.live member)

theorem liveCount_eq {shape : Shape α} (whole : arena.Whole kids shape) :
    arena.liveCount = shape.ids.length :=
  whole.tidy.liveCount_eq (whole.forest.nodup_ids whole.held) whole.contains_iff_mem

theorem held_part (whole : arena.Whole kids (plug path part)) :
    arena.Holds kids part := by
  intro twig isTwig
  exact whole.held twig (mem_twigs_plug.mpr (.inl isTwig))

theorem root_not_mem (whole : arena.Whole kids part) (id : NodeId) :
    part.id ∉ kids id := by
  intro member
  obtain ⟨node, found, parent⟩ := whole.forest.of_mem member
  cases (whole.top node found).symm.trans parent

/-- One part may be exchanged if nothing around it changes. -/
theorem exchange (whole : arena.Whole kids (plug path part))
    (forest : after.Forest others) (tidy : after.Tidy)
    (held : after.Holds others other) (same : other.id = part.id)
    (top : ∀ id, (plug path part).id ∉ others id)
    (kept : ∀ id payload, arena.carried? id = some payload → id ∉ part.ids →
      after.carried? id = some payload ∧ others id = kids id)
    (came : ∀ id payload, after.carried? id = some payload → id ∉ other.ids →
      (∃ old, arena.carried? id = some old) ∧ id ∉ part.ids) :
    after.Whole others (plug path other) where
  forest := forest
  tidy := tidy
  held := by
    intro twig member
    rcases mem_twigs_plug.mp member with inside | outside
    · exact held twig inside
    · rw [same] at outside
      obtain ⟨carried, below⟩ :=
        whole.held twig (mem_twigs_plug.mpr (.inr outside))
      obtain ⟨carried, unchanged⟩ :=
        kept twig.id _ carried (disjoint_around whole.nodup outside)
      exact ⟨carried, unchanged.trans below⟩
  top := by
    intro node found
    rw [id_plug same] at found
    cases parent : node.parent with
    | none => rfl
    | some id => exact absurd (forest.listed found parent) (top id)
  covered := by
    intro id node found
    rw [mem_ids_plug, same]
    by_cases inside : id ∈ other.ids
    · exact .inl inside
    · obtain ⟨⟨_, carried⟩, outside⟩ :=
        came id _ (carried?_of_node? found) inside
      obtain ⟨old, known, _⟩ := carried?_eq_some.mp carried
      have := whole.covered id old known
      rw [mem_ids_plug] at this
      exact .inr (this.resolve_left outside)

theorem nodup_part (whole : arena.Whole kids (plug path part)) :
    part.ids.Nodup := by
  have nodup := whole.nodup
  unfold ids at nodup ⊢
  rw [((perm_twigs_plug path part).map Twig.id).nodup_iff, List.map_append,
    List.nodup_append] at nodup
  exact nodup.1

theorem modify_payload {id : NodeId} {payload : Option (EntryList α)}
    {children : List (Shape α)} {list : EntryList α}
    (whole : arena.Whole kids (plug path (.node id payload children))) :
    (arena.modify id ({ · with payload := some list })).Whole kids
      (plug path (.node id (some list) children)) := by
  have nodup := whole.nodup_part
  rw [ids_node, List.nodup_cons] at nodup
  obtain ⟨carried, below, held⟩ := holds_node.mp whole.held_part
  refine whole.exchange (whole.forest.modify_payload id fun _ => some list)
    (whole.tidy.modify id _) ?_ rfl whole.root_not_mem ?_ ?_
  · refine holds_node.mpr ⟨?_, below, fun child member => ?_⟩
    · rw [carried?_modify, carried]
      simp
    · apply (held child member).frame
      intro other inside payload carried
      have different : other ≠ id := by
        rintro rfl
        exact nodup.1 (List.mem_flatMap.mpr ⟨child, member, inside⟩)
      rw [carried?_modify, carried]
      simp [different]
  · intro other payload carried outside
    have different : other ≠ id := by
      rintro rfl
      exact outside (id_mem_ids (.node other _ children))
    rw [carried?_modify, carried]
    simp [different]
  · intro other payload carried outside
    rw [carried?_modify] at carried
    obtain ⟨old, known, _⟩ := Option.map_eq_some_iff.mp carried
    rw [ids_node] at outside ⊢
    exact ⟨⟨old, known⟩, outside⟩

theorem length_lt_visits (whole : arena.Whole kids (plug path part)) :
    path.length < arena.visits := by
  have length : ∀ (path : List (Frame α)) (hole : NodeId),
      path.length ≤ (around path hole).length := by
    intro path
    induction path with
    | nil => exact fun _ => Nat.zero_le _
    | cons frame path induction =>
        intro hole
        have := induction frame.id
        simp only [around, List.length_cons, List.length_append]
        omega
  have total := (perm_twigs_plug path part).length_eq
  have bound := whole.forest.length_ids_le whole.held
  have := length path part.id
  simp only [ids, List.length_map, total, List.length_append] at bound
  unfold visits
  omega

end Whole

end Arena

namespace EntryList

variable {list : EntryList α}

theorem insertIdx_eq {front back : List (Entry α)}
    (split : list.entries = front ++ back) (entry : Entry α) :
    list.insertIdx front.length entry = .ok ⟨front ++ entry :: back⟩ := by
  have inserted : ∀ front : List (Entry α),
      (front ++ back).insertIdx front.length entry =
        front ++ entry :: back := by
    intro front
    induction front with
    | nil => rfl
    | cons first rest induction =>
        rw [List.cons_append, List.length_cons, List.insertIdx_succ_cons,
          induction, List.cons_append]
  unfold EntryList.insertIdx EntryList.length
  rw [split, inserted, if_pos (by simp)]
  rfl

theorem eraseIdx_eq {front back : List (Entry α)} {entry : Entry α}
    (split : list.entries = front ++ entry :: back) :
    list.eraseIdx front.length = .ok (entry, ⟨front ++ back⟩) := by
  have isEntry : list.entries[front.length]? = some entry := by simp [split]
  unfold EntryList.eraseIdx
  rw [bind_of_ok ((EntryList.get_eq_ok_iff ..).mpr isEntry), split,
    List.eraseIdx_append_of_length_le (Nat.le_refl _)]
  simp
  rfl

end EntryList

namespace Tree

/-- The tree is stored as `shape`. -/
def Embodies (tree : Tree α) (shape : Shape α) : Prop :=
  shape.id = tree.root ∧ ∃ kids, tree.arena.Whole kids shape

theorem listOf_eq {id : NodeId} {node : Node (EntryList α)}
    {list : EntryList α} (carried : node.payload = some list) :
    listOf id node = .ok list := by
  unfold listOf
  rw [carried]
  rfl

theorem list_eq_ok {tree : Tree α} {id : NodeId} {list : EntryList α} :
    tree.list id = .ok list ↔ tree.arena.carried? id = some (some list) := by
  constructor
  · intro isList
    obtain ⟨node, found, isList⟩ := bind_eq_ok.mp isList
    rw [Arena.carried?_of_node? ((Arena.read_eq_ok_iff ..).mp found)]
    cases payload : node.payload with
    | none =>
        rw [listOf, payload] at isList
        cases isList
    | some other =>
        rw [listOf_eq payload] at isList
        rw [Except.ok.inj isList]
  · intro carried
    obtain ⟨node, found, carried⟩ := Arena.carried?_eq_some.mp carried
    exact (bind_of_ok (Arena.read_eq found)).trans (listOf_eq carried)

theorem Embodies.list_eq {tree : Tree α} {path : List (Frame α)} {id : NodeId}
    {list : EntryList α} {children : List (Shape α)}
    (embodies : tree.Embodies (plug path (.node id (some list) children))) :
    tree.list id = .ok list := by
  obtain ⟨_, kids, whole⟩ := embodies
  exact list_eq_ok.mpr (Arena.holds_node.mp whole.held_part).1

theorem Embodies.children_eq {tree : Tree α} {path : List (Frame α)} {part : Shape α}
    (embodies : tree.Embodies (plug path part)) :
    tree.arena.children part.id = .ok (part.children.map Subtree.id) := by
  obtain ⟨_, kids, whole⟩ := embodies
  obtain ⟨node, found, _, below, _⟩ := whole.node_of_part
  rw [whole.forest.children_eq found, below]

theorem Embodies.unique {tree : Tree α} {shape other : Shape α}
    (embodies : tree.Embodies shape) (again : tree.Embodies other) :
    shape = other := by
  obtain ⟨isRoot, kids, whole⟩ := embodies
  obtain ⟨alsoRoot, others, alsoWhole⟩ := again
  obtain rfl := whole.forest.unique alsoWhole.forest
  exact whole.held.unique alsoWhole.held (isRoot.trans alsoRoot.symm)

theorem Embodies.exchange {tree : Tree α} {path : List (Frame α)}
    {part other : Shape α} {arena : Arena (EntryList α)}
    {kids : NodeId → List NodeId} (embodies : tree.Embodies (plug path part))
    (same : other.id = part.id) (whole : arena.Whole kids (plug path other)) :
    ({ tree with arena } : Tree α).Embodies (plug path other) :=
  ⟨(id_plug same).trans embodies.1, kids, whole⟩

theorem Embodies.setList {tree : Tree α} {path : List (Frame α)} {id : NodeId}
    {payload : Option (EntryList α)} {children : List (Shape α)}
    (embodies : tree.Embodies (plug path (.node id payload children)))
    (list : EntryList α) :
    (tree.setList id list).Embodies
      (plug path (.node id (some list) children)) := by
  obtain ⟨kids, whole⟩ := embodies.2
  exact embodies.exchange rfl whole.modify_payload

end Tree

namespace Edit

theorem putList_eq (tree : Tree α) (id : NodeId) (list : EntryList α) :
    putList id list tree = .ok () (tree.setList id list) := rfl

section

variable {β : Type} {tree : Tree α} {change : Arena.Action (EntryList α) β}
  {arena : Arena (EntryList α)}

theorem inArena_eq {answer : β} (done : change tree.arena = .ok answer arena) :
    inArena change tree = .ok answer { tree with arena } := by
  unfold inArena
  rw [done]

theorem inArena_error {error : Error} (failed : change tree.arena = .error error arena) :
    inArena change tree = .error error { tree with arena } := by
  unfold inArena
  rw [failed]

end

/-- The edit succeeds with this result and leaves a tree of this shape; it
changes nothing but nodes. -/
def Makes {β : Type} (edit : Edit α β) (tree : Tree α) (result : β)
    (shape : Shape α) : Prop :=
  ∃ arena, edit tree = .ok result { tree with arena } ∧
    arena.setting = tree.arena.setting ∧
    ({ tree with arena } : Tree α).Embodies shape

namespace Makes

variable {β γ : Type} {edit : Edit α β} {tree : Tree α} {result : β}
  {shape final : Shape α}

theorem pure (embodies : tree.Embodies shape) :
    Makes (Pure.pure result : Edit α β) tree result shape :=
  ⟨tree.arena, rfl, rfl, embodies⟩

theorem within (text : String) (makes : Makes edit tree result shape) :
    Makes (LinkedBTree.within text edit) tree result shape := by
  obtain ⟨arena, done, kept, embodies⟩ := makes
  exact ⟨arena, by rw [run_within, done], kept, embodies⟩

theorem bind {next : β → Edit α γ} {last : γ}
    (makes : Makes edit tree result shape)
    (rest : ∀ arena, ({ tree with arena } : Tree α).Embodies shape →
      Makes (next result) { tree with arena } last final) :
    Makes (edit >>= next) tree last final := by
  obtain ⟨between, done, kept, embodies⟩ := makes
  obtain ⟨arena, finished, stillKept, embodied⟩ := rest between embodies
  exact ⟨arena, by rw [run_bind_of_ok done, finished], stillKept.trans kept,
    embodied⟩

theorem get_bind {next : Tree α → Edit α γ} {last : γ}
    (rest : Makes (next tree) tree last final) :
    Makes (get >>= next) tree last final :=
  rest

theorem lift_bind {step : Except Error β} {next : β → Edit α γ} {last : γ}
    {known : β} (done : step = .ok known)
    (rest : Makes (next known) tree last final) :
    Makes (liftM step >>= next) tree last final := by
  subst done
  exact rest

theorem inArena {path : List (Frame α)} {part other : Shape α}
    {change : Arena.Action (EntryList α) β} {arena : Arena (EntryList α)}
    {kids : NodeId → List NodeId}
    (embodies : tree.Embodies (plug path part))
    (done : change tree.arena = .ok result arena)
    (kept : arena.setting = tree.arena.setting) (same : other.id = part.id)
    (whole : arena.Whole kids (plug path other)) :
    Makes (Edit.inArena change) tree result (plug path other) :=
  ⟨arena, inArena_eq done, kept, embodies.exchange same whole⟩

theorem putList {path : List (Frame α)} {id : NodeId}
    {payload : Option (EntryList α)} {children : List (Shape α)}
    (embodies : tree.Embodies (plug path (.node id payload children)))
    (list : EntryList α) :
    Makes (Edit.putList id list) tree () (plug path (.node id (some list) children)) :=
  ⟨_, rfl, rfl, embodies.setList list⟩

end Makes

private theorem renewStep_makes {tree : Tree α} {frame : Frame α}
    {path : List (Frame α)} {part : Shape α}
    (embodies : tree.Embodies (plug (frame :: path) part)) (index : Nat)
    (entry : Entry α) :
    Makes (renewStep index entry (some frame.id)) tree
      (.inl (path.head?.map Frame.id))
      (plug (frame.renew index entry :: path) part) := by
  have closed : tree.Embodies (plug path (frame.close part)) := embodies
  obtain ⟨kids, whole⟩ := closed.2
  obtain ⟨node, found, carried, _, parent⟩ := whole.node_of_part
  have isRead : tree.arena.read frame.id = .ok node :=
    Arena.read_eq found
  apply Makes.get_bind
  apply Makes.lift_bind isRead
  apply Makes.lift_bind (Tree.listOf_eq carried)
  rw [parent]
  cases isPosition : frame.list.positionOf? index with
  | none =>
      have idle : frame.renew index entry = frame := by
        rw [Frame.renew, isPosition]
      rw [idle]
      exact .pure embodies
  | some position =>
      obtain ⟨inRange, _⟩ := List.findIdx?_eq_some_iff_getElem.mp isPosition
      have isSet : frame.list.set position entry =
          .ok (frame.list.entries[position],
            ⟨frame.list.entries.set position entry⟩) := by
        unfold EntryList.set
        rw [bind_of_ok ((EntryList.get_eq_ok_iff ..).mpr
          (List.getElem?_eq_getElem inRange))]
        rfl
      have renewed : frame.renew index entry =
          { frame with list := ⟨frame.list.entries.set position entry⟩ } := by
        rw [Frame.renew, isPosition]
      rw [renewed]
      apply Makes.lift_bind isSet
      exact (Makes.putList closed _).bind fun _ embodied => .pure embodied

theorem renewSeparators_makes {tree : Tree α} {path : List (Frame α)}
    {part : Shape α} (embodies : tree.Embodies (plug path part)) (index : Nat)
    (entry : Entry α) :
    Makes (renewSeparators (path.head?.map Frame.id) index entry) tree ()
      (plug (path.map (Frame.renew index entry)) part) := by
  have climbs : ∀ (path : List (Frame α)) (part : Shape α) (tree : Tree α)
      (bound : Nat), path.length < bound → tree.Embodies (plug path part) →
      Makes (follow (renewStep index entry) bound (path.head?.map Frame.id))
        tree () (plug (path.map (Frame.renew index entry)) part) := by
    intro path
    induction path with
    | nil =>
        intro part tree bound enough embodies
        obtain ⟨bound, rfl⟩ := Nat.exists_eq_succ_of_ne_zero
          (by omega : bound ≠ 0)
        exact ⟨tree.arena, by rw [run_follow]; rfl, rfl, embodies⟩
    | cons frame path induction =>
        intro part tree bound enough embodies
        obtain ⟨bound, rfl⟩ := Nat.exists_eq_succ_of_ne_zero
          (by omega : bound ≠ 0)
        have enough : path.length < bound := by simpa using enough
        rw [follow]
        apply (renewStep_makes embodies index entry).bind
        intro arena renewed
        exact induction ((frame.renew index entry).close part) _ bound enough
          renewed
  obtain ⟨kids, whole⟩ := embodies.2
  exact climbs path part tree tree.arena.visits whole.length_lt_visits embodies

theorem renewAbove_makes {tree : Tree α} {path : List (Frame α)} {part : Shape α}
    (embodies : tree.Embodies (plug path part)) (text : String) (index : Nat)
    (entry : Entry α) :
    ∃ node, tree.arena.read part.id = .ok node ∧
      Makes (within text (renewSeparators node.parent index entry)) tree ()
        (plug (path.map (Frame.renew index entry)) part) := by
  obtain ⟨kids, whole⟩ := embodies.2
  obtain ⟨node, found, _, _, isParent⟩ := whole.node_of_part
  refine ⟨node, Arena.read_eq found, .within text ?_⟩
  rw [isParent]
  exact renewSeparators_makes embodies index entry

end Edit

end LinkedBTree
