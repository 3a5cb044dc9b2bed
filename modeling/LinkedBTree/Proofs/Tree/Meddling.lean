import LinkedBTree.Proofs.Arena.Linkage
import LinkedBTree.Proofs.Maintaining
import LinkedBTree.Proofs.Tree.Enquiries
import LinkedBTree.Proofs.Tree.Halting
import LinkedBTree.Proofs.Tree.Reachable

namespace LinkedBTree

/-! Calls of a tree go on between others that change its arena behind its back. Lists may
be lost, nodes hung elsewhere and the root given up, but the links stay those of a
forest, so that all loops over them still end. -/

variable {P α β γ σ : Type}

namespace Edit

/-- The links of the arena survive, whatever the tree looks like. -/
abbrev Careful (edit : Edit α β) : Prop :=
  Maintains (fun tree => tree.arena.WellLinked) edit

theorem careful_putList (id : NodeId) (list : EntryList α) : Careful (putList id list) :=
  fun _ linked => linked.modify_payload id fun _ => some list

theorem careful_putValue (index : Nat) (value : Option α) :
    Careful (putValue index value) :=
  Maintains.get.bind fun _ => (Maintains.lift _).bind fun _ =>
    Maintains.bind (fun _ linked => linked) fun _ => Maintains.pure _

theorem careful_inArena {change : Arena.Action (EntryList α) β}
    (keeps : Maintains Arena.WellLinked change) : Careful (inArena change) := by
  intro tree linked
  have stops := keeps tree.arena linked
  unfold inArena
  cases done : change tree.arena <;> rwa [done] at stops

theorem careful_renewSeparators (start : Option NodeId) (index : Nat) (entry : Entry α) :
    Careful (renewSeparators start index entry) := by
  refine Maintains.get.bind fun _ => Maintains.follow (fun current => ?_) _ _
  cases current with
  | none => exact Maintains.pure _
  | some id =>
      refine Maintains.get.bind fun _ => (Maintains.lift _).bind fun node =>
        (Maintains.lift _).bind fun list => ?_
      cases list.positionOf? index with
      | none => exact Maintains.pure _
      | some position =>
          exact (Maintains.lift _).bind fun _ =>
            (careful_putList _ _).bind fun _ => Maintains.pure _

theorem careful_split (id : NodeId) : Careful (split id : Edit α Bool) := by
  intro tree linked
  cases isRead : tree.arena.read id with
  | error error =>
      rw [split, run_get_bind, run_bind, run_lift, isRead]
      exact linked
  | ok node =>
      have found := (Arena.read_eq_ok_iff ..).mp isRead
      by_cases isLeaf : node.isLeaf = true
      · cases carried : node.payload with
        | none =>
            rw [split, run_get_bind, run_lift_bind isRead]
            simp only [isLeaf, Tree.listOf, carried]
            exact linked
        | some list =>
            obtain ⟨⟨kids, forest⟩, tidy⟩ := linked
            have childless := (forest.isLeaf_iff found).mp isLeaf
            rw [run_split forest tidy found childless carried]
            by_cases few : (list.pieces tree.config.chunkSize).length < 2
            · rw [if_pos few]
              exact ⟨⟨kids, forest⟩, tidy⟩
            · rw [if_neg few]
              cases grows : Arena.allocateMany
                  (list.pieces tree.config.chunkSize).length [] tree.arena with
              | ok leaves grown =>
                  obtain ⟨fresh, rfl, length, sprouted⟩ := Arena.allocateMany_ok grows
                  have spread :=
                    (sprouted.spread found forest tidy childless length).count .splits
                  exact ⟨⟨_, spread.forest⟩, spread.tidy⟩
              | error error stopped =>
                  obtain ⟨same, again, _⟩ :=
                    Arena.allocateMany_error tidy (.nil tree.arena) grows
                  exact ⟨⟨kids, forest.congr same⟩, again⟩
      · rw [split, run_get_bind, run_lift_bind isRead]
        simp only [isLeaf]
        exact linked

theorem careful_retract (leaf : NodeId) (element : Nat) :
    Careful (retract leaf element : Edit α Unit) :=
  Maintains.get.bind fun _ => (Maintains.lift _).bind fun _ => (Maintains.lift _).bind fun _ =>
    careful_putList _ _

theorem careful_splitIfFull (leaf : NodeId) (length element : Nat) :
    Careful (splitIfFull leaf length element : Edit α Unit) := by
  refine Maintains.get.bind fun tree => Maintains.ite ?_ (Maintains.pure _)
  exact ((careful_split leaf).bind fun _ => Maintains.pure _).tryCatch fun error =>
    (careful_retract _ _).bind fun _ => Maintains.throw _

theorem careful_store (leaf : NodeId) (element : Nat) (value : α) :
    Careful (store leaf element value) :=
  Maintains.get.bind fun _ => (Maintains.lift _).bind fun _ =>
    ((Maintains.lift _).within _).bind fun _ => (careful_putList _ _).bind fun _ =>
    (careful_splitIfFull _ _ _).bind fun _ =>
    Maintains.bind (fun _ linked => linked) fun _ => Maintains.pure _

theorem careful_dropLeaf (leaf : NodeId) :
    Careful (dropLeaf leaf : Edit α (NodeId × Option (Entry α))) := by
  refine Maintains.get.bind fun tree => (Maintains.lift _).bind fun node => ?_
  cases node.parent with
  | none => exact Maintains.throw _
  | some parent =>
      refine (Maintains.lift _).bind fun siblings => ?_
      cases siblings.idxOf? leaf with
      | none => exact Maintains.throw _
      | some position =>
          refine (Maintains.lift _).bind fun list => ?_
          extract_lets goesOn
          have onwards : ∀ result, Careful (goesOn result) := fun _ =>
            (Maintains.lift _).bind fun _ => (careful_putList _ _).bind fun _ =>
            (careful_inArena (Arena.WellLinked.maintains_remove _ _)).bind fun _ =>
            (careful_inArena (Arena.WellLinked.maintains_release _)).bind fun _ =>
            Maintains.pure _
          exact Maintains.ite ((Maintains.throw _).bind onwards) (onwards ())

theorem careful_settleEmptied (leaf : NodeId) (index : Nat) :
    Careful (settleEmptied leaf index : Edit α Unit) := by
  refine ((careful_dropLeaf leaf).within _).bind fun (parent, newLast) => ?_
  have onwards : Careful (do
      if (← (← get).arena.read parent).childCount = 1 then
        let _ ← within s!"unable to collapse {parent}" (inArena (Arena.collapse parent)) :
      Edit α Unit) := by
    refine Maintains.get.bind fun tree => (Maintains.lift _).bind fun node =>
      Maintains.ite ?_ (Maintains.pure _)
    exact ((careful_inArena (Arena.WellLinked.maintains_collapse _)).within _).bind
      fun _ => Maintains.pure _
  cases newLast with
  | none => exact onwards
  | some entry => exact ((careful_renewSeparators _ _ _).within _).bind fun _ => onwards

theorem careful_settleShortened (leaf : NodeId) (index : Nat) (entry : Entry α) :
    Careful (settleShortened leaf index entry) :=
  Maintains.get.bind fun _ => (Maintains.lift _).bind fun _ =>
    (careful_renewSeparators _ _ _).within _

theorem careful_erase (leaf : NodeId) (element : Nat) :
    Careful (erase leaf element : Edit α α) := by
  refine Maintains.get.bind fun tree => (Maintains.lift _).bind fun list =>
    (Maintains.lift _).bind fun (removed, shorter) => (careful_putList _ _).bind fun _ =>
    (careful_putValue _ _).bind fun previous => ?_
  extract_lets returns settles
  have onwards : ∀ result, Careful (settles result) := by
    refine fun _ => Maintains.ite ?_ (Maintains.ite ?_ (Maintains.pure _))
    · exact (careful_settleEmptied _ _).bind fun _ => Maintains.pure _
    · cases shorter.last? with
      | none => exact Maintains.pure _
      | some entry => exact (careful_settleShortened _ _ _).bind fun _ => Maintains.pure _
  exact Maintains.ite ((Maintains.throw _).bind onwards) (onwards ())

theorem careful_overwrite (leaf : NodeId) (element : Nat) (value : α) :
    Careful (overwrite leaf element value) := by
  refine Maintains.get.bind fun tree => (Maintains.lift _).bind fun list =>
    (Maintains.lift _).bind fun current => (Maintains.lift _).bind fun (replaced, longer) =>
    (careful_putList _ _).bind fun _ => (careful_putValue _ _).bind fun _ =>
    Maintains.ite ?_ (Maintains.pure _)
  exact Maintains.get.bind fun _ => (Maintains.lift _).bind fun _ =>
    ((careful_renewSeparators _ _ _).within _).bind fun _ => Maintains.pure _

end Edit

namespace Session

abbrev Careful (session : Session σ (Tree α) β) : Prop :=
  Maintains (fun state => state.1.arena.WellLinked) session

theorem careful_consult (query : Tree α → EStateM Error σ β) : Careful (consult query) :=
  @Maintains.consult β σ (Tree α) (fun tree => tree.arena.WellLinked) query

theorem careful_apply {edit : Edit α β} (careful : edit.Careful) :
    Careful (apply edit : Session σ (Tree α) β) :=
  @Maintains.apply β σ (Tree α) (fun tree => tree.arena.WellLinked) edit careful

end Session

namespace Tree

theorem careful_insert (value : α) (compare : Comparator σ α) :
    Session.Careful (insert value compare) := by
  refine (Session.careful_consult _).bind fun location => ?_
  cases location with
  | found node element => exact (Session.careful_consult _).bind fun _ => Maintains.pure _
  | gap leaf element =>
      exact (Session.careful_apply (Edit.careful_store _ _ _)).bind fun _ => Maintains.pure _

theorem careful_remove (value : α) (compare : Comparator σ α) :
    Session.Careful (remove value compare) := by
  refine (Session.careful_consult _).bind fun located => ?_
  cases located with
  | none => exact Maintains.pure _
  | some place =>
      exact (Session.careful_apply (Edit.careful_erase _ _)).bind fun _ => Maintains.pure _

theorem careful_replace (old new : α) (compare : Comparator σ α) :
    Session.Careful (replace old new compare) := by
  refine (Session.careful_consult _).bind fun located => ?_
  cases located with
  | none => exact Maintains.throw _
  | some place =>
      exact (Session.careful_consult _).bind fun _ =>
        Session.careful_apply (Edit.careful_overwrite _ _ _)

theorem wellLinked_copy {tree image : Tree α} {copyValue : Copier σ α} {state after : σ}
    (copied : tree.copy copyValue state = .ok image after) : image.arena.WellLinked := by
  obtain ⟨target, _, _, started, rfl, _, _, rfl⟩ := copy_eq_ok copied
  exact (Arena.WellLinked.withCapacity started).perform
    (.copyFrom tree.arena tree.root (copyList copyValue) _)

theorem wellLinked_perform {tree : Tree α} (linked : tree.arena.WellLinked)
    (request : Request α) : (tree.perform request).arena.WellLinked := by
  cases request with
  | insert value compare state => exact careful_insert value compare (tree, state) linked
  | remove value compare state => exact careful_remove value compare (tree, state) linked
  | replace old new compare state =>
      exact careful_replace old new compare (tree, state) linked
  | split id => exact Edit.careful_split id tree linked
  | copy copyValue state =>
      rw [perform]
      cases copied : tree.copy copyValue state with
      | error error after => exact linked
      | ok image after => exact wellLinked_copy copied

/-- A call of the tree, or something done to its arena without it. -/
inductive Act (α : Type) : Type 1
  | call (request : Request α)
  | meddle (operation : Arena.Operation (EntryList α))

def undergo (tree : Tree α) : Act α → Tree α
  | .call request => tree.perform request
  | .meddle operation => { tree with arena := tree.arena.operate operation }

theorem wellLinked_undergo {tree : Tree α} (linked : tree.arena.WellLinked)
    (acts : List (Act α)) : (acts.foldl undergo tree).arena.WellLinked := by
  induction acts generalizing tree with
  | nil => exact linked
  | cons act rest induction =>
      cases act with
      | call request => exact induction (wellLinked_perform linked request)
      | meddle operation => exact induction (linked.operate operation)

/-- Whatever is asked of an arena, and whatever is done to a tree and to its arena by
turns, the links lead nowhere twice: every loop over them ends by itself, after as many
rounds as there are live nodes at most, and one that starts at a dead handle ends there. -/
theorem loops_end_after_requests :
    (∀ (capacity : Nat) (start : Arena P), Arena.withCapacity capacity = .ok start →
      ∀ (operations : List (Arena.Operation P)) (arena : Arena P),
        operations.foldl Arena.operate start = arena →
        arena.liveIds.length = arena.liveCount ∧ arena.Halting) ∧
    ∀ config : Config, config.Valid → ∃ start : Tree α, withConfig config = .ok start ∧
      ∀ (acts : List (Act α)) (tree : Tree α), acts.foldl undergo start = tree →
        tree.arena.liveIds.length = tree.arena.liveCount ∧ tree.arena.Halting ∧
          ∀ other : Tree α, other.arena = tree.arena → other.Halting := by
  constructor
  · rintro capacity start started operations arena rfl
    have linked := (Arena.WellLinked.withCapacity started).operations operations
    exact ⟨linked.length_liveIds, linked.halting⟩
  · intro config valid
    obtain ⟨start, created, shape, abides⟩ := @abides_withConfig α config valid
    refine ⟨start, created, ?_⟩
    rintro acts tree rfl
    obtain ⟨_, kids, whole⟩ := abides.upright.embodies
    have linked := wellLinked_undergo ⟨⟨kids, whole.forest⟩, whole.tidy⟩ acts
    obtain ⟨others, forest⟩ := linked.forest
    exact ⟨linked.length_liveIds, linked.halting, fun other same => Tree.halting (same ▸ forest)⟩

/-- A tree is turned upside down, its former root hung below a leaf and left without a
list. -/
theorem loops_end_after_requests_overturned :
    (Arena.withCapacity 2 : Except Error (Arena Nat)) = .ok { capacity := 2 } ∧
      ({ capacity := 2 } : Arena Nat).Halting ∧
      ∃ (start tree : Tree Nat),
        withConfig { maxValues := 2, chunkSize := 1, nodeCapacity := 8 } = .ok start ∧
        [.call (.insert 5 (.answering compare) ()),
          .call (.insert 6 (.answering compare) ()),
          .meddle (.call (.remove ⟨0, 0⟩ ⟨1, 0⟩)),
          .meddle (.call (.append ⟨1, 0⟩ ⟨0, 0⟩)),
          .meddle (.call (.setPayload ⟨0, 0⟩ none)),
          .call (.insert 7 (.answering compare) ())].foldl undergo start = tree ∧
        tree.root = ⟨0, 0⟩ ∧ tree.arena.preorder ⟨1, 0⟩ = .ok [⟨1, 0⟩, ⟨0, 0⟩, ⟨2, 0⟩] ∧
        tree.arena.liveIds.length = 3 ∧ tree.arena.Halting ∧ tree.Halting := by
  have started : (Arena.withCapacity 2 : Except Error (Arena Nat)) =
      .ok { capacity := 2 } := rfl
  have valid : ({ maxValues := 2, chunkSize := 1, nodeCapacity := 8 } :
      Config).Valid := by
    constructor <;> decide
  obtain ⟨alone, together⟩ := @loops_end_after_requests Nat Nat
  obtain ⟨start, created, ends⟩ := together _ valid
  obtain ⟨tree, isTree⟩ : ∃ tree, [.call (.insert 5 (.answering compare) ()),
      .call (.insert 6 (.answering compare) ()), .meddle (.call (.remove ⟨0, 0⟩ ⟨1, 0⟩)),
      .meddle (.call (.append ⟨1, 0⟩ ⟨0, 0⟩)), .meddle (.call (.setPayload ⟨0, 0⟩ none)),
      .call (.insert 7 (.answering compare) ())].foldl undergo start = tree := ⟨_, rfl⟩
  obtain ⟨counted, linked, halting⟩ := ends _ tree isTree
  obtain rfl := Except.ok.inj created
  refine ⟨started, (alone 2 _ started [] _ rfl).2, _, tree, created, isTree, ?_, ?_, ?_,
    linked, halting tree rfl⟩
  · rw [← isTree]
    decide +kernel
  · rw [← isTree]
    decide +kernel
  · rw [counted, ← isTree]
    decide +kernel

end Tree

end LinkedBTree
