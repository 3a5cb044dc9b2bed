import LinkedBTree.Proofs.Arena.Calls
import LinkedBTree.Proofs.Arena.Linking
import LinkedBTree.Proofs.Arena.Spotting

namespace LinkedBTree

/-! What the edits of child lists do to a forest. -/

variable {P : Type}

def Node.bare (node : Node P) : Node P :=
  { node with payload := none }

namespace Arena

variable {arena other after : Arena P} {kids : NodeId → List NodeId}
  {id parent child : NodeId} {node : Node P}

namespace Forest

theorem of_same_links (forest : arena.Forest kids)
    (same : ∀ id, (other.node? id).map Node.bare =
      (arena.node? id).map Node.bare) : other.Forest kids := by
  have before : ∀ {id node}, other.node? id = some node →
      ∃ old, arena.node? id = some old ∧ old.bare = node.bare := by
    intro id node found
    have := same id
    rw [found] at this
    exact Option.map_eq_some_iff.mp this.symm
  have later : ∀ {id old}, arena.node? id = some old →
      ∃ node, other.node? id = some node ∧ node.bare = old.bare := by
    intro id node found
    have := same id
    rw [found] at this
    exact Option.map_eq_some_iff.mp this
  refine ⟨forest.nodup, ?_, ?_, ?_, ?_, ?_, ?_, ?_, ?_⟩
  · intro id dead
    have := same id
    rw [dead] at this
    exact forest.none_of_dead (Option.map_eq_none_iff.mp this.symm)
  · intro id node found
    obtain ⟨old, known, equal⟩ := before found
    rw [← forest.firstChild known]
    exact (congrArg Node.firstChild equal).symm
  · intro id node found
    obtain ⟨old, known, equal⟩ := before found
    rw [← forest.lastChild known]
    exact (congrArg Node.lastChild equal).symm
  · intro id node found
    obtain ⟨old, known, equal⟩ := before found
    rw [← forest.childCount known]
    exact (congrArg Node.childCount equal).symm
  · intro parent left id right split
    obtain ⟨old, known, above, previous, next⟩ := forest.child split
    obtain ⟨node, found, equal⟩ := later known
    exact ⟨node, found, (congrArg Node.parent equal).trans above,
      (congrArg Node.previous equal).trans previous,
      (congrArg Node.next equal).trans next⟩
  · intro id node parent found above
    obtain ⟨old, known, equal⟩ := before found
    exact forest.listed known ((congrArg Node.parent equal).trans above)
  · intro id node found above
    obtain ⟨old, known, equal⟩ := before found
    obtain ⟨previous, next⟩ :=
      forest.alone known ((congrArg Node.parent equal).trans above)
    exact ⟨(congrArg Node.previous equal).symm.trans previous,
      (congrArg Node.next equal).symm.trans next⟩
  · intro id node found
    obtain ⟨old, known, _⟩ := before found
    obtain ⟨ancestors, lineage⟩ := forest.grounded known
    refine ⟨ancestors, lineage.congr fun member _ => ?_⟩
    have := congrArg (Option.map Node.parent) (same member)
    simpa only [Option.map_map, Function.comp_def, Node.bare] using this

theorem congr (forest : arena.Forest kids)
    (same : ∀ id, other.node? id = arena.node? id) : other.Forest kids :=
  forest.of_same_links fun id => by rw [same]

theorem modify_payload (forest : arena.Forest kids) (id : NodeId)
    (payload : Node P → Option P) :
    (arena.modify id fun node => { node with payload := payload node }).Forest
      kids := by
  apply forest.of_same_links
  intro other
  rw [node?_modify, Option.map_map]
  congr 1
  funext node
  by_cases same : other = id <;> simp [same, Node.bare]

theorem allocate {payload : Option P} (forest : arena.Forest kids)
    (done : Arena.allocate payload arena = .ok id after) :
    after.Forest kids := by
  obtain ⟨fresh, lookup⟩ := node?_allocate done
  have ofOld : ∀ {other node}, arena.node? other = some node →
      after.node? other = some node := by
    intro other node found
    rw [lookup, if_neg, found]
    rintro rfl
    rw [fresh] at found
    cases found
  have toOld : ∀ {other node}, after.node? other = some node →
      other ≠ id → arena.node? other = some node := by
    intro other node found different
    rwa [lookup, if_neg different] at found
  have new : ∀ {node}, after.node? id = some node → node = { payload } := by
    intro node found
    rw [lookup, if_pos rfl] at found
    exact (Option.some.inj found).symm
  have none := forest.none_of_dead fresh
  refine ⟨forest.nodup, ?_, ?_, ?_, ?_, ?_, ?_, ?_, ?_⟩
  · intro other dead
    rw [lookup] at dead
    split at dead
    · cases dead
    · exact forest.none_of_dead dead
  · intro other node found
    by_cases same : other = id
    · subst same
      rw [new found, none]
      rfl
    · exact forest.firstChild (toOld found same)
  · intro other node found
    by_cases same : other = id
    · subst same
      rw [new found, none]
      rfl
    · exact forest.lastChild (toOld found same)
  · intro other node found
    by_cases same : other = id
    · subst same
      rw [new found, none]
      rfl
    · exact forest.childCount (toOld found same)
  · intro parent left other right split
    obtain ⟨node, found, links⟩ := forest.child split
    exact ⟨node, ofOld found, links⟩
  · intro other node parent found above
    by_cases same : other = id
    · subst same
      rw [new found] at above
      cases above
    · exact forest.listed (toOld found same) above
  · intro other node found above
    by_cases same : other = id
    · subst same
      rw [new found]
      exact ⟨rfl, rfl⟩
    · exact forest.alone (toOld found same) above
  · intro other node found
    by_cases same : other = id
    · subst same
      exact ⟨[], .top found (by rw [new found])⟩
    · obtain ⟨ancestors, lineage⟩ := forest.grounded (toOld found same)
      refine ⟨ancestors, lineage.congr fun member isMember => ?_⟩
      rw [lookup, if_neg]
      rintro rfl
      rcases List.mem_cons.mp isMember with rfl | above
      · exact same rfl
      · obtain ⟨_, live⟩ := lineage.live_of_mem above
        rw [fresh] at live
        cases live

end Forest

theorem Forest.allocate_error {payload : Option P} {error : Error}
    (forest : arena.Forest kids)
    (failed : Arena.allocate payload arena = .error error after) :
    after.Forest kids := by
  apply forest.congr
  intro id
  unfold node?
  rw [node?_allocate_error failed]

theorem lineage_of_checkNotAbove {of : NodeId}
    (checked : arena.checkNotAbove id of = .ok ()) :
    ∃ ancestors, arena.Lineage of ancestors ∧ id ∉ of :: ancestors := by
  unfold checkNotAbove at checked
  generalize arena.visits = bound at checked
  induction bound generalizing of with
  | zero => cases checked
  | succ bound induction =>
      unfold follow at checked
      obtain ⟨outcome, stepped, rest⟩ := bind_eq_ok.mp checked
      unfold climbStep at stepped
      split at stepped
      · cases stepped
      · rename_i different
        obtain ⟨node, found, stepped⟩ := bind_eq_ok.mp stepped
        have found := (read_eq_ok_iff arena of node).mp found
        cases above : node.parent with
        | none =>
            exact ⟨[], .top found above, by simpa using Ne.symm different⟩
        | some parent =>
            simp only [above] at stepped
            cases stepped
            obtain ⟨ancestors, lineage, outside⟩ := induction rest
            refine ⟨parent :: ancestors, .under found above lineage, ?_⟩
            rw [List.mem_cons, not_or]
            exact ⟨Ne.symm different, outside⟩

theorem of_checkUnlinked (forest : arena.Forest kids)
    (checked : arena.checkUnlinked id = .ok node) :
    arena.node? id = some node ∧ node.parent = none := by
  obtain ⟨found, unlinked⟩ := checkUnlinked_eq_ok.mp checked
  rw [forest.isLinked_eq found] at unlinked
  exact ⟨found, by simpa using unlinked⟩

theorem Forest.checkUnlinked_eq (forest : arena.Forest kids)
    (found : arena.node? id = some node) (isTop : node.parent = none) :
    arena.checkUnlinked id = .ok node :=
  checkUnlinked_eq_ok.mpr ⟨found, by rw [forest.isLinked_eq found, isTop]; rfl⟩

theorem carried?_place (arena : Arena P) (parent child id : NodeId)
    {previous next : Option NodeId} (notNext : next ≠ some child) :
    (arena.place parent child previous next).carried? id = arena.carried? id := by
  unfold carried?
  rw [node?_place _ _ _ _ notNext, Option.map_map]
  rfl

theorem carried?_attach (arena : Arena P) (parent child id : NodeId)
    {previous next : Option NodeId} (notNext : next ≠ some child) :
    (arena.attach parent child previous next).carried? id = arena.carried? id := by
  unfold carried?
  rw [node?_attach _ _ _ _ notNext, Option.map_map]
  rfl

theorem carried?_attachLast (arena : Arena P) (parent child id : NodeId) :
    (arena.attachLast parent child).carried? id = arena.carried? id :=
  carried?_attach _ _ _ _ (by simp)

theorem carried?_detach (arena : Arena P) (parent child id : NodeId)
    {previous next : Option NodeId} (notPrevious : previous ≠ some child)
    (notNext : next ≠ some child) :
    (arena.detach parent child previous next).carried? id =
      arena.carried? id := by
  unfold carried?
  rw [node?_detach _ _ _ _ notPrevious notNext, Option.map_map]
  rfl

theorem parent_attachLast (arena : Arena P) {parent child id : NodeId}
    (different : id ≠ child) :
    ((arena.attachLast parent child).node? id).map Node.parent =
      (arena.node? id).map Node.parent := by
  unfold attachLast
  rw [node?_attach _ _ _ _ (by simp), Option.map_map]
  congr 1
  funext node
  simp [placed, different]

namespace Forest

theorem attachLast_eq (forest : arena.Forest kids) {parentNode : Node P}
    (isLive : arena.node? parent = some parentNode) :
    arena.attachLast parent child =
      arena.attach parent child (kids parent).getLast? none := by
  unfold Arena.attachLast lastChild?
  rw [isLive, Option.bind_some, forest.lastChild isLive]

theorem attachLast {parentNode childNode : Node P} (forest : arena.Forest kids)
    (isLive : arena.node? parent = some parentNode)
    (found : arena.node? child = some childNode)
    (isTop : childNode.parent = none)
    (apart : ∀ ancestors, arena.Lineage parent ancestors →
      child ∉ parent :: ancestors) :
    (arena.attachLast parent child).Forest
      (Function.update kids parent (kids parent ++ [child])) := by
  rw [forest.attachLast_eq isLive]
  have split : kids parent = kids parent ++ [] := (List.append_nil _).symm
  have attached := forest.attach split isLive found isTop apart
  rwa [List.head?_nil] at attached

theorem not_mem_of_childless {ancestors : List NodeId}
    (forest : arena.Forest kids) (childless : kids id = [])
    (lineage : arena.Lineage parent ancestors) : id ∉ ancestors := by
  intro member
  obtain ⟨before, above, rfl⟩ := List.append_of_mem member
  have listed : ∀ {child rest}, arena.Lineage child (id :: rest) → False := by
    intro child rest climbs
    cases climbs with
    | under found isParent _ =>
        have := forest.listed found isParent
        rw [childless] at this
        cases this
  cases before.eq_nil_or_concat with
  | inl empty =>
      subst empty
      exact listed lineage
  | inr filled =>
      obtain ⟨before, last, rfl⟩ := filled
      rw [List.concat_eq_append, List.append_assoc] at lineage
      exact listed lineage.drop

/-- All of `children` can be hung up under `parent`, one after the other. -/
structure Pending (arena : Arena P) (kids : NodeId → List NodeId) (parent : NodeId)
    (children : List NodeId) : Prop where
  forest : arena.Forest kids
  live : arena.contains parent = true
  nodup : (parent :: children).Nodup
  ready : ∀ child ∈ children, (arena.node? child).map Node.parent = some none ∧
    kids child = []

namespace Pending

variable {children rest : List NodeId}

theorem of_cons (pending : Pending arena kids parent (child :: rest)) :
    Pending (arena.attachLast parent child)
      (Function.update kids parent (kids parent ++ [child])) parent rest := by
  obtain ⟨forest, live, nodup, ready⟩ := pending
  rw [List.nodup_cons, List.mem_cons, not_or, List.nodup_cons] at nodup
  obtain ⟨⟨notChild, notRest⟩, notAgain, nodup⟩ := nodup
  obtain ⟨top, childless⟩ := ready child List.mem_cons_self
  obtain ⟨childNode, found, isTop⟩ := Option.map_eq_some_iff.mp top
  obtain ⟨parentNode, isLive⟩ := contains_iff.mp live
  have stillLive : (arena.attachLast parent child).carried? parent =
      some parentNode.payload := by
    rw [carried?_attachLast, carried?_of_node? isLive]
  refine ⟨?_, contains_of_carried? stillLive, List.nodup_cons.mpr ⟨notRest, nodup⟩, ?_⟩
  · exact forest.attachLast isLive found isTop fun ancestors lineage => by
      rw [List.mem_cons, not_or]
      exact ⟨Ne.symm notChild, forest.not_mem_of_childless childless lineage⟩
  · intro other member
    obtain ⟨top, childless⟩ := ready other (List.mem_cons_of_mem _ member)
    have different : other ≠ child := by
      rintro rfl
      exact notAgain member
    have notParent : other ≠ parent := by
      rintro rfl
      exact notRest member
    rw [parent_attachLast _ different, Function.update_of_ne notParent]
    exact ⟨top, childless⟩

theorem attachAll (pending : Pending arena kids parent children) :
    (children.foldl (fun arena child => arena.attachLast parent child)
      arena).Forest (Function.update kids parent (kids parent ++ children)) := by
  induction children generalizing arena kids with
  | nil => simpa using pending.forest
  | cons child rest induction =>
      have attached := induction pending.of_cons
      rw [Function.update_self, Function.update_idem, List.append_assoc,
        List.singleton_append] at attached
      rw [List.foldl_cons]
      exact attached

end Pending

theorem sprout {payload : Option P} {parentNode : Node P}
    (forest : arena.Forest kids) (isLive : arena.node? parent = some parentNode)
    (done : Arena.allocate payload arena = .ok child after) :
    (after.attachLast parent child).Forest
      (Function.update kids parent (kids parent ++ [child])) := by
  obtain ⟨fresh, lookup⟩ := node?_allocate done
  have grown := forest.allocate done
  have different : parent ≠ child := by
    rintro rfl
    cases isLive.symm.trans fresh
  refine grown.attachLast (by rw [lookup, if_neg different, isLive])
    (by rw [lookup, if_pos rfl]) rfl fun ancestors lineage member => ?_
  rcases List.mem_cons.mp member with same | above
  · exact different same.symm
  · exact grown.not_mem_of_childless (forest.none_of_dead fresh) lineage above

theorem append (forest : arena.Forest kids)
    (done : arena.appended parent child = .ok ((), after)) :
    after.Forest (Function.update kids parent (kids parent ++ [child])) := by
  obtain ⟨apart, ⟨parentNode, isLive⟩, ⟨childNode, unlinked⟩, rfl⟩ := appended_eq_ok.mp done
  obtain ⟨ancestors, lineage, outside⟩ := lineage_of_checkNotAbove apart
  obtain ⟨found, isTop⟩ := of_checkUnlinked forest unlinked
  apply forest.attachLast isLive found isTop
  intro others again
  rwa [again.unique lineage]

end Forest

/-- How an ordered insertion ends when nothing speaks against the child. -/
inductive Inserts {σ : Type} (arena : Arena P) (kids : NodeId → List NodeId)
    (parent child : NodeId) (compare : Comparator σ P) (unique : Bool)
    (payload : P) (before : σ) : EStateM.Result Error σ (Bool × Arena P) → Prop
  | placed {left right between final} (split : kids parent = left ++ right)
      (passes : arena.Passes compare unique payload left before between)
      (stops : arena.Stops compare payload right between final) :
      Inserts arena kids parent child compare unique payload before
        (.ok (true, arena.attach parent child left.getLast? right.head?) final)
  | kept {final} (spotted : arena.Spotted compare unique payload (kids parent)
        before (.ok .duplicate final)) :
      Inserts arena kids parent child compare unique payload before
        (.ok (false, arena) final)
  | failed {error final} (spotted : arena.Spotted compare unique payload
        (kids parent) before (.error error final)) :
      Inserts arena kids parent child compare unique payload before
        (.error error final)

namespace Forest

theorem inserts {σ : Type} {parentNode childNode : Node P} {payload : P}
    (forest : arena.Forest kids)
    (apart : arena.checkNotAbove child parent = .ok ())
    (isLive : arena.read parent = .ok parentNode)
    (unlinked : arena.checkUnlinked child = .ok childNode)
    (carried : childNode.payload = some payload) (compare : Comparator σ P)
    (unique : Bool) (before : σ) :
    arena.Inserts kids parent child compare unique payload before
      (arena.inserted parent child compare unique before) := by
  have found := (read_eq_ok_iff ..).mp isLive
  have spotted : arena.Spotted compare unique payload (kids parent) before _ :=
    forest.spotted (List.nil_append _).symm (forest.length_kids_lt parent) before
  rw [← forest.firstChild found] at spotted
  unfold Arena.inserted
  rw [run_lift_bind apart, run_lift_bind isLive, run_lift_bind unlinked]
  simp only [carried]
  rw [run_bind]
  generalize follow (arena.spotStep payload compare unique) arena.visits
    parentNode.firstChild before = search at spotted ⊢
  generalize isSplit : kids parent = siblings at spotted
  cases spotted with
  | last passes =>
      rw [forest.attachLast_eq found, isSplit, ← @List.head?_nil NodeId]
      exact .placed (isSplit.trans (List.append_nil _).symm) passes (.last _)
  | @before left sibling right _ between after passes less =>
      obtain ⟨node, isSibling, _, previous, _⟩ := forest.child isSplit
      have isNext : some sibling = (sibling :: right).head? := rfl
      dsimp only
      rw [run_lift_bind (read_eq isSibling), previous, isNext]
      exact .placed isSplit passes (.before less)
  | duplicate passes isUnique equal =>
      exact .kept (isSplit ▸ .duplicate passes isUnique equal)
  | bare passes bare => exact .failed (isSplit ▸ .bare passes bare)
  | raised passes carried raised =>
      exact .failed (isSplit ▸ .raised passes carried raised)

theorem inserts_of_ok {σ : Type} {compare : Comparator σ P} {unique : Bool}
    {outcome : Bool × Arena P} {before final : σ} (forest : arena.Forest kids)
    (done : arena.inserted parent child compare unique before = .ok outcome final) :
    ∃ parentNode childNode payload, arena.checkNotAbove child parent = .ok () ∧
      arena.read parent = .ok parentNode ∧
      arena.checkUnlinked child = .ok childNode ∧
      childNode.payload = some payload ∧
      arena.Inserts kids parent child compare unique payload before
        (.ok outcome final) := by
  obtain ⟨apart, parentNode, childNode, payload, _, isLive, unlinked, carried, _⟩ :=
    inserted_eq_ok.mp done
  exact ⟨parentNode, childNode, payload, apart, read_eq isLive, unlinked, carried,
    done ▸ forest.inserts apart (read_eq isLive) unlinked carried compare unique before⟩

theorem insert {σ : Type} {compare : Comparator σ P} {unique inserted : Bool}
    {before final : σ} (forest : arena.Forest kids)
    (done : arena.inserted parent child compare unique before =
      .ok (inserted, after) final) : ∃ others, after.Forest others := by
  obtain ⟨parentNode, childNode, payload, apart, isLive, unlinked, _, ends⟩ :=
    forest.inserts_of_ok done
  cases ends with
  | kept _ => exact ⟨kids, forest⟩
  | placed split _ _ =>
      obtain ⟨ancestors, lineage, outside⟩ := lineage_of_checkNotAbove apart
      obtain ⟨found, isTop⟩ := of_checkUnlinked forest unlinked
      exact ⟨_, forest.attach split ((read_eq_ok_iff ..).mp isLive) found isTop
        fun others again => again.unique lineage ▸ outside⟩

private theorem node?_replace {old new : NodeId} {previous next : Option NodeId}
    (different : old ≠ new) (isChild : old ≠ parent) (isNew : new ≠ parent)
    (counted : ∀ node, arena.node? parent = some node → 0 < node.childCount)
    (notOld : previous ≠ some old ∧ next ≠ some old)
    (notNew : previous ≠ some new ∧ next ≠ some new) :
    (((arena.modify old Node.unlinked).place parent new previous next).node?
        id) =
      ((arena.detach parent old previous next).attach parent new
        previous next).node? id := by
  rw [node?_attach _ _ _ _ notNew.2, node?_place _ _ _ _ notNew.2,
    node?_detach _ _ _ _ notOld.1 notOld.2, node?_modify]
  cases found : arena.node? id with
  | none => rfl
  | some node =>
      have := counted node
      simp only [Option.map_some]
      congr 1
      cases node
      grind [placed, parted, Node.unlinked]

theorem replaced {old new : NodeId} (forest : arena.Forest kids)
    (done : arena.replaced old new = .ok ((), after)) :
    ∃ parent left right, kids parent = left ++ old :: right ∧
      after = (arena.modify old Node.unlinked).place parent new left.getLast?
        right.head? ∧
      after.Forest (Function.update kids parent (left ++ new :: right)) := by
  obtain ⟨different, oldNode, parent, newNode, found, above, apart, unlinked, rfl⟩ :=
    replaced_eq_ok.mp done
  obtain ⟨ancestors, lineage, outside⟩ := lineage_of_checkNotAbove apart
  obtain ⟨isNew, isTop⟩ := of_checkUnlinked forest unlinked
  obtain ⟨left, right, split, previous, next⟩ :=
    forest.placement found above
  have isChild : old ∉ parent :: ancestors :=
    (Lineage.under found above lineage).self_not_mem
  have distinct : (left ++ old :: right).Nodup := split ▸ forest.nodup parent
  have notNew : new ∉ left ++ old :: right :=
    split ▸ forest.not_mem_of_top isNew isTop parent
  have notOld := forest.neighbours_ne split
  have notBeside : left.getLast? ≠ some new ∧ right.head? ≠ some new := by
    constructor <;> intro isNeighbour
    · have := List.mem_of_getLast? isNeighbour
      grind
    · have := List.mem_of_head? isNeighbour
      grind
  have detached := forest.detach split
  obtain ⟨parentNode, isLive⟩ := lineage.live
  have lookup : ∀ id, (arena.detach parent old left.getLast?
      right.head?).node? id = (arena.node? id).map _ :=
    fun id => node?_detach arena parent old id notOld.1 notOld.2
  have climbs : (arena.detach parent old left.getLast?
      right.head?).Lineage parent ancestors := by
    apply lineage.congr
    intro member isMember
    have : member ≠ old := by
      rintro rfl
      exact isChild isMember
    simp [lookup, parted, this, Function.comp_def]
  have attached := detached.attach (Function.update_self ..)
    (by rw [lookup, isLive]; rfl) (by rw [lookup, isNew]; rfl)
    (by simp [parted, Ne.symm different, isTop])
    (fun others again => climbs.unique again ▸ outside)
  rw [Function.update_idem] at attached
  rw [previous, next]
  refine ⟨parent, left, right, split, rfl, attached.congr fun id => ?_⟩
  refine node?_replace different ?_ ?_ ?_ notOld notBeside
  · rintro rfl
    simp at isChild
  · rintro rfl
    simp at outside
  · intro node isFound
    cases isLive.symm.trans isFound
    rw [forest.childCount isLive, split, List.length_append,
      List.length_cons]
    omega

theorem replace {old new : NodeId} (forest : arena.Forest kids)
    (done : arena.replaced old new = .ok ((), after)) :
    ∃ others, after.Forest others := by
  obtain ⟨_, _, _, _, _, forest⟩ := forest.replaced done
  exact ⟨_, forest⟩

theorem remove_eq {left right : List NodeId} (forest : arena.Forest kids)
    (split : kids parent = left ++ child :: right) :
    arena.removed parent child =
      .ok ((), arena.detach parent child left.getLast? right.head?) := by
  have isChild : child ∈ kids parent := by simp [split]
  obtain ⟨parentNode, isLive⟩ := forest.parent_live isChild
  obtain ⟨node, found, above, previous, next⟩ := forest.child split
  have different : parent ≠ child := by
    rintro rfl
    exact forest.not_mem_self isChild
  rw [← previous, ← next]
  exact removed_eq_ok.mpr ⟨different, ⟨_, isLive⟩, node, found, above, rfl⟩

theorem mem_of_remove (forest : arena.Forest kids)
    (done : arena.removed parent child = .ok ((), after)) : child ∈ kids parent := by
  obtain ⟨_, _, node, found, above, _⟩ := removed_eq_ok.mp done
  exact forest.listed found above

theorem remove (forest : arena.Forest kids)
    (done : arena.removed parent child = .ok ((), after)) :
    ∃ others, after.Forest others := by
  obtain ⟨left, right, split⟩ := List.append_of_mem (forest.mem_of_remove done)
  cases (forest.remove_eq split).symm.trans done
  exact ⟨_, forest.detach split⟩

end Forest

theorem node?_foldl_modify (arena : Arena P) (id other : NodeId) (children : List NodeId) :
    (children.foldl (fun arena child =>
      arena.modify child ({ · with parent := some id })) arena).node? other =
      (arena.node? other).map fun node =>
        if other ∈ children then { node with parent := some id } else node := by
  induction children generalizing arena with
  | nil => simp
  | cons child rest induction =>
      rw [List.foldl_cons, induction, node?_modify, Option.map_map]
      congr 1
      funext node
      cases node
      grind

theorem node?_adopt (arena : Arena P) (id other : NodeId)
    (children : List NodeId) (outside : id ∉ children) :
    (arena.adopt id children).node? other =
      (arena.node? other).map fun node =>
        if other = id then
          { node with
            firstChild := children.head?
            lastChild := children.getLast?
            childCount := children.length }
        else if other ∈ children then { node with parent := some id }
        else node := by
  unfold adopt
  rw [node?_modify, node?_foldl_modify, Option.map_map]
  congr 1
  funext node
  cases node
  grind

/-- The node that takes its only child's place keeps its own links upwards. -/
def merged (id : NodeId) (grandchildren : List NodeId)
    (payload : Option P) (other : NodeId) (node : Node P) : Node P :=
  if other = id then
    { node with
      payload
      firstChild := grandchildren.head?
      lastChild := grandchildren.getLast?
      childCount := grandchildren.length }
  else if other ∈ grandchildren then { node with parent := some id }
  else node

namespace Forest

theorem not_mem_grandchildren (forest : arena.Forest kids) (isChild : child ∈ kids id) :
    id ∉ kids child := by
  intro member
  obtain ⟨node, found⟩ := forest.parent_live isChild
  obtain ⟨ancestors, lineage⟩ := forest.grounded found
  have above := forest.lineage_of_mem member (forest.lineage_of_mem isChild lineage)
  have := above.self_not_mem
  simp at this

theorem collapse_eq {childNode : Node P} (forest : arena.Forest kids)
    (found : arena.node? id = some node)
    (isChild : arena.node? child = some childNode) (only : kids id = [child]) :
    ∃ after, arena.collapsed id = .ok (node.payload, after) ∧
      after = (((arena.adopt id (kids child)).modify id
        ({ · with payload := childNode.payload })).discard child).count
          .collapses ∧
      ∀ other, after.node? other =
        if other = child then none
        else (arena.node? other).map
          (merged id (kids child) childNode.payload other) := by
  have outside : id ∉ kids child := forest.not_mem_grandchildren (by simp [only])
  have counted : node.childCount = 1 := by
    rw [forest.childCount found, only]
    rfl
  have first : node.firstChild = some child := by
    rw [forest.firstChild found, only]
    rfl
  refine ⟨_, collapsed_eq_ok.mpr ⟨node, child, childNode, kids child, found, counted, first,
    isChild, forest.childList_eq isChild, rfl, rfl⟩, rfl, fun other => ?_⟩
  rw [node?_count, node?_discard]
  congr 1
  rw [node?_modify, node?_adopt arena id other (kids child) outside,
    Option.map_map]
  congr 1
  funext old
  cases old
  grind [merged]

theorem only_of_collapse {payload : Option P} (forest : arena.Forest kids)
    (done : arena.collapsed id = .ok (payload, after)) :
    ∃ child, kids id = [child] := by
  obtain ⟨node, _, _, _, found, single, _⟩ := collapsed_eq_ok.mp done
  rw [forest.childCount found] at single
  exact List.length_eq_one_iff.mp single

end Forest

private structure Merging (arena after : Arena P) (kids : NodeId → List NodeId)
    (id child : NodeId) (payload : Option P) : Prop where
  forest : arena.Forest kids
  only : kids id = [child]
  lookup : ∀ other, after.node? other =
    if other = child then none
    else (arena.node? other).map (merged id (kids child) payload other)

namespace Merging

variable {other : NodeId} {node : Node P} {payload : Option P}

private theorem is_child (merging : Merging arena after kids id child payload) :
    child ∈ kids id := by
  simp [merging.only]

private theorem stays (merging : Merging arena after kids id child payload)
    (found : arena.node? other = some node) (notChild : other ≠ child) :
    after.node? other = some (merged id (kids child) payload other node) := by
  rw [merging.lookup, if_neg notChild, found]
  rfl

private theorem came (merging : Merging arena after kids id child payload)
    (found : after.node? other = some node) :
    other ≠ child ∧ ∃ old, arena.node? other = some old ∧
      merged id (kids child) payload other old = node := by
  rw [merging.lookup] at found
  split at found
  · cases found
  · exact ⟨‹_›, Option.map_eq_some_iff.mp found⟩

private theorem deeper {ancestors : List NodeId}
    (merging : Merging arena after kids id child payload)
    (lineage : arena.Lineage id ancestors) (member : other ∈ kids child) :
    other ∉ child :: id :: ancestors := by
  have below := merging.forest.lineage_of_mem merging.is_child lineage
  exact (merging.forest.lineage_of_mem member below).self_not_mem

private theorem ne_of_mem (merging : Merging arena after kids id child payload)
    (member : other ∈ kids child) : other ≠ id := by
  obtain ⟨_, found⟩ := merging.forest.parent_live merging.is_child
  obtain ⟨ancestors, lineage⟩ := merging.forest.grounded found
  rintro rfl
  exact merging.deeper lineage member (by simp)

private theorem member (merging : Merging arena after kids id child payload)
    {parent : NodeId}
    (member : other ∈ (if parent = id then kids child
      else if parent = child then [] else kids parent)) :
    ∃ node, after.node? other = some node ∧ node.parent = some parent := by
  have notChild : other ≠ child := by
    rintro rfl
    split at member
    · exact merging.forest.not_mem_self member
    · split at member
      · cases member
      · exact ‹parent ≠ id›
          (merging.forest.parent_unique member merging.is_child)
  by_cases isId : parent = id
  · rw [if_pos isId] at member
    obtain ⟨old, known, _⟩ := merging.forest.of_mem member
    have := merging.ne_of_mem member
    exact ⟨_, merging.stays known notChild, by grind [merged]⟩
  · rw [if_neg isId] at member
    split at member
    · cases member
    · obtain ⟨old, known, above⟩ := merging.forest.of_mem member
      have : other ∉ kids child := fun again =>
        ‹parent ≠ child› (merging.forest.parent_unique member again)
      exact ⟨_, merging.stays known notChild, by grind [merged]⟩

private theorem place (merging : Merging arena after kids id child payload)
    (known : arena.node? other = some node) (notChild : other ≠ child) :
    match (merged id (kids child) payload other node).parent with
    | none =>
        (merged id (kids child) payload other node).previous = none ∧
          (merged id (kids child) payload other node).next = none
    | some parent => ∃ left right,
        (if parent = id then kids child
          else if parent = child then [] else kids parent) =
            left ++ other :: right ∧
        (merged id (kids child) payload other node).previous = left.getLast? ∧
        (merged id (kids child) payload other node).next = right.head? := by
  by_cases below : other ∈ kids child
  · have notId := merging.ne_of_mem below
    obtain ⟨left, right, split⟩ := List.append_of_mem below
    obtain ⟨again, isAgain, _, previous, next⟩ := merging.forest.child split
    cases known.symm.trans isAgain
    simp only [merged, notId, below, if_true, if_false]
    exact ⟨left, right, split, previous, next⟩
  · have same : (merged id (kids child) payload other node).parent =
          node.parent ∧
        (merged id (kids child) payload other node).previous =
          node.previous ∧
        (merged id (kids child) payload other node).next = node.next := by
      by_cases isId : other = id <;> simp [merged, isId, below]
    rw [same.1, same.2.1, same.2.2]
    cases above : node.parent with
    | none => exact merging.forest.alone known above
    | some parent =>
        have listed := merging.forest.listed known above
        have notId : parent ≠ id := by
          rintro rfl
          rw [merging.only, List.mem_singleton] at listed
          exact notChild listed
        have notBelow : parent ≠ child := by
          rintro rfl
          exact below listed
        simp only [notId, notBelow, if_false]
        exact merging.forest.placement known above

private theorem lineage {ancestors : List NodeId}
    (merging : Merging arena after kids id child payload)
    (lineage : arena.Lineage id ancestors) : after.Lineage id ancestors := by
  have below := merging.forest.lineage_of_mem merging.is_child lineage
  apply lineage.congr
  intro member isMember
  obtain ⟨node, known⟩ : ∃ node, arena.node? member = some node := by
    rcases List.mem_cons.mp isMember with rfl | above
    · exact lineage.live
    · exact lineage.live_of_mem above
  have notBelow : member ∉ kids child := fun again =>
    merging.deeper lineage again (List.mem_cons_of_mem _ isMember)
  have notChild : member ≠ child := by
    rintro rfl
    exact below.self_not_mem isMember
  rw [merging.stays known notChild, known]
  by_cases isId : member = id <;> simp [merged, isId, notBelow]

private theorem step (merging : Merging arena after kids id child payload)
    (found : after.node? other = some node) :
    (∃ ancestors, after.Lineage other ancestors) ∨
      ∃ old, arena.node? other = some old ∧ node.parent = old.parent ∧
        ∀ parent, node.parent = some parent →
          ∃ parentNode, after.node? parent = some parentNode := by
  obtain ⟨notChild, old, known, rfl⟩ := merging.came found
  by_cases below : other ∈ kids child
  · obtain ⟨_, isLive⟩ := merging.forest.parent_live merging.is_child
    obtain ⟨ancestors, lineage⟩ := merging.forest.grounded isLive
    exact .inl ⟨id :: ancestors, .under found
      (by simp [merged, merging.ne_of_mem below, below])
      (merging.lineage lineage)⟩
  · have same : (merged id (kids child) payload other old).parent =
        old.parent := by
      by_cases isId : other = id <;> simp [merged, isId, below]
    refine .inr ⟨old, known, same, fun parent above => ?_⟩
    rw [same] at above
    have listed := merging.forest.listed known above
    obtain ⟨parentNode, isLive⟩ := merging.forest.parent_live listed
    refine ⟨_, merging.stays isLive ?_⟩
    rintro rfl
    exact below listed

end Merging

namespace Forest

theorem of_merged {payload : Option P} (forest : arena.Forest kids)
    (only : kids id = [child])
    (lookup : ∀ other, after.node? other =
      if other = child then none
      else (arena.node? other).map (merged id (kids child) payload other)) :
    after.Forest fun other =>
      if other = id then kids child
      else if other = child then [] else kids other := by
  have merging : Merging arena after kids id child payload :=
    ⟨forest, only, lookup⟩
  have different : id ≠ child := by
    rintro rfl
    exact forest.not_mem_self merging.is_child
  refine of_nodes ?_ ?_ ?_ (fun _ _ => merging.member) ?_
    (forest.grounded_of_step fun _ _ => merging.step)
  · intro other
    have := forest.nodup other
    have := forest.nodup child
    grind
  · intro other dead
    rw [lookup] at dead
    split at dead
    · rename_i same
      rw [if_neg (by rintro rfl; exact different same), if_pos same]
    · have dead := Option.map_eq_none_iff.mp dead
      have := forest.none_of_dead dead
      grind
  · intro other node isFound
    obtain ⟨notChild, old, known, rfl⟩ := merging.came isFound
    have first := forest.firstChild known
    have last := forest.lastChild known
    have counted := forest.childCount known
    by_cases isId : other = id
    · simp [merged, isId]
    · by_cases below : other ∈ kids child <;>
        simp [merged, isId, below, notChild, first, last, counted]
  · intro other node isFound
    obtain ⟨notChild, old, known, rfl⟩ := merging.came isFound
    exact merging.place known notChild

theorem collapse {payload : Option P} (forest : arena.Forest kids)
    (done : arena.collapsed id = .ok (payload, after)) :
    ∃ others, after.Forest others := by
  obtain ⟨child, only⟩ := forest.only_of_collapse done
  have isChild : child ∈ kids id := by simp [only]
  obtain ⟨node, found⟩ := forest.parent_live isChild
  obtain ⟨childNode, childFound, _⟩ := forest.of_mem isChild
  obtain ⟨collapsed, again, _, lookup⟩ :=
    forest.collapse_eq found childFound only
  cases again.symm.trans done
  exact ⟨_, forest.of_merged only lookup⟩

section

variable {other : NodeId} {old new : Node P} {left right : List NodeId}

theorem links_of_detached (forest : arena.Forest kids)
    (split : kids id = left ++ child :: right)
    (again : after.Forest (Function.update kids id (left ++ right)))
    (known : arena.node? other = some old) (found : after.node? other = some new) :
    new = { parted id child left.getLast? right.head? other old with
      payload := new.payload } := by
  obtain ⟨notPrevious, notNext⟩ := forest.neighbours_ne split
  have moved : (arena.detach id child left.getLast? right.head?).node? other =
      some (parted id child left.getLast? right.head? other old) := by
    rw [node?_detach _ _ _ _ notPrevious notNext, known]
    rfl
  exact (forest.detach split).links_eq again moved found rfl fun _ _ => rfl

theorem links_of_merged (forest : arena.Forest kids) (only : kids id = [child])
    (again : after.Forest fun other =>
      if other = id then kids child
      else if other = child then [] else kids other)
    (known : arena.node? other = some old) (found : after.node? other = some new)
    (different : other ≠ child) :
    new = { merged id (kids child) old.payload other old with
      payload := new.payload } := by
  have isChild : child ∈ kids id := by simp [only]
  obtain ⟨_, above⟩ := forest.parent_live isChild
  obtain ⟨childNode, below, _⟩ := forest.of_mem isChild
  obtain ⟨between, _, _, lookup⟩ := forest.collapse_eq above below only
  have moved : between.node? other =
      some (merged id (kids child) childNode.payload other old) := by
    rw [lookup, if_neg different, known]
    rfl
  rw [(forest.of_merged only lookup).links_eq again moved found rfl fun _ _ => rfl]
  unfold merged
  split <;> rfl

end

end Forest

end Arena

end LinkedBTree
