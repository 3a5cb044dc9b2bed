import LinkedBTree.Proofs.Arena.Forest

namespace LinkedBTree

/-! A node with everything below it, as a tree, and when an arena holds it. -/

inductive Subtree (P : Type) where
  | node (id : NodeId) (payload : Option P) (children : List (Subtree P))

structure Twig (P : Type) where
  id : NodeId
  payload : Option P
  children : List NodeId

namespace Subtree

variable {P : Type}

def id : Subtree P → NodeId
  | node id _ _ => id

def payload : Subtree P → Option P
  | node _ payload _ => payload

def children : Subtree P → List (Subtree P)
  | node _ _ children => children

def twigs : Subtree P → List (Twig P)
  | node id payload children =>
      ⟨id, payload, children.map Subtree.id⟩ :: children.flatMap twigs

def ids (tree : Subtree P) : List NodeId :=
  tree.twigs.map Twig.id

def payloads (tree : Subtree P) : List (Option P) :=
  tree.twigs.map Twig.payload

def parts : Subtree P → List (Subtree P)
  | node id payload children =>
      node id payload children :: children.flatMap parts

@[simp] theorem id_node (id : NodeId) (payload : Option P)
    (children : List (Subtree P)) : (node id payload children).id = id := rfl

@[simp] theorem payload_node (id : NodeId) (payload : Option P)
    (children : List (Subtree P)) :
    (node id payload children).payload = payload := rfl

@[simp] theorem children_node (id : NodeId) (payload : Option P)
    (children : List (Subtree P)) :
    (node id payload children).children = children := rfl

@[simp] theorem twigs_node (id : NodeId) (payload : Option P)
    (children : List (Subtree P)) :
    (node id payload children).twigs =
      ⟨id, payload, children.map Subtree.id⟩ :: children.flatMap twigs := by
  rw [twigs]

@[simp] theorem ids_node (id : NodeId) (payload : Option P)
    (children : List (Subtree P)) :
    (node id payload children).ids = id :: children.flatMap ids := by
  simp [ids, List.map_flatMap]
  rfl

@[simp] theorem payloads_node (id : NodeId) (payload : Option P)
    (children : List (Subtree P)) :
    (node id payload children).payloads = payload :: children.flatMap payloads := by
  simp [payloads, List.map_flatMap]
  rfl

@[simp] theorem parts_node (id : NodeId) (payload : Option P)
    (children : List (Subtree P)) :
    (node id payload children).parts =
      node id payload children :: children.flatMap parts := by
  rw [parts]

theorem length_payloads (tree : Subtree P) : tree.payloads.length = tree.ids.length := by
  rw [payloads, ids, List.length_map, List.length_map]

@[induction_eliminator]
theorem induction {motive : Subtree P → Prop}
    (node : ∀ id payload children,
      (∀ child ∈ children, motive child) →
        motive (Subtree.node id payload children)) (tree : Subtree P) :
    motive tree := by
  match tree with
  | .node id payload children =>
      exact node id payload children fun child _ => induction node child
termination_by tree

theorem id_mem_ids (tree : Subtree P) : tree.id ∈ tree.ids := by
  cases tree
  simp

theorem mem_ids_of_mem_children {tree : Subtree P} {twig : Twig P}
    {child : NodeId} (isTwig : twig ∈ tree.twigs) (member : child ∈ twig.children) :
    child ∈ tree.ids := by
  induction tree with
  | node id payload children induction =>
      rw [twigs_node, List.mem_cons] at isTwig
      rw [ids_node, List.mem_cons]
      right
      rcases isTwig with rfl | deeper
      · obtain ⟨below, isBelow, rfl⟩ := List.mem_map.mp member
        exact List.mem_flatMap.mpr ⟨below, isBelow, below.id_mem_ids⟩
      · obtain ⟨below, isBelow, isTwig⟩ := List.mem_flatMap.mp deeper
        exact List.mem_flatMap.mpr ⟨below, isBelow, induction below isBelow isTwig⟩

theorem exists_parent {tree : Subtree P} {child : NodeId}
    (member : child ∈ tree.ids) (notRoot : child ≠ tree.id) :
    ∃ twig ∈ tree.twigs, child ∈ twig.children := by
  induction tree with
  | node id payload children induction =>
      rw [ids_node, List.mem_cons] at member
      obtain ⟨below, isBelow, deeper⟩ :=
        List.mem_flatMap.mp (member.resolve_left notRoot)
      by_cases isRoot : child = below.id
      · refine ⟨_, by rw [twigs_node]; exact List.mem_cons_self, ?_⟩
        exact List.mem_map.mpr ⟨below, isBelow, isRoot.symm⟩
      · obtain ⟨twig, isTwig, listed⟩ := induction below isBelow deeper isRoot
        refine ⟨twig, ?_, listed⟩
        rw [twigs_node]
        exact List.mem_cons_of_mem _ (List.mem_flatMap.mpr ⟨below, isBelow, isTwig⟩)

end Subtree

namespace Arena

variable {P : Type}

/-- Every node of `tree` is live, carries its payload and has the children
that `kids` gives it. -/
def Holds (arena : Arena P) (kids : NodeId → List NodeId)
    (tree : Subtree P) : Prop :=
  ∀ twig ∈ tree.twigs, arena.carried? twig.id = some twig.payload ∧
    kids twig.id = twig.children

section

variable {arena : Arena P} {kids : NodeId → List NodeId} {tree : Subtree P}
  {id : NodeId} {payload : Option P} {children : List (Subtree P)}

theorem holds_node :
    arena.Holds kids (.node id payload children) ↔
      arena.carried? id = some payload ∧ kids id = children.map Subtree.id ∧
        ∀ child ∈ children, arena.Holds kids child := by
  simp only [Holds, Subtree.twigs_node, List.mem_cons, List.mem_flatMap]
  constructor
  · intro held
    obtain ⟨carried, below⟩ := held _ (.inl rfl)
    exact ⟨carried, below,
      fun child member twig isTwig => held twig (.inr ⟨child, member, isTwig⟩)⟩
  · rintro ⟨carried, below, held⟩ twig (rfl | ⟨child, member, isTwig⟩)
    · exact ⟨carried, below⟩
    · exact held child member twig isTwig

theorem Holds.live (held : arena.Holds kids tree) (member : id ∈ tree.ids) :
    ∃ node, arena.node? id = some node := by
  obtain ⟨twig, isTwig, rfl⟩ := List.mem_map.mp member
  obtain ⟨node, found, _⟩ := carried?_eq_some.mp (held twig isTwig).1
  exact ⟨node, found⟩

theorem Holds.frame {after : Arena P} {others : NodeId → List NodeId}
    (held : arena.Holds kids tree)
    (kept : ∀ id ∈ tree.ids, ∀ payload, arena.carried? id = some payload →
      after.carried? id = some payload ∧ others id = kids id) :
    after.Holds others tree := by
  intro twig isTwig
  obtain ⟨carried, below⟩ := held twig isTwig
  obtain ⟨same, unchanged⟩ :=
    kept twig.id (List.mem_map_of_mem isTwig) twig.payload carried
  exact ⟨same, unchanged.trans below⟩

theorem Holds.payloads_eq (held : arena.Holds kids tree) :
    tree.ids.map arena.payload? = tree.payloads := by
  unfold Subtree.ids Subtree.payloads
  rw [List.map_map]
  apply List.map_congr_left
  intro twig isTwig
  obtain ⟨node, found, carried⟩ := carried?_eq_some.mp (held twig isTwig).1
  rw [Function.comp_apply, payload?, found]
  exact carried

theorem Holds.mem_of_kids {child : NodeId} (held : arena.Holds kids tree)
    (member : id ∈ tree.ids) (isChild : child ∈ kids id) : child ∈ tree.ids := by
  obtain ⟨twig, isTwig, rfl⟩ := List.mem_map.mp member
  have below := (held twig isTwig).2
  exact Subtree.mem_ids_of_mem_children isTwig (below ▸ isChild)

theorem Holds.parent_mem {child : NodeId} (held : arena.Holds kids tree)
    (forest : arena.Forest kids) (member : child ∈ tree.ids)
    (notRoot : child ≠ tree.id) (isChild : child ∈ kids id) : id ∈ tree.ids := by
  obtain ⟨twig, isTwig, listed⟩ := Subtree.exists_parent member notRoot
  have below := (held twig isTwig).2
  rw [forest.parent_unique isChild (below ▸ listed)]
  exact List.mem_map_of_mem isTwig

theorem Holds.unique {other : Subtree P} (held : arena.Holds kids tree)
    (again : arena.Holds kids other) (same : tree.id = other.id) : tree = other := by
  induction tree generalizing other with
  | node id payload children induction =>
      obtain ⟨root, otherPayload, others⟩ := other
      obtain rfl : id = root := same
      obtain ⟨carried, below, held⟩ := holds_node.mp held
      obtain ⟨alsoCarried, alsoBelow, alsoHeld⟩ := holds_node.mp again
      obtain rfl := Option.some.inj (carried.symm.trans alsoCarried)
      have sameIds := below.symm.trans alsoBelow
      have sameLength : children.length = others.length := by
        simpa using congrArg List.length sameIds
      suffices children = others by rw [this]
      refine List.ext_getElem sameLength fun position inRange alsoInRange => ?_
      have sameId := congrArg (·[position]?) sameIds
      simp only [List.getElem?_map, List.getElem?_eq_getElem inRange,
        List.getElem?_eq_getElem alsoInRange, Option.map_some,
        Option.some.injEq] at sameId
      exact induction _ (List.getElem_mem inRange) (held _ (List.getElem_mem inRange))
        (alsoHeld _ (List.getElem_mem alsoInRange)) sameId

theorem Forest.lineage_of_mem_ids (forest : arena.Forest kids)
    (held : arena.Holds kids tree) {ancestors : List NodeId}
    (lineage : arena.Lineage tree.id ancestors) (member : id ∈ tree.ids) :
    ∃ between above, arena.Lineage id above ∧
      id :: above = between ++ tree.id :: ancestors := by
  induction tree generalizing ancestors with
  | node root payload children induction =>
      obtain ⟨carried, below, held⟩ := holds_node.mp held
      obtain ⟨node, found, _⟩ := carried?_eq_some.mp carried
      rw [Subtree.ids_node] at member
      rcases List.mem_cons.mp member with rfl | deeper
      · exact ⟨[], ancestors, lineage, rfl⟩
      · obtain ⟨child, isChild, deeper⟩ := List.mem_flatMap.mp deeper
        have listed : child.id ∈ kids root := by
          rw [below]
          exact List.mem_map_of_mem isChild
        obtain ⟨between, above, climbs, split⟩ :=
          induction child isChild (held child isChild)
            (forest.lineage_of_mem listed lineage) deeper
        exact ⟨between ++ [child.id], above, climbs, by simp [split]⟩

private theorem Forest.disjoint_children (forest : arena.Forest kids)
    {first second : Subtree P} {parent : NodeId}
    (heldFirst : arena.Holds kids first) (heldSecond : arena.Holds kids second)
    (isFirst : first.id ∈ kids parent) (isSecond : second.id ∈ kids parent)
    (inFirst : id ∈ first.ids) (inSecond : id ∈ second.ids) :
    first.id = second.id := by
  obtain ⟨node, found⟩ := forest.parent_live isFirst
  obtain ⟨ancestors, lineage⟩ := forest.grounded found
  obtain ⟨between, above, climbs, split⟩ := forest.lineage_of_mem_ids heldFirst
    (forest.lineage_of_mem isFirst lineage) inFirst
  obtain ⟨others, again, climbsAgain, splitAgain⟩ :=
    forest.lineage_of_mem_ids heldSecond
      (forest.lineage_of_mem isSecond lineage) inSecond
  rw [climbs.unique climbsAgain, splitAgain] at split
  have := (List.append_inj' split (by simp)).2
  simp only [List.cons.injEq] at this
  exact this.1.symm

theorem Forest.nodup_ids (forest : arena.Forest kids)
    (held : arena.Holds kids tree) : tree.ids.Nodup := by
  induction tree with
  | node root payload children induction =>
      obtain ⟨carried, below, held⟩ := holds_node.mp held
      obtain ⟨node, found, _⟩ := carried?_eq_some.mp carried
      obtain ⟨ancestors, lineage⟩ := forest.grounded found
      have listed : ∀ child ∈ children, child.id ∈ kids root := by
        intro child member
        rw [below]
        exact List.mem_map_of_mem member
      have distinct : children.Pairwise fun left right => left.id ≠ right.id := by
        have := forest.nodup root
        rw [below, List.Nodup, List.pairwise_map] at this
        exact this
      rw [Subtree.ids_node, List.nodup_cons]
      constructor
      · intro deeper
        obtain ⟨child, isChild, deeper⟩ := List.mem_flatMap.mp deeper
        obtain ⟨between, above, climbs, split⟩ :=
          forest.lineage_of_mem_ids (held child isChild)
            (forest.lineage_of_mem (listed child isChild) lineage) deeper
        rw [lineage.unique climbs] at split
        have := congrArg List.length split
        simp at this
        omega
      · rw [List.Nodup, List.pairwise_flatMap]
        refine ⟨fun child member => induction child member (held child member),
          distinct.imp_of_mem ?_⟩
        rintro left right leftMember rightMember different _ inLeft _ inRight rfl
        exact different (forest.disjoint_children (held left leftMember)
          (held right rightMember) (listed left leftMember)
          (listed right rightMember) inLeft inRight)

theorem Forest.length_ids_le (forest : arena.Forest kids)
    (held : arena.Holds kids tree) : tree.ids.length ≤ arena.slots.size :=
  length_le_slots (forest.nodup_ids held) fun _ member =>
    contains_iff.mpr (held.live member)

theorem Forest.exists_subtree (forest : arena.Forest kids) {node : Node P}
    (found : arena.node? id = some node) :
    ∃ tree : Subtree P, tree.id = id ∧ arena.Holds kids tree := by
  -- Lineages are shorter than there are slots, and grow with each level.
  suffices reach : ∀ room id ancestors, arena.Lineage id ancestors →
      arena.slots.size ≤ ancestors.length + room →
      ∃ tree : Subtree P, tree.id = id ∧ arena.Holds kids tree by
    obtain ⟨ancestors, lineage⟩ := forest.grounded found
    exact reach arena.slots.size id ancestors lineage (by omega)
  intro room
  induction room with
  | zero =>
      intro id ancestors lineage room
      have := lineage.length_lt
      omega
  | succ room induction =>
      intro id ancestors lineage enough
      obtain ⟨node, found⟩ := lineage.live
      have below : ∀ child, child ∈ kids id →
          ∃ tree : Subtree P, tree.id = child ∧ arena.Holds kids tree := by
        intro child member
        refine induction child (id :: ancestors)
          (forest.lineage_of_mem member lineage) ?_
        simp only [List.length_cons]
        omega
      have collected : ∀ listed : List NodeId,
          (∀ child ∈ listed, child ∈ kids id) →
          ∃ trees : List (Subtree P), trees.map Subtree.id = listed ∧
            ∀ tree ∈ trees, arena.Holds kids tree := by
        intro listed
        induction listed with
        | nil => exact fun _ => ⟨[], rfl, by simp⟩
        | cons child rest collect =>
            intro members
            obtain ⟨tree, isChild, held⟩ := below child (members child (by simp))
            obtain ⟨trees, labels, allHeld⟩ :=
              collect fun other member => members other (by simp [member])
            exact ⟨tree :: trees, by simp [isChild, labels],
              by simpa using ⟨held, allHeld⟩⟩
      obtain ⟨trees, labels, held⟩ := collected (kids id) fun _ member => member
      exact ⟨.node id node.payload trees, rfl,
        holds_node.mpr ⟨carried?_of_node? found, labels.symm, held⟩⟩

theorem Holds.listing (held : arena.Holds kids tree) :
    Listing (fun id children => kids id = children) [tree.id] tree.ids := by
  induction tree with
  | node root payload children induction =>
      obtain ⟨_, below, inside⟩ := holds_node.mp held
      rw [Subtree.ids_node]
      refine .cons below ?_
      rw [List.append_nil]
      exact Listing.flatMap fun child member => induction child member (inside child member)

theorem Holds.ids_eq {other : Arena P} {again : Subtree P} (held : arena.Holds kids tree)
    (alsoHeld : other.Holds kids again) (same : again.id = tree.id) :
    again.ids = tree.ids := by
  have listing := alsoHeld.listing
  rw [same] at listing
  exact listing.unique held.listing fun _ _ _ here there => here.symm.trans there

theorem Forest.listing (forest : arena.Forest kids)
    (held : arena.Holds kids tree) :
    Listing (fun id children => arena.children id = .ok children)
      [tree.id] tree.ids := by
  refine held.listing.imp fun id member children below => ?_
  obtain ⟨node, found⟩ := held.live member
  rw [forest.children_eq found, below]

end

theorem preorder_of_listing {arena : Arena P} {id : NodeId}
    {order : List NodeId}
    (listing : Listing (fun id children => arena.children id = .ok children)
      [id] order)
    (enough : order.length ≤ arena.slots.size) :
    arena.preorder id = .ok order := by
  unfold preorder
  have walked : exhaust arena.preorderVisit arena.visits [] [id] =
      order.foldlM (fun seen current => .ok (current :: seen)) [] := by
    refine listing.exhaust_eq ?_ (Nat.le_succ_of_le enough) []
    intro current _ children isBelow seen
    rw [preorderVisit, bind_of_ok isBelow]
    rfl
  have gathered := @foldlM_gathers _ _ (fun seen current => .ok (current :: seen))
    (fun current => [current]) order (fun _ _ _ => rfl) []
  rw [walked, gathered, bind_of_ok rfl]
  simp [pure, Except.pure]

theorem Forest.preorder_eq {arena : Arena P} {kids : NodeId → List NodeId}
    {tree : Subtree P} (forest : arena.Forest kids)
    (held : arena.Holds kids tree) :
    arena.preorder tree.id = .ok tree.ids :=
  preorder_of_listing (forest.listing held) (forest.length_ids_le held)

end Arena

end LinkedBTree
