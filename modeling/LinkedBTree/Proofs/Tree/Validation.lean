import LinkedBTree.Proofs.Tree.History
import LinkedBTree.Proofs.Tree.Regular

namespace LinkedBTree

/-! Validation under a comparator that orders the values and never fails: it
finds exactly the trees that are in order. -/

variable {α σ : Type}

open Subtree

structure Accounted (answer : α → α → Ordering) (table : ValueTable α)
    (entries : List (Entry α)) : Prop where
  live : ∀ entry ∈ entries, ∃ stored,
    table.value? entry.index = some stored ∧ answer entry.value stored = .eq
  distinct : entries.Pairwise fun left right => left.index ≠ right.index

theorem Accounted.of_append {answer : α → α → Ordering} {table : ValueTable α}
    {left right : List (Entry α)}
    (accounted : Accounted answer table (left ++ right)) :
    Accounted answer table left where
  live entry member := accounted.live entry (List.mem_append_left _ member)
  distinct := (List.pairwise_append.mp accounted.distinct).1

namespace Tree

structure Tallied (tree : Tree α) (entries : List (Entry α)) (tally : Tally) :
    Prop where
  size : tally.claimed.size = tree.values.size
  claimed : ∀ index, tally.claimed[index]? = some true ↔
    ∃ entry ∈ entries, entry.index = index
  values : tally.values = entries.length

variable {tree : Tree α} {compare : Comparator σ α}
  {answer : α → α → Ordering} {id : NodeId} {list : EntryList α}
  {limits : Limits α} {entry : Entry α} {entries seen : List (Entry α)}
  {tally : Tally}

private theorem ascending_cons_cons_iff [Std.TransCmp answer]
    {first second : α} {rest : List α} :
    Ascending answer (first :: second :: rest) ↔
      answer first second = .lt ∧ Ascending answer (second :: rest) := by
  unfold Ascending
  rw [List.pairwise_cons]
  constructor
  · rintro ⟨less, later⟩
    exact ⟨less second (by simp), later⟩
  · rintro ⟨less, later⟩
    refine ⟨List.forall_mem_cons.mpr ⟨less, fun other member => ?_⟩, later⟩
    exact Std.TransCmp.lt_trans less ((List.pairwise_cons.mp later).1 other member)

theorem checkSorted_verifies [Std.TransCmp answer]
    (answers : compare.Answers answer) (id : NodeId) (entries : List (Entry α))
    (position : Nat) :
    Verifies (Ascending answer (entries.map Entry.value))
      (checkSorted id compare entries position) fun _ => True := by
  induction entries generalizing position with
  | nil => exact .pure .nil trivial
  | cons first rest induction =>
      cases rest with
      | nil => exact .pure (List.pairwise_singleton ..) trivial
      | cons second rest =>
          rw [List.map_cons, List.map_cons, ascending_cons_cons_iff]
          exact .ask answers (.require rfl (induction (position + 1)))

theorem checkLimits_verifies (answers : compare.Answers answer) (id : NodeId)
    (list : EntryList α) (limits : Limits α) (isLeaf : Bool) :
    Verifies (limits.Admits answer list.entries isLeaf)
      (checkLimits id compare list limits isLeaf) fun _ => True := by
  unfold checkLimits
  extract_lets checkUpper
  have high : Verifies (∀ upper last, limits.upper = some upper →
      list.last? = some last → answer last.value upper.value ≠ .gt ∧
        (isLeaf = true → answer last.value upper.value ≠ .lt))
      (checkUpper ()) fun _ => True := by
    unfold checkUpper
    cases isUpper : limits.upper with
    | none => exact .pure nofun trivial
    | some upper =>
        cases isLast : list.last? with
        | none => exact .pure nofun trivial
        | some last =>
            simp only [Option.some.injEq, forall_apply_eq_imp_iff, forall_eq']
            refine .ask answers ?_
            cases answer last.value upper.value with
            | gt => exact .raise rfl fun holds => holds.1 rfl
            | eq => exact .pure ⟨nofun, nofun⟩ trivial
            | lt =>
                cases isLeaf with
                | true => exact .raise rfl fun holds => holds.2 rfl rfl
                | false => exact .pure ⟨nofun, nofun⟩ trivial
  cases isLower : limits.lower with
  | none =>
      refine high.congr ⟨fun below => ⟨?_, below⟩, fun admits => admits.below⟩
      simp [isLower]
  | some lower =>
      cases isFirst : list.first? with
      | none =>
          refine high.congr ⟨fun below => ⟨?_, below⟩, fun admits => admits.below⟩
          intro _ _ _ first
          cases isFirst.symm.trans first
      | some first =>
          apply Verifies.congr (.ask answers (.require rfl high))
          constructor
          · rintro ⟨greater, below⟩
            refine ⟨fun other entry isOther isEntry => ?_, below⟩
            obtain rfl := Option.some.inj (isLower.symm.trans isOther)
            obtain rfl := Option.some.inj (isFirst.symm.trans isEntry)
            exact greater
          · intro admits
            exact ⟨admits.above lower first isLower isFirst, admits.below⟩

private theorem accounted_concat
    (accounted : Accounted answer tree.values seen) :
    Accounted answer tree.values (seen ++ [entry]) ↔
      (∃ stored, tree.values.value? entry.index = some stored ∧
        answer entry.value stored = .eq) ∧
      ∀ other ∈ seen, other.index ≠ entry.index := by
  constructor
  · rintro ⟨live, distinct⟩
    refine ⟨live entry (by simp), fun other member => ?_⟩
    exact (List.pairwise_append.mp distinct).2.2 other member entry (by simp)
  · rintro ⟨isLive, apart⟩
    constructor
    · intro other member
      rcases List.mem_append.mp member with earlier | isSame
      · exact accounted.live other earlier
      · rwa [List.mem_singleton.mp isSame]
    · refine List.pairwise_append.mpr
        ⟨accounted.distinct, List.pairwise_singleton .., ?_⟩
      intro other member last isLast
      rw [List.mem_singleton.mp isLast]
      exact apart other member

private theorem Tallied.concat {stored : α}
    (tallied : tree.Tallied seen tally)
    (live : tree.values.value? entry.index = some stored) :
    tree.Tallied (seen ++ [entry])
      { claimed := tally.claimed.setIfInBounds entry.index true
        values := tally.values + 1 } := by
  have inRange : entry.index < tally.claimed.size := by
    rw [tallied.size]
    exact ValueTable.lt_size_of_value? live
  refine ⟨?_, fun index => ?_, ?_⟩
  · simpa using tallied.size
  · rw [Array.getElem?_setIfInBounds]
    by_cases same : entry.index = index
    · simp [same ▸ inRange, same]
    · rw [if_neg same, tallied.claimed]
      simp [same]
  · simp [tallied.values]

theorem claim_verifies (answers : compare.Answers answer) (id : NodeId)
    (accounted : Accounted answer tree.values seen)
    (tallied : tree.Tallied seen tally) (entry : Entry α) :
    Verifies (Accounted answer tree.values (seen ++ [entry]))
      (tree.claim id compare tally entry) (tree.Tallied (seen ++ [entry])) := by
  have claimed := tallied.claimed entry.index
  unfold claim
  rw [accounted_concat accounted]
  cases live : tree.values.value? entry.index with
  | none =>
      refine .raise rfl fun holds => ?_
      obtain ⟨stored, isLive, _⟩ := holds.1
      cases isLive
  | some stored =>
      refine Verifies.congr (.ask answers (.require rfl
        (.guard rfl fun _ => .pure trivial (tallied.concat live)))) ?_
      rw [claimed]
      simp

theorem claims_verifies (answers : compare.Answers answer) (id : NodeId)
    (accounted : Accounted answer tree.values seen)
    (tallied : tree.Tallied seen tally) (entries : List (Entry α)) :
    Verifies (Accounted answer tree.values (seen ++ entries))
      (entries.foldlM (tree.claim id compare) tally)
      (tree.Tallied (seen ++ entries)) := by
  induction entries generalizing seen tally with
  | nil =>
      rw [List.append_nil]
      exact .pure accounted tallied
  | cons entry rest induction =>
      rw [List.foldlM_cons, List.append_cons]
      have claims := Verifies.bind
        (claim_verifies answers id accounted tallied entry)
        fun accounted tally tallied => induction accounted tallied
      exact claims.congr ⟨And.right, fun both => ⟨both.of_append, both⟩⟩

theorem checkLeaf_verifies (answers : compare.Answers answer)
    (id : NodeId) (list : EntryList α) (limits : Limits α)
    (accounted : Accounted answer tree.values seen)
    (tallied : tree.Tallied seen tally) :
    Verifies ((list.entries = [] → id = tree.root) ∧
        limits.Admits answer list.entries true ∧
        (∀ upper, limits.upper = some upper →
          list.last?.map Entry.index = some upper.index) ∧
        Accounted answer tree.values (seen ++ list.entries))
      (tree.checkLeaf id compare tally list limits)
      (tree.Tallied (seen ++ list.entries)) := by
  have claims := claims_verifies answers id accounted tallied list.entries
  have filled : ¬(list.isEmpty = true ∧ id ≠ tree.root) ↔
      (list.entries = [] → id = tree.root) := by
    simp [EntryList.isEmpty]
  unfold checkLeaf
  rw [← filled]
  refine .guard rfl fun _ => ?_
  refine .bind (checkLimits_verifies answers id list limits true) fun _ _ _ => ?_
  cases limits.upper with
  | none => exact claims.congr (by simp)
  | some upper =>
      simp only [Option.some.injEq, forall_eq']
      exact .require rfl claims

private theorem checkParents_eq {kids : NodeId → List NodeId}
    (forest : tree.arena.Forest kids) {children : List NodeId}
    (inside : ∀ child ∈ children, child ∈ kids id) :
    children.forM (tree.checkParent id) = .ok () := by
  induction children with
  | nil => rfl
  | cons child rest induction =>
      obtain ⟨node, found, isParent⟩ := forest.of_mem (inside child (by simp))
      have checked : tree.checkParent id child = .ok () := by
        unfold checkParent
        rw [bind_of_ok (Arena.read_eq found), isParent]
        exact if_neg fun other => other rfl
      show (tree.checkParent id child >>= fun _ => _) = _
      rw [bind_of_ok checked]
      exact induction fun other member => inside other (by simp [member])

theorem checkBranch_verifies (answers : compare.Answers answer)
    {kids : NodeId → List NodeId} {node : Node (EntryList α)}
    (forest : tree.arena.Forest kids) (found : tree.arena.node? id = some node)
    (list : EntryList α) (limits : Limits α) :
    Verifies ((kids id).length = list.length + 1 ∧
        limits.Admits answer list.entries false)
      (tree.checkBranch id compare node list limits)
      (· = childLimits limits (kids id) list.entries) := by
  unfold checkBranch
  refine .lift_bind (forest.childList_eq found) ?_
  refine .require rfl ?_
  have checked : (kids id).reverse.forM (tree.checkParent id) = .ok () :=
    checkParents_eq forest fun _ => List.mem_reverse.mp
  have limited := checkLimits_verifies answers id list limits false
  refine Verifies.congr (limited.bind fun _ _ _ => ?_)
    (and_iff_left trivial)
  exact .lift_bind checked (.pure trivial rfl)

/-- A walk checks all of these subtrees, each within its limits, before it goes
on with whatever else is pending. -/
private def Walks (tree : Tree α) (compare : Comparator σ α)
    (answer : α → α → Ordering) (items : List (Shape α × Limits α)) : Prop :=
  ∀ (bound : Nat) (pending : List (NodeId × Limits α)) (rest : Prop)
    (good : Tally → Prop) (seen : List (Entry α)) (tally : Tally),
    Accounted answer tree.values seen → tree.Tallied seen tally →
    (∀ tally, Accounted answer tree.values
        (seen ++ items.flatMap fun item => item.1.entries) →
      tree.Tallied (seen ++ items.flatMap fun item => item.1.entries) tally →
      Verifies rest
        (exhaust (tree.validateVisit compare) bound tally pending) good) →
    Verifies ((∀ item ∈ items, item.1.Obeys answer tree.root item.2) ∧
        Accounted answer tree.values
          (seen ++ items.flatMap fun item => item.1.entries) ∧ rest)
      (exhaust (tree.validateVisit compare)
        ((items.flatMap fun item => item.1.ids).length + bound) tally
        (items.map (fun item => (item.1.id, item.2)) ++ pending)) good

private theorem Walks.of_each {items : List (Shape α × Limits α)}
    (each : ∀ item ∈ items, Walks tree compare answer [item]) :
    Walks tree compare answer items := by
  induction items with
  | nil =>
      intro bound pending rest good seen tally accounted tallied goes
      simp only [List.flatMap_nil, List.append_nil, List.length_nil,
        Nat.zero_add, List.map_nil, List.nil_append] at goes ⊢
      apply (goes tally accounted tallied).congr
      simp [accounted]
  | cons item items induction =>
      intro bound pending rest good seen tally accounted tallied goes
      have later := induction fun other member => each other (by simp [member])
      have first := each item (by simp)
      have walked := first ((items.flatMap fun item => item.1.ids).length + bound)
        (items.map (fun item => (item.1.id, item.2)) ++ pending) _ good seen tally
        accounted tallied fun tally accounted tallied =>
          later bound pending rest good _ tally accounted tallied
            (by simpa using goes)
      simp only [List.flatMap_cons, List.flatMap_nil, List.append_nil,
        List.map_cons, List.map_nil, List.cons_append, List.nil_append,
        List.length_append, ← List.append_assoc, Nat.add_assoc] at walked ⊢
      apply walked.congr
      rw [List.forall_mem_singleton, List.forall_mem_cons]
      constructor
      · rintro ⟨obeys, _, others, accounted, is⟩
        exact ⟨⟨obeys, others⟩, accounted, is⟩
      · rintro ⟨⟨obeys, others⟩, accounted, is⟩
        exact ⟨obeys, accounted.of_append, others, accounted, is⟩

/-- The whole tree below the root is in order, and its leaves hold what the
values array holds. -/
structure Consistent (answer : α → α → Ordering) (tree : Tree α)
    (shape : Shape α) : Prop where
  regular : ∀ part ∈ shape.parts, part.Regular answer tree.root
  ascending : Ascending answer (shape.entries.map Entry.value)
  accounted : Accounted answer tree.values shape.entries
  counted : shape.entries.length = tree.size

private theorem obeys_unlimited_iff {shape : Shape α} :
    shape.Obeys answer tree.root {} ↔
      (∀ part ∈ shape.parts, part.Regular answer tree.root) ∧
        Ascending answer (shape.entries.map Entry.value) :=
  ⟨fun obeys => ⟨obeys.regular, obeys.ascending⟩,
    fun both => ⟨both.1, both.2, nofun, nofun⟩⟩

section

variable {kids : NodeId → List NodeId} {payload : Option (EntryList α)}
  {children : List (Shape α)} [Std.TransCmp answer]

private theorem visit_unlisted
    (held : tree.arena.Holds kids (.node id none children)) :
    Verifies False (tree.validateVisit compare tally (id, limits))
      fun _ => True := by
  obtain ⟨node, found, isPayload⟩ :=
    Arena.carried?_eq_some.mp (Arena.holds_node.mp held).1
  have unlisted : listOf id node = .error (.cause (.noValueList id)) := by
    unfold listOf
    rw [isPayload]
    rfl
  exact .lift_bind (Arena.read_eq found) (.refuse unlisted rfl)

private theorem node_of_held (forest : tree.arena.Forest kids)
    (held : tree.arena.Holds kids (.node id (some list) children)) :
    ∃ node, tree.arena.node? id = some node ∧ listOf id node = .ok list ∧
      (node.isLeaf = true ↔ children = []) := by
  obtain ⟨carried, below, _⟩ := Arena.holds_node.mp held
  obtain ⟨node, found, isPayload⟩ := Arena.carried?_eq_some.mp carried
  refine ⟨node, found, listOf_eq isPayload, ?_⟩
  rw [forest.isLeaf_iff found, below, List.map_eq_nil_iff]

private theorem visit_leaf (answers : compare.Answers answer)
    (forest : tree.arena.Forest kids)
    (held : tree.arena.Holds kids (.node id (some list) []))
    (accounted : Accounted answer tree.values seen)
    (tallied : tree.Tallied seen tally) :
    Verifies ((node id (some list) []).Obeys answer tree.root limits ∧
        Accounted answer tree.values (seen ++ list.entries))
      (tree.validateVisit compare tally (id, limits))
      fun outcome => outcome.2 = [] ∧
        tree.Tallied (seen ++ list.entries) outcome.1 := by
  obtain ⟨node, found, isList, isLeaf⟩ := node_of_held forest held
  have checks := Verifies.bind (checkSorted_verifies answers id list.entries 0)
    fun _ _ _ => Verifies.bind
      (checkLeaf_verifies answers id list limits accounted tallied)
      fun _ tally tallied => (Verifies.pure trivial ⟨rfl, tallied⟩ :
        Verifies True (pure (tally, ([] : List (NodeId × Limits α))) :
          EStateM Error σ _) fun outcome => outcome.2 = [] ∧
            tree.Tallied (seen ++ list.entries) outcome.1)
  refine .lift_bind (Arena.read_eq found) ?_
  refine .lift_bind isList ?_
  rw [isLeaf.mpr rfl]
  apply checks.congr
  rw [obeys_leaf_iff]
  constructor
  · rintro ⟨ascending, ⟨filled, admits, same, accounted⟩, -⟩
    exact ⟨⟨ascending, filled, admits, same⟩, accounted⟩
  · rintro ⟨⟨ascending, filled, admits, same⟩, accounted⟩
    exact ⟨ascending, ⟨filled, admits, same, accounted⟩, trivial⟩

private theorem visit_branch (answers : compare.Answers answer)
    (forest : tree.arena.Forest kids)
    (held : tree.arena.Holds kids (.node id (some list) children))
    (inner : children ≠ []) :
    Verifies (Ascending answer (list.entries.map Entry.value) ∧
        children.length = list.length + 1 ∧
        limits.Admits answer list.entries false)
      (tree.validateVisit compare tally (id, limits))
      (· = (tally, (limits.among children list.entries).map fun item =>
        (item.1.id, item.2))) := by
  obtain ⟨node, found, isList, isLeaf⟩ := node_of_held forest held
  have isBranch : node.isLeaf = false :=
    Bool.eq_false_iff.mpr fun single => inner (isLeaf.mp single)
  have below := (Arena.holds_node.mp held).2.1
  have checked := checkBranch_verifies answers forest found list limits
  rw [below, List.length_map, Limits.childLimits_eq] at checked
  refine .lift_bind (Arena.read_eq found) ?_
  refine .lift_bind isList ?_
  refine .bind (checkSorted_verifies answers id list.entries 0) fun _ _ _ => ?_
  rw [isBranch]
  refine Verifies.congr (checked.bind fun _ items isItems => ?_)
    (and_iff_left trivial)
  rw [isItems]
  exact .pure trivial rfl

private theorem walks_subtree (answers : compare.Answers answer)
    (forest : tree.arena.Forest kids) {shape : Shape α}
    (held : tree.arena.Holds kids shape) (limits : Limits α) :
    Walks tree compare answer [(shape, limits)] := by
  induction shape using Subtree.induction generalizing limits with
  | node id payload children induction =>
      intro bound pending rest good seen tally accounted tallied goes
      simp only [List.flatMap_singleton, List.map_singleton,
        List.cons_append, List.nil_append, ids_node, List.length_cons,
        Nat.add_right_comm _ 1, exhaust_cons, List.forall_mem_singleton,
        id_node] at goes ⊢
      cases payload with
      | none =>
          refine .fail_bind (visit_unlisted held) fun both => ?_
          have own := both.1.regular (node id none children) (by simp)
          exact own.listed rfl
      | some list =>
          by_cases inner : children = []
          · subst inner
            rw [entries_leaf] at goes ⊢
            refine Verifies.congr (.bind
              (visit_leaf answers forest held accounted tallied)
              fun both outcome known => ?_) and_assoc
            rw [known.1]
            simpa using goes outcome.1 both.2 known.2
          · have each : ∀ item ∈ limits.among children list.entries,
                Walks tree compare answer [item] := by
              intro item member
              have isChild : item.1 ∈ children := by
                rw [← limits.map_fst_among children list.entries]
                exact List.mem_map_of_mem member
              exact induction item.1 isChild
                ((Arena.holds_node.mp held).2.2 item.1 isChild) item.2
            have walked := Walks.of_each each bound pending rest good seen tally
              accounted tallied
            rw [limits.flatMap_among, limits.flatMap_among,
              ← entries_branch inner] at walked
            apply Verifies.congr
            · apply Verifies.bind (visit_branch answers forest held inner)
              intro _ outcome isOutcome
              rw [isOutcome]
              exact walked goes
            · rw [obeys_branch_iff inner]
              constructor
              · rintro ⟨⟨ascending, length, admits⟩, below, accounted, is⟩
                exact ⟨⟨ascending, length, admits, below⟩, accounted, is⟩
              · rintro ⟨⟨ascending, length, admits, below⟩, accounted, is⟩
                exact ⟨⟨ascending, length, admits⟩, below, accounted, is⟩

theorem validate_verifies (answers : compare.Answers answer)
    (forest : tree.arena.Forest kids) {shape : Shape α}
    (held : tree.arena.Holds kids shape) (isRoot : shape.id = tree.root) :
    Verifies (tree.Consistent answer shape) (tree.validate compare)
      fun _ => True := by
  have enough := forest.length_ids_le held
  obtain ⟨spare, isSpare⟩ := Nat.exists_eq_add_of_le (Nat.le_succ_of_le enough)
  have fresh : tree.Tallied []
      { claimed := Array.replicate tree.values.size false } := by
    refine ⟨by simp, fun index => ?_, rfl⟩
    simp [Array.getElem?_replicate]
  have walked := walks_subtree answers forest held {} spare [] True
    (tree.Tallied shape.entries) [] _ ⟨by simp, .nil⟩ fresh
    fun tally accounted tallied => by
      rw [exhaust_nil]
      exact .pure trivial (by simpa using tallied)
  simp only [List.forall_mem_singleton, List.flatMap_singleton, List.nil_append,
    List.append_nil, List.map_singleton] at walked
  unfold validate Arena.visits
  rw [← Nat.succ_eq_add_one, isSpare, ← isRoot]
  apply Verifies.congr
  · apply Verifies.bind walked
    intro _ tally tallied
    rw [tallied.values]
    by_cases counted : shape.entries.length = tree.size
    · rw [if_neg (not_not_intro counted)]
      exact .pure counted trivial
    · rw [if_pos counted]
      exact .raise rfl counted
  · rw [obeys_unlimited_iff]
    constructor
    · rintro ⟨⟨⟨regular, ascending⟩, accounted, _⟩, counted⟩
      exact ⟨regular, ascending, accounted, counted⟩
    · rintro ⟨regular, ascending, accounted, counted⟩
      exact ⟨⟨⟨regular, ascending⟩, accounted, trivial⟩, counted⟩

/-- Validation accepts a tree exactly if everything in it is in order, and
reports corruption otherwise. -/
theorem validate_exact (forest : tree.arena.Forest kids)
    (live : tree.arena.contains tree.root = true)
    (answers : compare.Answers answer) :
    ∃ shape : Shape α, shape.id = tree.root ∧ tree.arena.Holds kids shape ∧
      ∀ state,
        ((∃ after, tree.validate compare state = .ok () after) ↔
          tree.Consistent answer shape) ∧
        (¬tree.Consistent answer shape → ∃ error after,
          tree.validate compare state = .error error after ∧
            error.root.category = .corruption) := by
  obtain ⟨node, found⟩ := Arena.contains_iff.mp live
  obtain ⟨shape, isRoot, held⟩ := forest.exists_subtree found
  refine ⟨shape, isRoot, held, fun state => ?_⟩
  rcases (validate_verifies answers forest held isRoot).cases state with
    ⟨_, after, accepted, consistent, _⟩ | ⟨error, after, refused, corrupt, not⟩
  · refine ⟨⟨fun _ => consistent, fun _ => ⟨after, accepted⟩⟩, fun not => ?_⟩
    exact absurd consistent not
  · refine ⟨⟨?_, fun consistent => absurd consistent not⟩, fun _ => ?_⟩
    · rintro ⟨other, accepted⟩
      cases refused.symm.trans accepted
    · exact ⟨error, after, refused, corrupt⟩

theorem validate_exact_disordered :
    ∃ (tree : Tree Nat) (kids : NodeId → List NodeId),
      tree.arena.Forest kids ∧ tree.arena.contains tree.root = true ∧
      tree.list tree.root = .ok ⟨[⟨2, 0⟩, ⟨1, 1⟩]⟩ ∧
      ∃ error after, tree.validate
        (fun left right _ => .ok (Ord.compare left right) ()) () =
          .error error after ∧ error.root.category = .corruption := by
  have valid : ({ maxValues := 2 } : Config).Valid := by
    constructor <;> decide
  obtain ⟨start, _, stands, _⟩ := @standing_withConfig Nat _ valid
  have empty : start.Embodies (plug [] (.node start.root (some {}) [])) :=
    stands.embodies
  have embodies := empty.setList ⟨[⟨2, 0⟩, ⟨1, 1⟩]⟩
  have isList := embodies.list_eq
  obtain ⟨_, kids, whole⟩ := embodies
  have live := Arena.contains_iff.mpr (whole.held.live (id_mem_ids _))
  have answers : Comparator.Answers
      (fun left right (_ : Unit) => .ok (Ord.compare left right) ())
      (Ord.compare : Nat → Nat → Ordering) := fun _ _ _ => ⟨(), rfl⟩
  obtain ⟨shape, isRoot, held, told⟩ := validate_exact whole.forest live answers
  refine ⟨_, kids, whole.forest, live, isList, (told ()).2 fun consistent => ?_⟩
  obtain ⟨id, payload, children⟩ := shape
  obtain rfl : id = start.root := isRoot
  have carried := (Arena.holds_node.mp held).1
  obtain rfl := Option.some.inj
    (carried.symm.trans (Arena.holds_node.mp whole.held).1)
  have own := consistent.regular
    (.node start.root (some ⟨[⟨2, 0⟩, ⟨1, 1⟩]⟩) children) (by simp)
  have ascending : Ascending Ord.compare [2, 1] := own.ascending
  have less : Ord.compare 2 1 = .lt :=
    (List.pairwise_cons.mp ascending).1 1 (by simp)
  exact absurd less (by decide)

end

end Tree

end LinkedBTree
