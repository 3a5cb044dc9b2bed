import LinkedBTree.Proofs.Consulting
import LinkedBTree.Proofs.OrderedSet
import LinkedBTree.Proofs.Arena.Relinking

namespace LinkedBTree

/-! Ordered insertions one after another: they sort the children, and keep equal
ones in the order in which they came. -/

section

variable {α : Type} {answer : α → α → Ordering} {entries sorted others : List α}
  {new : α} {before behind : List α}

open Std

/-- The same entries in order, and equal ones as they stood. -/
structure StablySorts (answer : α → α → Ordering) (entries sorted : List α) :
    Prop where
  perm : sorted.Perm entries
  ordered : sorted.Pairwise fun left right => (answer left right).isLE
  stable : ∀ value, (sorted.filter fun entry => answer value entry = .eq) =
    entries.filter fun entry => answer value entry = .eq

variable [TransCmp answer]

private theorem isLE_head {first : α} {rest : List α}
    (ordered : (first :: rest).Pairwise fun left right => (answer left right).isLE)
    (member : new ∈ first :: rest) : (answer first new).isLE := by
  rcases List.mem_cons.mp member with rfl | inRest
  · exact ReflCmp.isLE_rfl
  · exact List.rel_of_pairwise_cons ordered inRest

theorem StablySorts.unique (sorts : StablySorts answer entries sorted)
    (again : StablySorts answer entries others) : sorted = others := by
  have perm := sorts.perm.trans again.perm.symm
  have stable : ∀ value, (sorted.filter fun entry => answer value entry = .eq) =
      others.filter fun entry => answer value entry = .eq :=
    fun value => (sorts.stable value).trans (again.stable value).symm
  have isOrdered := sorts.ordered
  have alsoOrdered := again.ordered
  clear sorts again
  induction sorted generalizing others with
  | nil => exact perm.nil_eq
  | cons first rest induction =>
      cases others with
      | nil => exact perm.eq_nil
      | cons other remaining =>
          -- Neither head comes after the other, so they are equal, and stability
          -- tells which of two equal entries is first.
          have notAfter := isLE_head isOrdered (perm.mem_iff.mpr List.mem_cons_self)
          have notBefore := isLE_head alsoOrdered (perm.mem_iff.mp List.mem_cons_self)
          have itself : answer first first = .eq := ReflCmp.compare_self
          have equal : answer first other = .eq := OrientedCmp.isLE_antisymm notAfter notBefore
          have heads := stable first
          rw [List.filter_cons_of_pos (by simp [itself]),
            List.filter_cons_of_pos (by simp [equal])] at heads
          obtain ⟨rfl, _⟩ := List.cons.inj heads
          congr 1
          refine induction perm.cons_inv (fun value => ?_) isOrdered.of_cons
            alsoOrdered.of_cons
          have both := stable value
          by_cases isEqual : answer value first = .eq
          · simpa [isEqual] using both
          · simpa [isEqual] using both

theorem stablySorts_mergeSort (entries : List α) :
    StablySorts answer entries
      (entries.mergeSort fun left right => (answer left right).isLE) := by
  have isTrans : ∀ left middle right, (answer left middle).isLE →
      (answer middle right).isLE → (answer left right).isLE :=
    fun _ _ _ first second => TransCmp.isLE_trans first second
  have isTotal : ∀ left right,
      ((answer left right).isLE || (answer right left).isLE) = true := by
    intro left right
    have swapped : answer right left = (answer left right).swap := OrientedCmp.eq_swap
    rw [swapped]
    cases answer left right <;> rfl
  have perm := entries.mergeSort_perm fun left right => (answer left right).isLE
  refine ⟨perm, List.pairwise_mergeSort isTrans isTotal entries, fun value => ?_⟩
  have ordered : (entries.filter fun entry => answer value entry = .eq).Pairwise
      fun left right => (answer left right).isLE := by
    refine List.pairwise_of_forall_mem_list fun left isLeft right isRight => ?_
    have leftEq := of_decide_eq_true (List.mem_filter.mp isLeft).2
    have rightEq := of_decide_eq_true (List.mem_filter.mp isRight).2
    rw [TransCmp.eq_trans (OrientedCmp.eq_symm leftEq) rightEq]
    rfl
  have within := (List.sublist_mergeSort isTrans isTotal ordered List.filter_sublist).filter
    fun entry => answer value entry = .eq
  rw [List.filter_filter] at within
  simp only [Bool.and_self] at within
  exact (within.eq_of_length (perm.filter _).length_eq.symm).symm

theorem StablySorts.insert (sorts : StablySorts answer entries (before ++ behind))
    (passed : ∀ entry ∈ before, answer new entry ≠ .lt)
    (less : ∀ entry ∈ behind, answer new entry = .lt) :
    StablySorts answer (entries ++ [new]) (before ++ new :: behind) where
  perm := List.perm_middle.trans
    ((sorts.perm.cons new).trans (List.perm_append_singleton new entries).symm)
  ordered := by
    obtain ⟨isBefore, isBehind, apart⟩ := List.pairwise_append.mp sorts.ordered
    refine List.pairwise_append.mpr ⟨isBefore, List.pairwise_cons.mpr ⟨?_, isBehind⟩, ?_⟩
    · intro entry member
      rw [less entry member]
      rfl
    · intro left inside right member
      rcases List.mem_cons.mp member with rfl | later
      · have notLess := passed left inside
        have swapped : answer left right = (answer right left).swap := OrientedCmp.eq_swap
        rw [swapped]
        cases told : answer right left with
        | lt => exact absurd told notLess
        | eq => rfl
        | gt => rfl
      · exact apart left inside right later
  stable value := by
    rw [List.filter_append entries, ← sorts.stable value, List.filter_append,
      List.filter_append, List.append_assoc]
    congr 1
    by_cases equal : answer value new = .eq
    · have none : (behind.filter fun entry => answer value entry = .eq) = [] := by
        refine List.filter_eq_nil_iff.mpr fun entry member => ?_
        rw [TransCmp.lt_of_eq_of_lt equal (less entry member)]
        simp
      rw [none, List.filter_cons_of_pos (by simp [equal]), none]
      simp [equal]
    · simp [equal]

end

namespace Arena

variable {P σ : Type} {answer : P → P → Ordering}

def byPayload (answer : P → P → Ordering) (left right : NodeId × P) : Ordering :=
  answer left.2 right.2

instance [Std.TransCmp answer] : Std.TransCmp (byPayload answer) where
  eq_swap := by
    unfold byPayload
    exact Std.OrientedCmp.eq_swap
  isLE_trans := by
    unfold byPayload
    exact Std.TransCmp.isLE_trans

def ranked (answer : P → P → Ordering) (taken : List (NodeId × P)) :
    List (NodeId × P) :=
  taken.mergeSort fun left right => (byPayload answer left right).isLE

/-- Ordered insertions under a node without children, with the nodes that went in
and their payloads, oldest first. Between them anything may happen that leaves the
children of this node and their payloads alone. -/
inductive Inserting (compare : Comparator σ P) (unique : Bool) (parent : NodeId) :
    List (NodeId × P) → Arena P → Prop
  | start {arena kids} (forest : arena.Forest kids)
      (childless : arena.children parent = .ok []) :
      Inserting compare unique parent [] arena
  | meanwhile {taken arena after kids}
      (inserting : Inserting compare unique parent taken arena)
      (forest : after.Forest kids)
      (siblings : after.children parent = arena.children parent)
      (payloads : ∀ entry ∈ taken, after.carried? entry.1 = arena.carried? entry.1) :
      Inserting compare unique parent taken after
  | insert {taken arena child payload state inserted after final}
      (inserting : Inserting compare unique parent taken arena)
      (carries : arena.carried? child = some (some payload))
      (done : Arena.insert parent child compare unique (arena, state) =
        .ok inserted (after, final)) :
      Inserting compare unique parent
        (if inserted then taken ++ [(child, payload)] else taken) after

structure Ranked (arena : Arena P) (answer : P → P → Ordering) (unique : Bool)
    (parent : NodeId) (taken : List (NodeId × P)) : Prop where
  forest : ∃ kids, arena.Forest kids
  children : arena.children parent = .ok ((ranked answer taken).map Prod.fst)
  carried : ∀ entry ∈ taken, arena.carried? entry.1 = some (some entry.2)
  stable : StablySorts (byPayload answer) taken (ranked answer taken)
  ascending : unique = true → Ascending (byPayload answer) (ranked answer taken)

variable {arena after : Arena P} {kids : NodeId → List NodeId}
  {parent child : NodeId} {unique : Bool} {taken : List (NodeId × P)}

theorem Answers.eq_answer {compare : Comparator σ P} {payload other : P}
    {sibling : NodeId} {before final : σ} {ordering : Ordering}
    (answered : arena.Answers compare payload sibling before ordering final)
    (answers : compare.Answers answer)
    (carries : arena.carried? sibling = some (some other)) :
    answer payload other = ordering := by
  obtain ⟨known, carried, told⟩ := answered
  obtain rfl := Option.some.inj (Option.some.inj (carried.symm.trans carries))
  obtain ⟨_, again⟩ := answers payload known before
  exact (EStateM.Result.ok.inj (told.symm.trans again)).1.symm

theorem Passes.onward {compare : Comparator σ P} {payload : P} {siblings : List NodeId}
    {before final : σ} (passes : arena.Passes compare unique payload siblings before final)
    (answers : compare.Answers answer) :
    ∀ sibling ∈ siblings, ∀ other, arena.carried? sibling = some (some other) →
      answer payload other ≠ .lt ∧ (unique = true → answer payload other ≠ .eq) := by
  induction passes with
  | nil _ => simp
  | @cons sibling rest ordering before between after answered onward _ induction =>
      intro current member other carries
      rcases List.mem_cons.mp member with rfl | inRest
      · rwa [answered.eq_answer answers carries]
      · exact induction current inRest other carries

theorem Stops.head {compare : Comparator σ P} {payload : P} {sibling : NodeId}
    {rest : List NodeId} {before final : σ} {other : P}
    (stops : arena.Stops compare payload (sibling :: rest) before final)
    (answers : compare.Answers answer)
    (carries : arena.carried? sibling = some (some other)) :
    answer payload other = .lt := by
  cases stops with
  | before less => exact less.eq_answer answers carries

theorem Ranked.placed [Std.TransCmp answer] {payload : P}
    {before behind : List (NodeId × P)} {others : NodeId → List NodeId}
    (isRanked : arena.Ranked answer unique parent taken)
    (parts : ranked answer taken = before ++ behind)
    (passed : ∀ entry ∈ before, answer payload entry.2 ≠ .lt ∧
      (unique = true → answer payload entry.2 ≠ .eq))
    (less : ∀ entry ∈ behind, answer payload entry.2 = .lt)
    (live : arena.contains parent = true)
    (carries : arena.carried? child = some (some payload))
    (relinked : arena.Relinked after others)
    (listed : others parent = before.map Prod.fst ++ child :: behind.map Prod.fst) :
    after.Ranked answer unique parent (taken ++ [(child, payload)]) := by
  have sorts := isRanked.stable
  rw [parts] at sorts
  have grown : StablySorts (byPayload answer) (taken ++ [(child, payload)])
      (before ++ (child, payload) :: behind) :=
    sorts.insert (fun entry member => (passed entry member).1) less
  have edited : ranked answer (taken ++ [(child, payload)]) =
      before ++ (child, payload) :: behind :=
    (stablySorts_mergeSort _).unique grown
  obtain ⟨node, found⟩ := contains_iff.mp ((relinked.contains_eq parent).trans live)
  refine ⟨⟨_, relinked.forest⟩, ?_, fun entry member => ?_, edited ▸ grown,
    fun isUnique => ?_⟩
  · rw [relinked.forest.children_eq found, listed, edited, List.map_append, List.map_cons]
  · rw [relinked.carried]
    rcases List.mem_append.mp member with old | new
    · exact isRanked.carried entry old
    · rw [List.mem_singleton.mp new, carries]
  · have ascending := isRanked.ascending isUnique
    rw [parts] at ascending
    obtain ⟨isBefore, isBehind, _⟩ := List.pairwise_append.mp ascending
    have cut : Cut (byPayload answer) (child, payload) before behind := by
      refine ⟨fun entry member => ?_, less⟩
      obtain ⟨notLess, notEqual⟩ := passed entry member
      cases told : byPayload answer (child, payload) entry with
      | lt => exact absurd told notLess
      | eq => exact absurd told (notEqual isUnique)
      | gt => rfl
    rw [edited]
    exact cut.ascending isBefore isBehind

theorem Ranked.mem_iff (isRanked : arena.Ranked answer unique parent taken)
    (entry : NodeId × P) : entry ∈ ranked answer taken ↔ entry ∈ taken :=
  isRanked.stable.perm.mem_iff

theorem Ranked.sides [Std.TransCmp answer] {compare : Comparator σ P} {payload : P}
    {before behind : List (NodeId × P)} {state between final : σ}
    (isRanked : arena.Ranked answer unique parent taken)
    (answers : compare.Answers answer)
    (parts : ranked answer taken = before ++ behind)
    (passes : arena.Passes compare unique payload (before.map Prod.fst) state between)
    (stops : arena.Stops compare payload (behind.map Prod.fst) between final) :
    (∀ entry ∈ before, answer payload entry.2 ≠ .lt ∧
      (unique = true → answer payload entry.2 ≠ .eq)) ∧
    ∀ entry ∈ behind, answer payload entry.2 = .lt := by
  have known : ∀ entry ∈ before ++ behind,
      arena.carried? entry.1 = some (some entry.2) := fun entry member =>
    isRanked.carried entry ((isRanked.mem_iff entry).mp (parts ▸ member))
  refine ⟨fun entry member => passes.onward answers entry.1 (List.mem_map_of_mem member)
    entry.2 (known entry (List.mem_append_left _ member)), ?_⟩
  cases behind with
  | nil => simp
  | cons first rest =>
      have isHead := stops.head answers (known first (by simp))
      have ordered := isRanked.stable.ordered
      rw [parts] at ordered
      intro entry member
      have later : (byPayload answer first entry).isLE :=
        isLE_head (List.pairwise_append.mp ordered).2.1 member
      exact Std.TransCmp.lt_of_lt_of_isLE isHead later

theorem Ranked.insert [Std.TransCmp answer] {compare : Comparator σ P} {payload : P}
    (isRanked : arena.Ranked answer unique parent taken)
    (answers : compare.Answers answer) (admits : arena.Admits parent child)
    (carries : arena.carried? child = some (some payload)) (state : σ) :
    ∃ inserted after final, Arena.insert parent child compare unique (arena, state) =
        .ok inserted (after, final) ∧
      (inserted = false ↔
        unique = true ∧ ∃ entry ∈ taken, answer payload entry.2 = .eq) ∧
      (inserted = false → after = arena) ∧
      after.Ranked answer unique parent
        (if inserted then taken ++ [(child, payload)] else taken) := by
  obtain ⟨kids, forest⟩ := isRanked.forest
  obtain ⟨parentNode, isLive⟩ := contains_iff.mp admits.parentLive
  have siblings := Except.ok.inj ((forest.children_eq isLive).symm.trans isRanked.children)
  have asked : ∀ sibling ∈ kids parent, ∃ entry ∈ taken,
      arena.carried? sibling = some (some entry.2) := by
    intro sibling member
    rw [siblings] at member
    obtain ⟨entry, isEntry, rfl⟩ := List.mem_map.mp member
    rw [isRanked.mem_iff] at isEntry
    exact ⟨entry, isEntry, isRanked.carried entry isEntry⟩
  have ends := forest.inserts_of_admits admits carries compare unique state
  rw [forest.run_insert]
  generalize arena.inserted parent child compare unique state = outcome at ends ⊢
  cases ends with
  | @placed left right between final split passes stops =>
      obtain ⟨before, behind, parts, rfl, rfl⟩ :=
        List.map_eq_append_iff.mp (siblings.symm.trans split)
      obtain ⟨passed, less⟩ := isRanked.sides answers parts passes stops
      refine ⟨true, _, final, rfl, ⟨nofun, ?_⟩, nofun, ?_⟩
      · rintro ⟨isUnique, entry, member, equal⟩
        rw [← isRanked.mem_iff, parts] at member
        rcases List.mem_append.mp member with inside | later
        · exact absurd equal ((passed entry inside).2 isUnique)
        · cases equal.symm.trans (less entry later)
      · exact isRanked.placed parts passed less admits.parentLive carries
          (forest.relinked_attach admits split) (Function.update_self ..)
  | @kept final spotted =>
      refine ⟨false, arena, final, rfl, ⟨fun _ => ?_, fun _ => rfl⟩, fun _ => rfl,
        isRanked⟩
      generalize isSiblings : kids parent = siblings at spotted
      cases spotted with
      | @duplicate _ sibling _ _ _ _ _ isUnique equal =>
          obtain ⟨entry, member, carried⟩ := asked sibling (by simp [isSiblings])
          exact ⟨isUnique, entry, member, equal.eq_answer answers carried⟩
  | failed spotted =>
      generalize isSiblings : kids parent = siblings at spotted
      cases spotted with
      | @bare _ sibling _ _ _ _ bare =>
          obtain ⟨_, _, carried⟩ := asked sibling (by simp [isSiblings])
          cases bare.symm.trans carried
      | raised _ _ raised =>
          obtain ⟨_, answered⟩ := answers _ _ _
          cases raised.symm.trans answered

theorem Inserting.ranked [Std.TransCmp answer] {compare : Comparator σ P}
    (inserting : Inserting compare unique parent taken arena)
    (answers : compare.Answers answer) : arena.Ranked answer unique parent taken := by
  induction inserting with
  | start forest childless =>
      refine ⟨⟨_, forest⟩, ?_, nofun, stablySorts_mergeSort _, fun _ => ?_⟩
      · rwa [Arena.ranked, List.mergeSort_nil]
      · rw [Arena.ranked, List.mergeSort_nil]
        exact .nil
  | meanwhile _ forest siblings payloads isRanked =>
      exact ⟨⟨_, forest⟩, siblings.trans isRanked.children, fun entry member =>
        (payloads entry member).trans (isRanked.carried entry member),
        isRanked.stable, isRanked.ascending⟩
  | insert _ carries done isRanked =>
      obtain ⟨kids, forest⟩ := isRanked.forest
      have admits := forest.admits_of_insert done
      obtain ⟨_, _, _, again, _, _, grown⟩ :=
        isRanked.insert answers admits carries _
      cases done.symm.trans again
      exact grown

theorem Forest.admits_of_detached (forest : arena.Forest kids)
    (live : arena.contains parent = true) (different : child ≠ parent)
    (childless : arena.children child = .ok []) (detached : arena.Detached child) :
    arena.Admits parent child := by
  obtain ⟨node, found, unlinked⟩ := detached
  have none : kids child = [] :=
    Except.ok.inj ((forest.children_eq found).symm.trans childless)
  refine ⟨live, contains_iff.mpr ⟨node, found⟩, fun above => ?_, ?_⟩
  · rcases above.cases_head with same | ⟨below, ⟨belowNode, isBelow, isParent⟩, _⟩
    · exact different same
    · have member := forest.listed isBelow isParent
      rw [none] at member
      cases member
  · rintro other ⟨again, isNode, isParent⟩
    obtain rfl := Option.some.inj (found.symm.trans isNode)
    rw [forest.isLinked_eq found, isParent] at unlinked
    cases unlinked

/-- What the insertions so far have come to, and what the next one does. -/
structure Collates (arena : Arena P) (compare : Comparator σ P)
    (answer : P → P → Ordering) (unique : Bool) (parent : NodeId)
    (taken : List (NodeId × P)) : Prop where
  ranked : arena.Ranked answer unique parent taken
  fresh : ∀ child, child ≠ parent → arena.children child = .ok [] →
    arena.Detached child → arena.Admits parent child
  /-- It goes through, and is turned down only over an equal payload. -/
  next : ∀ child payload state, arena.Admits parent child →
    arena.carried? child = some (some payload) →
    ∃ inserted after final, Arena.insert parent child compare unique (arena, state) =
        .ok inserted (after, final) ∧
      (inserted = false ↔
        unique = true ∧ ∃ entry ∈ taken, answer payload entry.2 = .eq) ∧
      (inserted = false → after = arena ∧ arena.Detached child)

/-- Nodes inserted one after another are sorted stably. If equal ones are kept
out, the order is strict. -/
theorem insertions_sort_children [Std.TransCmp answer] {compare : Comparator σ P}
    (answers : compare.Answers answer)
    (inserting : Inserting compare unique parent taken arena) :
    arena.Collates compare answer unique parent taken := by
  have isRanked := inserting.ranked answers
  obtain ⟨kids, forest⟩ := isRanked.forest
  obtain ⟨node, isRead, _⟩ := bind_eq_ok.mp isRanked.children
  have live := contains_iff.mpr ⟨node, (read_eq_ok_iff ..).mp isRead⟩
  refine ⟨isRanked, fun _ => forest.admits_of_detached live, ?_⟩
  intro child payload state admits carries
  obtain ⟨inserted, after, final, done, refused, kept, _⟩ :=
    isRanked.insert answers admits carries state
  refine ⟨inserted, after, final, done, refused, fun isRefused => ⟨kept isRefused, ?_⟩⟩
  exact forest.detached admits.childLive (forest.not_mem_of_admits admits)

def singles : List (Request Nat) :=
  [.allocate none, .allocate (some 5), .allocate (some 1), .allocate (some 5)]

def gathered (unique : Bool) (children : List NodeId) : Arena Nat :=
  children.foldl (fun arena child => arena.perform
    (.insert ⟨0, 0⟩ child (Comparator.answering compare) () unique))
    (singles.foldl perform { capacity := 4 })

theorem insertions_sort_children_singles :
    Inserting (Comparator.answering compare) false ⟨0, 0⟩
        [(⟨1, 0⟩, 5), (⟨2, 0⟩, 1), (⟨3, 0⟩, 5)]
        (gathered false [⟨1, 0⟩, ⟨2, 0⟩, ⟨3, 0⟩]) ∧
      (gathered false [⟨1, 0⟩, ⟨2, 0⟩, ⟨3, 0⟩]).Collates
        (Comparator.answering compare) compare false ⟨0, 0⟩
        [(⟨1, 0⟩, 5), (⟨2, 0⟩, 1), (⟨3, 0⟩, 5)] ∧
      (gathered false [⟨1, 0⟩, ⟨2, 0⟩, ⟨3, 0⟩]).children ⟨0, 0⟩ =
        .ok [⟨2, 0⟩, ⟨1, 0⟩, ⟨3, 0⟩] ∧
      Inserting (Comparator.answering compare) true ⟨0, 0⟩
        [(⟨1, 0⟩, 5), (⟨2, 0⟩, 1)] (gathered true [⟨1, 0⟩, ⟨2, 0⟩]) ∧
      ∃ final, Arena.insert ⟨0, 0⟩ ⟨3, 0⟩ (Comparator.answering compare) true
        (gathered true [⟨1, 0⟩, ⟨2, 0⟩], ()) =
          .ok false (gathered true [⟨1, 0⟩, ⟨2, 0⟩], final) := by
  have started : (withCapacity 4 : Except Error (Arena Nat)) =
      .ok { capacity := 4 } := rfl
  obtain ⟨kids, forest⟩ := (forest_withCapacity started).history singles
  have answers := Comparator.answers_answering (compare : Nat → Nat → Ordering)
  have childless : (singles.foldl perform ({ capacity := 4 } : Arena Nat)).children
      ⟨0, 0⟩ = .ok [] := by decide +kernel
  have start : ∀ unique, Inserting (Comparator.answering compare) unique ⟨0, 0⟩ []
      (gathered unique []) := fun _ => .start forest childless
  have goesIn : ∀ (unique : Bool) (children : List NodeId) (child : NodeId)
      (payload : Nat) (taken : List (NodeId × Nat)),
      Inserting (Comparator.answering compare) unique ⟨0, 0⟩ taken
        (gathered unique children) →
      (gathered unique children).carried? child = some (some payload) →
      Arena.insert ⟨0, 0⟩ child (Comparator.answering compare) unique
        (gathered unique children, ()) =
          .ok true (gathered unique (children ++ [child]), ()) →
      Inserting (Comparator.answering compare) unique ⟨0, 0⟩
        (taken ++ [(child, payload)]) (gathered unique (children ++ [child])) :=
    fun _ _ _ _ _ inserting carries done => .insert inserting carries done
  have first : ∀ unique, Inserting (Comparator.answering compare) unique ⟨0, 0⟩
      [(⟨1, 0⟩, 5)] (gathered unique [⟨1, 0⟩]) := by
    rintro (_ | _)
    · exact goesIn _ [] ⟨1, 0⟩ 5 [] (start _) (by decide +kernel) (by decide +kernel)
    · exact goesIn _ [] ⟨1, 0⟩ 5 [] (start _) (by decide +kernel) (by decide +kernel)
  have two : ∀ unique, Inserting (Comparator.answering compare) unique ⟨0, 0⟩
      [(⟨1, 0⟩, 5), (⟨2, 0⟩, 1)] (gathered unique [⟨1, 0⟩, ⟨2, 0⟩]) := by
    rintro (_ | _)
    · exact goesIn _ [⟨1, 0⟩] ⟨2, 0⟩ 1 _ (first _) (by decide +kernel) (by decide +kernel)
    · exact goesIn _ [⟨1, 0⟩] ⟨2, 0⟩ 1 _ (first _) (by decide +kernel) (by decide +kernel)
  have three : Inserting (Comparator.answering compare) false ⟨0, 0⟩
      [(⟨1, 0⟩, 5), (⟨2, 0⟩, 1), (⟨3, 0⟩, 5)]
      (gathered false [⟨1, 0⟩, ⟨2, 0⟩, ⟨3, 0⟩]) :=
    goesIn _ [⟨1, 0⟩, ⟨2, 0⟩] ⟨3, 0⟩ 5 _ (two false) (by decide +kernel) (by decide +kernel)
  have collates := insertions_sort_children answers (two true)
  have detached : (gathered true [⟨1, 0⟩, ⟨2, 0⟩]).Detached ⟨3, 0⟩ := by
    have unlinked : ((gathered true [⟨1, 0⟩, ⟨2, 0⟩]).node? ⟨3, 0⟩).map Node.isLinked =
        some false := by decide +kernel
    exact Option.map_eq_some_iff.mp unlinked
  obtain ⟨inserted, after, final, done, refused, kept⟩ := collates.next ⟨3, 0⟩ 5 ()
    (collates.fresh ⟨3, 0⟩ (by decide) (by decide +kernel) detached) (by decide +kernel)
  obtain rfl := refused.mpr ⟨rfl, (⟨1, 0⟩, 5), by simp, by decide⟩
  refine ⟨three, insertions_sort_children answers three, by decide +kernel, two true, final, ?_⟩
  rw [done, (kept rfl).1]

end Arena

end LinkedBTree
