import LinkedBTree.Tree.Locate
import LinkedBTree.Proofs.Consulting
import LinkedBTree.Proofs.Tree.Standing

namespace LinkedBTree

/-! The descent for a value, read off the shape: the lists alone decide what is
compared and where the descent ends, whatever the comparator is. -/

variable {α σ : Type}

open Subtree

inductive Stop (α : Type)
  | equal (front : List (Entry α)) (entry : Entry α) (back : List (Entry α))
  /-- Before the first entry that is greater. -/
  | before (front back : List (Entry α))

namespace Stop

def front : Stop α → List (Entry α)
  | equal front _ _ | before front _ => front

def entries : Stop α → List (Entry α)
  | equal front entry back => front ++ entry :: back
  | before front back => front ++ back

def equal? : Stop α → Option (Entry α)
  | equal _ entry _ => some entry
  | before _ _ => none

end Stop

def scan (value : α) (compare : Comparator σ α) (front : List (Entry α)) :
    List (Entry α) → EStateM Error σ (Stop α)
  | [] => pure (.before front [])
  | entry :: rest => do
      match ← compare value entry.value with
      | .eq => pure (.equal front entry rest)
      | .lt => pure (.before front (entry :: rest))
      | .gt => scan value compare (front ++ [entry]) rest

structure Landing (α : Type) where
  path : List (Frame α)
  id : NodeId
  children : List (Shape α)
  stop : Stop α

namespace Landing

def part (landing : Landing α) : Shape α :=
  .node landing.id (some ⟨landing.stop.entries⟩) landing.children

def location (landing : Landing α) : Location :=
  match landing.stop with
  | .equal front _ _ => .found landing.id front.length
  | .before front _ => .gap landing.id front.length

def place? (landing : Landing α) : Option (NodeId × Nat) :=
  match landing.stop with
  | .equal front _ _ => some (landing.id, front.length)
  | .before _ _ => none

end Landing

/-- Descends into the child before the first entry that is not smaller, down to
an equal entry or a leaf; if so asked, past equal separators. -/
def Subtree.descend (value : α) (compare : Comparator σ α) (pastEqual : Bool)
    (path : List (Frame α)) : Shape α → EStateM Error σ (Landing α)
  | node id payload children => do
      let list := payload.getD {}
      let stop ← scan value compare [] list.entries
      if stop.equal?.isSome && !pastEqual then
        pure ⟨path, id, children, stop⟩
      else if inRange : stop.front.length < children.length then
        Subtree.descend value compare pastEqual
          (⟨id, list, children.take stop.front.length,
            children.drop (stop.front.length + 1)⟩ :: path)
          children[stop.front.length]
      else
        pure ⟨path, id, children, stop⟩
termination_by shape => sizeOf shape
decreasing_by
  have := List.sizeOf_lt_of_mem (List.getElem_mem inRange)
  simp only [Subtree.node.sizeOf_spec]
  omega

def Above (answer : α → α → Ordering) (value : α)
    (entries : List (Entry α)) : Prop :=
  ∀ entry ∈ entries, answer value entry.value = .gt

def Stop.Told (answer : α → α → Ordering) (value : α) : Stop α → Prop
  | equal front entry _ =>
      Above answer value front ∧ answer value entry.value = .eq
  | before front back => Above answer value front ∧
      ∀ entry, back.head? = some entry → answer value entry.value = .lt

/-- The answers that lead from a branch to the child left out. -/
structure Frame.Routed (answer : α → α → Ordering) (value : α)
    (frame : Frame α) : Prop where
  above : Above answer value (frame.list.entries.take frame.before.length)
  bounded : ∀ entry, frame.list.entries[frame.before.length]? = some entry →
    answer value entry.value ≠ .gt

structure Landed (value : α) (compare : Comparator σ α) (pastEqual : Bool)
    (shape : Shape α) (landing : Landing α) : Prop where
  whole : shape = plug landing.path landing.part
  /-- Only an equal entry ends the descent above the leaves. -/
  leaf : landing.stop.equal? = none ∨ pastEqual = true → landing.children = []
  routed : ∀ answer, compare.Steady answer →
    ∀ frame ∈ landing.path, frame.Routed answer value
  told : ∀ answer, compare.Steady answer → landing.stop.Told answer value

namespace Landed

variable {value : α} {compare : Comparator σ α} {pastEqual : Bool}
  {shape : Shape α} {path : List (Frame α)} {id : NodeId}
  {children : List (Shape α)} {front back : List (Entry α)} {entry : Entry α}

theorem gap (landed : Landed value compare pastEqual shape
      ⟨path, id, children, .before front back⟩) :
    shape = plug path (.node id (some ⟨front ++ back⟩) []) := by
  obtain rfl : children = [] := landed.leaf (.inl rfl)
  exact landed.whole

theorem found (landed : Landed value compare true shape
      ⟨path, id, children, .equal front entry back⟩) :
    shape = plug path (.node id (some ⟨front ++ entry :: back⟩) []) := by
  obtain rfl : children = [] := landed.leaf (.inr rfl)
  exact landed.whole

end Landed

theorem scan_meets (value : α) (compare : Comparator σ α)
    {front : List (Entry α)} (entries : List (Entry α))
    (above : ∀ answer, compare.Steady answer → Above answer value front) :
    Meets compare.Raises (scan value compare front entries) fun stop =>
      stop.entries = front ++ entries ∧
        ∀ answer, compare.Steady answer → stop.Told answer value := by
  induction entries generalizing front with
  | nil =>
      refine .pure ⟨rfl, fun answer steady => ⟨above answer steady, ?_⟩⟩
      exact fun _ first => nomatch first
  | cons entry rest induction =>
      rw [scan]
      apply (Meets.asked compare value entry.value).bind
      intro ordering isAnswer
      cases ordering with
      | eq =>
          exact .pure ⟨rfl, fun answer steady =>
            ⟨above answer steady, (isAnswer answer steady).symm⟩⟩
      | lt =>
          refine .pure ⟨rfl, fun answer steady => ⟨above answer steady, ?_⟩⟩
          exact fun _ first =>
            Option.some.inj first ▸ (isAnswer answer steady).symm
      | gt =>
          refine (induction ?_).weaken (fun stop found => ?_) fun _ _ raised =>
            raised
          · intro answer steady other member
            rcases List.mem_append.mp member with isFront | isEntry
            · exact above answer steady other isFront
            · rw [List.mem_singleton.mp isEntry, ← isAnswer answer steady]
          · refine ⟨?_, found.2⟩
            rw [found.1, List.append_assoc]
            rfl

section

variable {answer : α → α → Ordering} {compare : Comparator σ α}
  (steady : compare.Steady answer) (value : α)
include steady

theorem scan_answering (front entries : List (Entry α)) :
    Meets compare.Raises (scan value compare front entries) fun stop =>
      scan value (.answering answer) front entries () = .ok stop () := by
  induction entries generalizing front with
  | nil => exact .pure rfl
  | cons entry rest induction =>
      rw [scan, scan]
      apply (Meets.asked compare value entry.value).bind
      intro ordering isAnswer
      have answered : Comparator.answering answer value entry.value () = .ok ordering () := by
        rw [isAnswer answer steady]
        rfl
      rw [run_bind_of_ok answered]
      cases ordering with
      | eq => exact .pure rfl
      | lt => exact .pure rfl
      | gt => exact induction (front ++ [entry])

theorem descend_answering (pastEqual : Bool) (path : List (Frame α)) (shape : Shape α) :
    Meets compare.Raises (descend value compare pastEqual path shape) fun landing =>
      descend value (.answering answer) pastEqual path shape () = .ok landing () := by
  induction shape using Subtree.induction generalizing path with
  | node id payload children induction =>
      rw [descend, descend]
      apply (scan_answering steady value [] _).bind
      intro stop scanned
      rw [run_bind_of_ok scanned]
      split
      · exact .pure rfl
      · split
        · exact induction _ (List.getElem_mem _) _
        · exact .pure rfl

end

namespace Tree

variable {tree : Tree α} {path : List (Frame α)} {part shape : Shape α}
  {id : NodeId} {list : EntryList α} {children : List (Shape α)}

def passed (id : NodeId) (list : EntryList α)
    (children : List (Shape α)) (stop : Stop α) : Frame α :=
  ⟨id, list, children.take stop.front.length,
    children.drop (stop.front.length + 1)⟩

theorem plug_passed {stop : Stop α}
    (inRange : stop.front.length < children.length) :
    plug (passed id list children stop :: path) children[stop.front.length] =
      plug path (.node id (some list) children) := by
  rw [plug, Frame.close, passed, ← List.drop_eq_getElem_cons inRange,
    List.take_append_drop]

theorem descend_cases {stop : Stop α}
    (upright : tree.Upright (plug path (.node id (some list) children)))
    (same : stop.entries = list.entries) :
    children = [] ∨ stop.front.length < children.length := by
  by_cases isLeaf : children = []
  · exact .inl isLeaf
  · right
    obtain ⟨again, isPart, length⟩ := upright.part_eq
    injection isPart with _ isSame _
    obtain rfl := Option.some.inj isSame
    have length : children.length = list.entries.length + 1 := length isLeaf
    have short : stop.front.length ≤ stop.entries.length := by
      cases stop <;> simp [Stop.front, Stop.entries]
    rw [length, ← same]
    omega

private theorem routed_passed {answer : α → α → Ordering} {value : α}
    {stop : Stop α} (same : stop.entries = list.entries)
    (told : stop.Told answer value)
    (inRange : stop.front.length < children.length) :
    (passed id list children stop).Routed answer value := by
  have position : (children.take stop.front.length).length =
      stop.front.length := by
    rw [List.length_take]
    omega
  constructor
  · simp only [passed, position, ← same]
    cases stop <;> simpa only [Stop.front, Stop.entries, List.take_left]
      using told.1
  · intro other isOther
    simp only [passed, position, ← same] at isOther
    cases stop with
    | equal front entry back =>
        simp only [Stop.front, Stop.entries, List.getElem?_append_right
          (Nat.le_refl _), Nat.sub_self, List.getElem?_cons_zero] at isOther
        rw [← Option.some.inj isOther, told.2]
        decide
    | before front back =>
        simp only [Stop.front, Stop.entries, List.getElem?_append_right
          (Nat.le_refl _), Nat.sub_self, ← List.head?_eq_getElem?] at isOther
        rw [told.2 other isOther]
        decide

private theorem descend_meets_below {value : α} {compare : Comparator σ α}
    (upright : tree.Upright (plug path part)) (pastEqual : Bool)
    (routed : ∀ answer, compare.Steady answer →
      ∀ frame ∈ path, frame.Routed answer value) :
    Meets compare.Raises (descend value compare pastEqual path part)
      (Landed value compare pastEqual (plug path part)) := by
  induction part using Subtree.induction generalizing path with
  | node id payload children induction =>
      obtain ⟨list, isPart, _⟩ := upright.part_eq
      obtain rfl : payload = some list := by injection isPart
      rw [descend]
      apply (scan_meets value compare list.entries (by simp [Above])).bind
      rintro stop ⟨same, told⟩
      have closed : plug path (.node id (some list) children) =
          plug path (Landing.part ⟨path, id, children, stop⟩) := by
        rw [Landing.part, same]
        rfl
      split
      · rename_i ends
        refine .pure ⟨closed, fun goesOn => ?_, routed, told⟩
        grind
      · rcases descend_cases upright same with rfl | inRange
        · rw [dif_neg (by simp)]
          exact .pure ⟨closed, fun _ => rfl, routed, told⟩
        · have opened := @plug_passed α path id list children stop inRange
          rw [dif_pos inRange, ← opened]
          apply induction _ (List.getElem_mem inRange) (opened ▸ upright)
          exact fun answer steady => List.forall_mem_cons.mpr
            ⟨routed_passed same (told answer steady) inRange,
              routed answer steady⟩

theorem descend_meets (upright : tree.Upright shape) (value : α)
    (compare : Comparator σ α) (pastEqual : Bool) :
    Meets compare.Raises (descend value compare pastEqual [] shape)
      (Landed value compare pastEqual shape) :=
  @descend_meets_below α σ tree [] shape value compare upright pastEqual (by simp)

theorem nextSibling_eq {kids : NodeId → List NodeId}
    (forest : tree.arena.Forest kids) (of : NodeId) (position : Nat) :
    tree.nextSibling (kids of)[position]? = .ok (kids of)[position + 1]? := by
  cases isChild : (kids of)[position]? with
  | none =>
      rw [List.getElem?_eq_none_iff] at isChild
      rw [List.getElem?_eq_none (by omega)]
      rfl
  | some child =>
      obtain ⟨node, found, _, _, next⟩ := forest.child_at isChild
      simp only [nextSibling]
      rw [bind_of_ok (Arena.read_eq found), next]
      rfl

def Tells (children : List NodeId) : Match → Stop α → Prop
  | .exact element, .equal front _ _ => element = front.length
  | .descend child element, .before front _ =>
      element = front.length ∧ child = children[element]?
  | _, _ => False

theorem matchEntries_alike {kids : NodeId → List NodeId}
    (forest : tree.arena.Forest kids) (id of : NodeId) (value : α)
    (compare : Comparator σ α) (front entries : List (Entry α)) :
    Alike (Tells (kids of))
      (tree.matchEntries id value compare entries front.length
        (kids of)[front.length]?)
      (scan value compare front entries) := by
  induction entries generalizing front with
  | nil => exact .pure ⟨rfl, rfl⟩
  | cons entry rest induction =>
      rw [matchEntries, scan]
      apply ((Alike.refl (compare value entry.value)).within _).bind
      rintro ordering _ rfl
      cases ordering with
      | lt => exact .pure ⟨rfl, rfl⟩
      | eq => exact .pure rfl
      | gt =>
          apply Alike.lift_bind (nextSibling_eq forest of front.length)
          simpa using induction (front ++ [entry])

theorem mem_of_matchIn {kids : NodeId → List NodeId} (forest : tree.arena.Forest kids)
    {id child : NodeId} {node : Node (EntryList α)} {value : α}
    {compare : Comparator σ α} {element : Nat} {before after : σ}
    (found : tree.arena.node? id = some node)
    (matched : tree.matchIn id node value compare before =
      .ok (.descend (some child) element) after) : child ∈ kids id := by
  obtain ⟨list, _, matched⟩ := run_lift_bind_eq_ok.mp matched
  by_cases refused : node.childCount ≠ 0 ∧ node.childCount ≠ list.length + 1
  · rw [if_pos refused] at matched
    cases matched
  · rw [if_neg refused, forest.firstChild found, List.head?_eq_getElem?] at matched
    obtain ⟨stop, _, tells⟩ :=
      (matchEntries_alike forest id id value compare [] list.entries).symm.of_ok matched
    cases stop with
    | equal front entry back => exact tells.elim
    | before front back => exact List.mem_of_getElem? tells.2.symm

private theorem matchIn_alike {kids : NodeId → List NodeId}
    {node : Node (EntryList α)}
    (upright : tree.Upright (plug path (.node id (some list) children)))
    (whole : tree.arena.Whole kids (plug path (.node id (some list) children)))
    (found : tree.arena.node? id = some node) (value : α)
    (compare : Comparator σ α) :
    Alike (fun found stop => Tells (kids id) found stop ∧
        stop.entries = list.entries)
      (tree.matchIn id node value compare)
      (scan value compare [] list.entries) := by
  obtain ⟨_, isFound, carried, below, _⟩ := whole.node_of_part
  obtain rfl := Option.some.inj (found.symm.trans isFound)
  have counted : node.childCount = children.length := by
    rw [whole.forest.childCount found]
    exact (congrArg List.length below).trans (List.length_map _)
  have isFirst : node.firstChild = (kids id)[0]? := by
    rw [whole.forest.firstChild found, List.head?_eq_getElem?]
  have fits : ¬(node.childCount ≠ 0 ∧ node.childCount ≠ list.length + 1) := by
    obtain ⟨same, isPart, length⟩ := upright.part_eq
    injection isPart with _ isSame _
    obtain rfl := Option.some.inj isSame
    rw [counted]
    rintro ⟨some, mismatch⟩
    exact mismatch (length (List.ne_nil_of_length_pos (Nat.pos_of_ne_zero some)))
  refine Alike.and_meets ?_
    ((scan_meets value compare list.entries (by simp [Above])).weaken
      (fun _ known => known.1) fun _ _ raised => raised)
  unfold matchIn
  apply Alike.lift_bind (listOf_eq carried)
  rw [if_neg fits, isFirst]
  exact matchEntries_alike whole.forest id id value compare [] list.entries

section

variable {γ : Type} {step : NodeId → EStateM Error σ (NodeId ⊕ γ)}
  {ends : γ → Landing α → Prop} {value : α} {compare : Comparator σ α}
  {pastEqual : Bool}

/-- What a step of a walk and a level of the descent come to: both go on into
the same child, or both end. -/
private def Keeps (ends : γ → Landing α → Prop) (pastEqual : Bool)
    (path : List (Frame α)) (id : NodeId) (children : List (Shape α)) :
    NodeId ⊕ γ → Stop α → Prop
  | .inl next, stop => ¬(stop.equal?.isSome && !pastEqual) ∧
      (children.map Subtree.id)[stop.front.length]? = some next
  | .inr result, stop =>
      ((stop.equal?.isSome && !pastEqual) ∨ children = []) ∧
        ends result ⟨path, id, children, stop⟩

/-- A walk from node to node is the descent through the shape if every step
is. -/
private theorem follow_alike
    (steps : ∀ path id list children,
      tree.Upright (plug path (.node id (some list) children)) →
      Alike (Keeps ends pastEqual path id children) (step id)
        (scan value compare [] list.entries))
    (part : Shape α) {path : List (Frame α)} {bound : Nat}
    (upright : tree.Upright (plug path part))
    (enough : bound + path.length = tree.arena.visits) :
    Alike ends (follow step bound part.id)
      (descend value compare pastEqual path part) := by
  induction part using Subtree.induction generalizing path bound with
  | node id payload children induction =>
      obtain ⟨list, isPart, _⟩ := upright.part_eq
      obtain rfl : payload = some list := by injection isPart
      obtain ⟨bound, rfl⟩ := Nat.exists_eq_succ_of_ne_zero (by
        obtain ⟨_, kids, whole⟩ := upright.embodies
        have := whole.length_lt_visits
        omega : bound ≠ 0)
      rw [follow, descend]
      apply (steps path id list children upright).bind
      intro outcome stop keeps
      cases outcome with
      | inl next =>
          obtain ⟨goesOn, isNext⟩ := keeps
          obtain ⟨inRange, rfl⟩ := List.getElem?_eq_some_iff.mp isNext
          rw [List.length_map] at inRange
          rw [if_neg goesOn, dif_pos inRange, List.getElem_map]
          apply induction _ (List.getElem_mem inRange)
          · exact (plug_passed inRange).symm ▸ upright
          · rw [List.length_cons]
            omega
      | inr result =>
          obtain ⟨stops, isEnd⟩ := keeps
          by_cases here : (stop.equal?.isSome && !pastEqual) = true
          · rw [if_pos here]
            exact .pure isEnd
          · obtain rfl := stops.resolve_left here
            rw [if_neg here, dif_neg (by simp)]
            exact .pure isEnd

end

private theorem child_of_tells {kids : NodeId → List NodeId} {stop : Stop α}
    (upright : tree.Upright (plug path (.node id (some list) children)))
    (isKids : kids id = children.map Subtree.id)
    (same : stop.entries = list.entries) :
    children = [] ∧ (kids id)[stop.front.length]? = none ∨
      ∃ child, (kids id)[stop.front.length]? = some child := by
  rcases descend_cases upright same with rfl | inRange
  · exact .inl ⟨rfl, by simp [isKids]⟩
  · exact .inr ⟨_, List.getElem?_eq_getElem (by simpa [isKids] using inRange)⟩

theorem locate_alike (upright : tree.Upright shape) (value : α)
    (compare : Comparator σ α) :
    Alike (fun location landing => location = landing.location)
      (tree.locate value compare) (descend value compare false [] shape) := by
  unfold locate
  rw [← upright.embodies.1]
  refine follow_alike (fun path id list children upright => ?_) shape upright rfl
  obtain ⟨kids, whole⟩ := upright.embodies.2
  obtain ⟨node, found, _, below, _⟩ := whole.node_of_part
  have isKids : kids id = children.map Subtree.id := below
  rw [locateStep, matchNode, ← bind_pure (scan value compare [] list.entries),
    bind_assoc]
  apply Alike.lift_bind (Arena.read_eq found)
  apply (matchIn_alike upright whole found value compare).bind
  rintro outcome stop ⟨tells, same⟩
  cases outcome with
  | exact element =>
      cases stop with
      | equal front entry back =>
          obtain rfl := tells
          exact .pure ⟨.inl rfl, rfl⟩
      | before front back => exact tells.elim
  | descend child element =>
      cases stop with
      | equal front entry back => exact tells.elim
      | before front back =>
          obtain ⟨rfl, rfl⟩ := tells
          rcases child_of_tells upright isKids same with
            ⟨isLeaf, none⟩ | ⟨child, isChild⟩
          · rw [Stop.front] at none
            rw [none]
            exact .pure ⟨.inr isLeaf, rfl⟩
          · rw [Stop.front] at isChild
            rw [isChild]
            exact .pure ⟨Bool.false_ne_true, isKids ▸ isChild⟩

theorem locate_meets (upright : tree.Upright shape) (value : α)
    (compare : Comparator σ α) :
    Meets compare.Raises (tree.locate value compare) fun location =>
      ∃ landing, location = landing.location ∧
        Landed value compare false shape landing :=
  (locate_alike upright value compare).meets
    (descend_meets upright value compare false)
    (fun _ landing same landed => ⟨landing, same, landed⟩) fun _ _ raised => raised

/-- Looking for a value among the leaves is descending past equal separators. -/
theorem locateInLeaf_alike (upright : tree.Upright shape) (value : α)
    (compare : Comparator σ α) :
    Alike (fun place landing => place = landing.place?)
      (tree.locateInLeaf value compare) (descend value compare true [] shape) := by
  unfold locateInLeaf
  rw [← upright.embodies.1]
  refine follow_alike (fun path id list children upright => ?_) shape upright rfl
  obtain ⟨kids, whole⟩ := upright.embodies.2
  obtain ⟨node, found, _, below, _⟩ := whole.node_of_part
  have isKids : kids id = children.map Subtree.id := below
  rw [id_node] at found
  rw [leafStep, ← bind_pure (scan value compare [] list.entries)]
  apply Alike.lift_bind (Arena.read_eq found)
  apply (matchIn_alike upright whole found value compare).bind
  rintro outcome stop ⟨tells, same⟩
  have place := child_of_tells upright isKids same
  cases outcome with
  | exact element =>
      cases stop with
      | equal front entry back =>
          obtain rfl := tells
          rw [Stop.front] at place
          rcases place with ⟨isLeaf, _⟩ | ⟨child, isChild⟩
          · have none : kids id = [] := by rw [isKids, isLeaf]; rfl
            simp only [(whole.forest.isLeaf_iff found).mpr none, if_true]
            exact .pure ⟨.inr isLeaf, rfl⟩
          · have isBranch : node.isLeaf = false := by
              refine Bool.eq_false_iff.mpr fun single => ?_
              have none : kids id = [] := (whole.forest.isLeaf_iff found).mp single
              rw [none] at isChild
              cases isChild
            simp only [isBranch, Bool.false_eq_true, if_false]
            have followed :
                (within s!"unable to follow separator {front.length} of {id}"
                  (liftM (tree.arena.childAt id front.length)) :
                  EStateM Error σ NodeId) = pure child := by
              funext state
              rw [run_within, run_lift, whole.forest.childAt_eq found isChild]
              rfl
            rw [followed, pure_bind]
            exact .pure ⟨by simp, isKids ▸ isChild⟩
      | before front back => exact tells.elim
  | descend child element =>
      cases stop with
      | equal front entry back => exact tells.elim
      | before front back =>
          obtain ⟨rfl, rfl⟩ := tells
          rw [Stop.front] at place
          rcases place with ⟨isLeaf, none⟩ | ⟨child, isChild⟩
          · rw [none]
            exact .pure ⟨.inr isLeaf, rfl⟩
          · rw [isChild]
            exact .pure ⟨Bool.false_ne_true, isKids ▸ isChild⟩

theorem descended_of_located {value : α} {compare : Comparator σ α} {start after : σ}
    {leaf : NodeId} {element : Nat} (upright : tree.Upright shape)
    (located : tree.locateInLeaf value compare start =
      .ok (some (leaf, element)) after) :
    ∃ path children front entry back, element = front.length ∧
      descend value compare true [] shape start =
        .ok ⟨path, leaf, children, .equal front entry back⟩ after := by
  rcases (locateInLeaf_alike upright value compare).cases start with
    ⟨_, landing, last, isPlace, descended, same⟩ | ⟨_, _, _, failed, _, _⟩
  · obtain ⟨rfl, rfl⟩ := EStateM.Result.ok.inj (located.symm.trans isPlace)
    obtain ⟨path, id, children, stop⟩ := landing
    cases stop with
    | before front back => cases same
    | equal front entry back =>
        obtain ⟨rfl, rfl⟩ := Prod.mk.inj (Option.some.inj same)
        exact ⟨path, children, front, entry, back, rfl, descended⟩
  · cases located.symm.trans failed

theorem locateInLeaf_meets (upright : tree.Upright shape) (value : α)
    (compare : Comparator σ α) :
    Meets compare.Raises (tree.locateInLeaf value compare) fun place =>
      ∃ landing, place = landing.place? ∧ Landed value compare true shape landing :=
  (locateInLeaf_alike upright value compare).meets
    (descend_meets upright value compare true)
    (fun _ landing same landed => ⟨landing, same, landed⟩) fun _ _ raised => raised

end Tree

end LinkedBTree
