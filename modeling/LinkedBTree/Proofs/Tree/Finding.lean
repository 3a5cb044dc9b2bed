import LinkedBTree.Proofs.Tree.Orderly
import LinkedBTree.Proofs.Tree.Places

namespace LinkedBTree.Tree

/-! Looking for a value from the root down, to the first node that holds it or on
to a leaf. Either way leads to the one entry that equals the value; or to the one
place for it between all leaf entries, if there is none. -/

variable {α : Type}

/-- Smaller values are before the place, greater ones behind it. It is not behind
a leaf, unless that is the last one. -/
structure Place.Divides {leaves : List (NodeId × EntryList α)} {leaf : NodeId}
    {element : Nat} (place : Place leaves leaf element)
    (answer : α → α → Ordering) (value : α) : Prop where
  below : ∀ entry ∈ place.before, answer value entry.value = .gt
  above : ∀ entry ∈ place.after, answer value entry.value = .lt
  last : element = place.list.length → place.right = []

def Shows (tree : Tree α) (node : NodeId) (element : Nat) (entry : Entry α) : Prop :=
  ∃ list, tree.list node = .ok list ∧ list.entry? element = some entry

/-- What both ways of looking for a value come to, for all values and under all
comparators that go by this order. -/
structure Searchable (tree : Tree α) (answer : α → α → Ordering)
    (leaves : List (NodeId × EntryList α)) : Prop where
  bears : tree.Bears leaves
  located : ∀ {σ : Type} (compare : Comparator σ α), compare.Steady answer →
    ∀ value index stored, tree.values.value? index = some stored →
      answer value stored = .eq →
      Meets compare.Raises (tree.locate value compare) fun location =>
        ∃ node element, location = .found node element ∧
          tree.Shows node element ⟨stored, index⟩
  locatedInLeaf : ∀ {σ : Type} (compare : Comparator σ α), compare.Steady answer →
    ∀ value index stored, tree.values.value? index = some stored →
      answer value stored = .eq →
      Meets compare.Raises (tree.locateInLeaf value compare) fun found =>
        ∃ leaf element, found = some (leaf, element) ∧
          leaf ∈ leaves.map Prod.fst ∧ tree.Shows leaf element ⟨stored, index⟩
  missed : ∀ {σ : Type} (compare : Comparator σ α), compare.Steady answer →
    ∀ value, (∀ index stored, tree.values.value? index = some stored →
      answer value stored ≠ .eq) →
      Meets compare.Raises (tree.locate value compare) fun location =>
        ∃ leaf element, location = .gap leaf element ∧
          ∃ place : Place leaves leaf element, place.Divides answer value
  missedInLeaf : ∀ {σ : Type} (compare : Comparator σ α), compare.Steady answer →
    ∀ value, (∀ index stored, tree.values.value? index = some stored →
      answer value stored ≠ .eq) →
      Meets compare.Raises (tree.locateInLeaf value compare) fun found =>
        found = none

open Subtree

variable {σ : Type} {answer : α → α → Ordering} {tree : Tree α} {shape : Shape α}
  {config : Config} {landing : Landing α} {entry : Entry α} {value : α}
  {compare : Comparator σ α} {pastEqual : Bool}

private theorem shows_of_landed {path : List (Frame α)} {id : NodeId}
    {children : List (Shape α)} {front back : List (Entry α)}
    (landed : Landed value compare pastEqual shape
      ⟨path, id, children, .equal front entry back⟩)
    (embodies : tree.Embodies shape) : tree.Shows id front.length entry := by
  rw [landed.whole] at embodies
  refine ⟨_, embodies.list_eq, ?_⟩
  simp [EntryList.entry?, Stop.entries]

private theorem stop_of_absent (standing : tree.Standing shape)
    (landed : Landed value compare pastEqual shape landing)
    (steady : compare.Steady answer)
    (absent : ∀ index stored, tree.values.value? index = some stored →
      answer value stored ≠ .eq) :
    ∃ front back, landing.stop = .before front back := by
  obtain ⟨path, id, children, stop⟩ := landing
  cases stop with
  | equal front other back =>
      have known := standing.mirrors.stored other (standing.mem_of_landed landed)
      exact absurd (landed.told answer steady).2 (absent other.index other.value known)
  | before front back => exact ⟨front, back, rfl⟩

section

variable [Std.TransCmp answer]

private theorem stop_of_stored (ordered : tree.Ordered answer shape)
    (landed : Landed value compare pastEqual shape landing)
    (steady : compare.Steady answer) (member : entry ∈ shape.entries)
    (equal : answer value entry.value = .eq) :
    ∃ front back, landing.stop = .equal front entry back := by
  obtain ⟨path, id, children, stop⟩ := landing
  cases stop with
  | equal front other back =>
      have isStored := ordered.standing.mem_of_landed landed
      have alsoEqual := (landed.told answer steady).2
      obtain rfl := ordered.eq_of_equal member equal isStored alsoEqual
      exact ⟨front, back, rfl⟩
  | before front back =>
      have gap := landed.exists_gap steady
      have cut := ordered.cut_of_gap gap
      rw [gap.entries_eq] at member
      rcases List.mem_append.mp member with isLeft | isRight
      · cases equal.symm.trans (cut.below _ (List.mem_map_of_mem isLeft))
      · cases equal.symm.trans (cut.above _ (List.mem_map_of_mem isRight))

private theorem divides_of_gap {path : List (Frame α)} {leaf : NodeId}
    {front back : List (Entry α)}
    (ordered : tree.Ordered answer (plug path (.node leaf (some ⟨front ++ back⟩) [])))
    (landed : Landed value compare pastEqual
      (plug path (.node leaf (some ⟨front ++ back⟩) []))
      ⟨path, leaf, [], .before front back⟩) (steady : compare.Steady answer) :
    (placeIn path leaf front back).Divides answer value := by
  have cut := ordered.cut_of_gap (landed.exists_gap steady)
  have fits := fits_of_routed ordered.standing rfl (landed.routed answer steady)
    (landed.told answer steady).1
  refine ⟨?_, ?_, fun atEnd => ?_⟩
  · rw [before_placeIn]
    exact fun entry member => cut.below _ (List.mem_map_of_mem member)
  · rw [after_placeIn]
    exact fun entry member => cut.above _ (List.mem_map_of_mem member)
  · have none : back = [] := by
      simpa [placeIn, EntryList.length] using atEnd
    simp only [placeIn, tipsRight_eq_nil (fits none), List.map_nil]

theorem Ordered.searchable (ordered : tree.Ordered answer shape) :
    tree.Searchable answer (leavesIn shape) where
  bears := ordered.standing.upright.bears
  located compare steady value index stored known equal := by
    have upright := ordered.standing.upright
    refine (locate_meets upright value compare).weaken ?_ fun _ _ raised => raised
    rintro _ ⟨⟨path, id, children, stop⟩, rfl, landed⟩
    have member := ordered.standing.mirrors.mem_of_value? known
    obtain ⟨front, back, rfl⟩ := stop_of_stored ordered landed steady member equal
    exact ⟨id, front.length, rfl, shows_of_landed landed upright.embodies⟩
  locatedInLeaf compare steady value index stored known equal := by
    have upright := ordered.standing.upright
    refine (locateInLeaf_meets upright value compare).weaken ?_ fun _ _ raised => raised
    rintro _ ⟨⟨path, leaf, children, stop⟩, rfl, landed⟩
    have member := ordered.standing.mirrors.mem_of_value? known
    obtain ⟨front, back, rfl⟩ := stop_of_stored ordered landed steady member equal
    refine ⟨leaf, front.length, rfl, ?_, shows_of_landed landed upright.embodies⟩
    rw [landed.found, (placeIn path leaf front _).parted]
    simp
  missed compare steady value absent := by
    refine (locate_meets ordered.standing.upright value compare).weaken ?_
      fun _ _ raised => raised
    rintro _ ⟨⟨path, leaf, children, stop⟩, rfl, landed⟩
    obtain ⟨front, back, rfl⟩ := stop_of_absent ordered.standing landed steady absent
    obtain rfl := landed.gap
    obtain rfl : children = [] := landed.leaf (.inl rfl)
    exact ⟨leaf, front.length, rfl, _, divides_of_gap ordered landed steady⟩
  missedInLeaf compare steady value absent := by
    refine (locateInLeaf_meets ordered.standing.upright value compare).weaken ?_
      fun _ _ raised => raised
    rintro _ ⟨⟨path, leaf, children, stop⟩, rfl, landed⟩
    obtain ⟨front, back, rfl⟩ := stop_of_absent ordered.standing landed steady absent
    rfl

/-- Under one order both ways of looking for a value agree, whatever has become
of the tree. -/
theorem searchable_after_requests (valid : config.Valid) :
    ∃ start : Tree α, withConfig config = .ok start ∧
      ∀ requests : List (Request α),
        (∀ request ∈ requests, request.Orderly answer) →
        ∃ leaves, (requests.foldl perform start).Searchable answer leaves := by
  obtain ⟨start, created, orders⟩ := @ordered_after_requests α answer config _ valid
  refine ⟨start, created, fun requests orderly => ?_⟩
  obtain ⟨shape, ordered⟩ := orders requests orderly
  exact ⟨leavesIn shape, ordered.searchable⟩

end

/-- The one way ends at a separator of the root, the other at the entry that the
separator copies. -/
theorem searchable_after_requests_by_key :
    ({ maxValues := 2, chunkSize := 1, nodeCapacity := 8 } : Config).Valid ∧
      ∃ start : Tree (Nat × Nat),
        withConfig { maxValues := 2, chunkSize := 1, nodeCapacity := 8 } =
          .ok start ∧
        ∃ after : Tree (Nat × Nat), [
          .insert (5, 0) (.answering byFirst) (), .insert (7, 0) (.answering byFirst) (),
          .insert (6, 0) (.answering byFirst) (),
          .copy (fun value _ => .ok value ()) ()].foldl perform start = after ∧
          (∃ leaves, after.Searchable byFirst leaves) ∧
          after.locate (5, 1) (.answering byFirst) () = .ok (.found ⟨0, 0⟩ 0) () ∧
          after.locateInLeaf (5, 1) (.answering byFirst) () =
            .ok (some (⟨1, 0⟩, 0)) () ∧
          after.locate (8, 0) (.answering byFirst) () = .ok (.gap ⟨4, 0⟩ 1) () ∧
          after.locateInLeaf (8, 0) (.answering byFirst) () = .ok none () := by
  have valid : ({ maxValues := 2, chunkSize := 1, nodeCapacity := 8 } :
      Config).Valid := by
    constructor <;> decide
  obtain ⟨start, created, searchable⟩ :=
    @searchable_after_requests (Nat × Nat) byFirst _ _ valid
  refine ⟨valid, start, created, _, rfl, searchable _ ?_, ?_⟩
  · have steady := Comparator.steady_answering byFirst
    intro request member
    simp only [List.mem_cons, List.not_mem_nil, or_false] at member
    rcases member with rfl | rfl | rfl | rfl
    · exact steady
    · exact steady
    · exact steady
    · intro value state image after done
      rw [← (EStateM.Result.ok.inj done).1]
      exact Std.ReflCmp.compare_self
  · obtain rfl := Except.ok.inj created
    refine ⟨?_, ?_, ?_, ?_⟩ <;> decide +kernel

end LinkedBTree.Tree
