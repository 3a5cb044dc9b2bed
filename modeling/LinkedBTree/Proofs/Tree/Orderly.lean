import LinkedBTree.Proofs.Tree.Copyable
import LinkedBTree.Proofs.Tree.Refinement

namespace LinkedBTree

/-! Histories whose comparators all go by one order: they keep the entries of a
tree ascending. -/

variable {α σ : Type}

def Copier.Keeps (copy : Copier σ α) (answer : α → α → Ordering) : Prop :=
  ∀ value state image after,
    copy value state = .ok image after → answer value image = .eq

namespace Tree

open Subtree

/-- The comparator goes by this order, as far as it answers, and a copier keeps
the places of values in it. -/
def Request.Orderly (answer : α → α → Ordering) : Request α → Prop
  | .insert _ compare _ | .remove _ compare _ | .replace _ _ compare _ =>
      compare.Steady answer
  | .split _ => True
  | .copy copyValue _ => copyValue.Keeps answer

structure Ordered (tree : Tree α) (answer : α → α → Ordering) (shape : Shape α) :
    Prop where
  standing : tree.Standing shape
  ascending : Ascending answer (shape.entries.map Entry.value)

variable {answer : α → α → Ordering} {tree image : Tree α} {shape : Shape α}
  {config : Config} {value : α} {entry other : Entry α}

section

variable [Std.TransCmp answer]

open Std

theorem Ordered.eq_of_equal (ordered : tree.Ordered answer shape)
    (member : entry ∈ shape.entries) (equal : answer value entry.value = .eq)
    (again : other ∈ shape.entries) (alsoEqual : answer value other.value = .eq) :
    other = entry := by
  obtain ⟨left, right, split⟩ := List.append_of_mem member
  have ascending := ordered.ascending
  rw [split, List.map_append, List.map_cons] at ascending
  have cut := cut_of_equal ascending equal
  rw [split, List.mem_append, List.mem_cons] at again
  rcases again with inLeft | same | inRight
  · cases alsoEqual.symm.trans (cut.below _ (List.mem_map_of_mem inLeft))
  · exact same
  · cases alsoEqual.symm.trans (cut.above _ (List.mem_map_of_mem inRight))

theorem Ordered.cut_of_gap {left right : List (Entry α)}
    (ordered : tree.Ordered answer shape)
    (gap : Gap answer value shape left right) :
    Cut answer value (left.map Entry.value) (right.map Entry.value) := by
  have ascending := ordered.ascending
  rw [gap.entries_eq, List.map_append] at ascending
  obtain ⟨isLeft, isRight, _⟩ := List.pairwise_append.mp ascending
  exact cut_of_fits isLeft isRight
    (between_iff_fits.mp (between_of_gap ordered.standing gap))

private theorem ascending_of_recalled {entries images : List (Entry α)}
    {copies : Copies α} (recalled : entries.map (imageOf copies) = images.map some)
    (equal : ∀ entry ∈ entries, ∀ image, imageOf copies entry = some image →
      answer entry.value image.value = .eq)
    (ascending : Ascending answer (entries.map Entry.value)) :
    Ascending answer (images.map Entry.value) := by
  have apart : (entries.map (imageOf copies)).Pairwise fun left right =>
      ∀ first ∈ left, ∀ second ∈ right, answer first.value second.value = .lt := by
    refine List.pairwise_map.mpr ((List.pairwise_map.mp ascending).imp_of_mem ?_)
    intro left right isLeft isRight less first isFirst second isSecond
    have isEqual := equal left isLeft first isFirst
    have alsoEqual := equal right isRight second isSecond
    exact TransCmp.lt_of_eq_of_lt (OrientedCmp.eq_symm isEqual)
      (TransCmp.lt_of_lt_of_eq less alsoEqual)
  rw [recalled, List.pairwise_map] at apart
  exact List.pairwise_map.mpr (apart.imp fun both => both _ rfl _ rfl)

theorem Ordered.copy {copyValue : Copier σ α} {state after : σ}
    (ordered : tree.Ordered answer shape) (abides : tree.Abides config shape)
    (valid : config.Valid) (keeps : copyValue.Keeps answer)
    (done : tree.copy copyValue state = .ok image after) :
    ∃ final, image.Ordered answer final := by
  have valid : tree.config.Valid := abides.config ▸ valid
  obtain ⟨_, related⟩ := (copy_meets ordered.standing valid abides.room keeps).of_ok done
  obtain ⟨_, final, stands, likened⟩ := copy_standing ordered.standing done
  have recalled := (likened_reads likened).2.1
  rw [List.flatMap_singleton, List.flatMap_singleton] at recalled
  refine ⟨final, stands, ascending_of_recalled recalled ?_ ordered.ascending⟩
  intro entry member other isOther
  have isStored := ordered.standing.mirrors.stored entry member
  have isCopied : image.values.value? entry.index = some other.value :=
    (imageOf_eq_some.mp isOther).1
  have both := related entry.index
  rw [isStored, isCopied] at both
  cases both with
  | some equal => exact equal

theorem Ordered.perform (ordered : tree.Ordered answer shape)
    (abides : tree.Abides config shape) (valid : config.Valid)
    {request : Request α} (orderly : request.Orderly answer) :
    ∃ final, (tree.perform request).Ordered answer final := by
  let set : OrderedSet answer :=
    ⟨shape.entries.map Entry.value, ordered.ascending, tree.values.size⟩
  have represents : tree.Represents set := ⟨⟨shape, ordered.standing, rfl⟩, rfl⟩
  have goesOn : ∀ {last : Tree α} {next : OrderedSet answer},
      last.Represents next → ∃ final, last.Ordered answer final := by
    rintro last next ⟨⟨final, stands, same⟩, _⟩
    exact ⟨final, stands, same ▸ next.ascending⟩
  cases request with
  | insert value compare state =>
      obtain ⟨next, _, stands⟩ := represents.act abides valid orderly (.insert value) state
      rw [Call.act, reached_map] at stands
      exact goesOn stands
  | remove value compare state =>
      obtain ⟨next, _, stands⟩ := represents.act abides valid orderly (.remove value) state
      rw [Call.act, reached_map] at stands
      exact goesOn stands
  | replace old new compare state =>
      obtain ⟨next, _, stands⟩ := represents.act abides valid orderly (.replace old new) state
      rw [Call.act, reached_map] at stands
      exact goesOn stands
  | split id =>
      rw [Tree.perform]
      rcases split_cases ordered.standing id with
        ⟨several, arena, final, done, stands, same⟩ |
        ⟨error, arena, failed, stands, _⟩
      · rw [done]
        exact ⟨final, stands, same ▸ ordered.ascending⟩
      · rw [failed]
        exact ⟨shape, stands, ordered.ascending⟩
  | copy copyValue state =>
      rw [Tree.perform]
      cases outcome : tree.copy copyValue state with
      | error error after => exact ⟨shape, ordered⟩
      | ok image after => exact ordered.copy abides valid orderly outcome

theorem Ordered.history (ordered : tree.Ordered answer shape)
    (abides : tree.Abides config shape) (valid : config.Valid)
    {requests : List (Request α)}
    (orderly : ∀ request ∈ requests, request.Orderly answer) :
    ∃ final, (requests.foldl Tree.perform tree).Ordered answer final := by
  induction requests generalizing tree shape with
  | nil => exact ⟨shape, ordered⟩
  | cons request rest induction =>
      obtain ⟨final, stillOrdered⟩ :=
        ordered.perform abides valid (orderly request (by simp))
      obtain ⟨_, abides, _⟩ := abides.perform request
      have abides : (tree.perform request).Abides config final :=
        ⟨stillOrdered.standing.upright, abides.root, abides.capacity, abides.config⟩
      exact induction stillOrdered abides fun other member =>
        orderly other (by simp [member])

theorem ordered_after_requests (valid : config.Valid) :
    ∃ start : Tree α, withConfig config = .ok start ∧
      ∀ requests : List (Request α),
        (∀ request ∈ requests, request.Orderly answer) →
        ∃ shape, (requests.foldl Tree.perform start).Ordered answer shape := by
  obtain ⟨start, created, stands, _⟩ := @standing_withConfig α config valid
  obtain ⟨again, recreated, abides⟩ := @abides_empty α config valid
  obtain rfl := Except.ok.inj (created.symm.trans recreated)
  have ordered : start.Ordered answer (.node start.root (some {}) []) := by
    refine ⟨stands, ?_⟩
    rw [entries_leaf]
    exact .nil
  exact ⟨start, created, fun requests orderly =>
    ordered.history abides valid orderly⟩

end

end Tree

end LinkedBTree
