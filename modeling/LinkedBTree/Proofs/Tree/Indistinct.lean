import LinkedBTree.Proofs.Tree.Copyable
import LinkedBTree.Proofs.Tree.Recasting
import LinkedBTree.Proofs.Tree.Twins

namespace LinkedBTree

/-! Nothing that can be asked of a tree shows which handles its nodes have, or
how it came by them. -/

variable {α β σ : Type}

def Comparator.recording (compare : Comparator σ α) :
    Comparator (σ × List (α × α)) α := fun left right (state, asked) =>
  match compare left right state with
  | .ok ordering after => .ok ordering (after, asked ++ [(left, right)])
  | .error error after => .error error (after, asked ++ [(left, right)])

def Copier.verbatim : Copier σ α := fun value state => .ok value state

namespace Tree

/-- One call that names no node, with a comparator of its own. -/
inductive Action (σ α : Type)
  | insert (value : α) (compare : Comparator σ α)
  | remove (value : α) (compare : Comparator σ α)
  | replace (old new : α) (compare : Comparator σ α)
  | get (value : α) (compare : Comparator σ α)
  | contains (value : α) (compare : Comparator σ α)
  | valueAt (index : Nat)
  | inOrder
  | depth
  | size
  | arraySize

inductive Answer (α : Type)
  | inserted (result : InsertResult α)
  | removed (value : Option α)
  | replaced (value : α)
  | got (value : Option α)
  | contained (found : Bool)
  | stored (value : Option α)
  | listed (values : List α)
  | counted (count : Nat)
  deriving DecidableEq

namespace Action

def act : Action σ α → Session σ (Tree α) (Answer α)
  | insert value compare => .inserted <$> Tree.insert value compare
  | remove value compare => .removed <$> Tree.remove value compare
  | replace old new compare => .replaced <$> Tree.replace old new compare
  | get value compare => .got <$> Session.consult (·.get? value compare)
  | contains value compare => .contained <$> Session.consult (·.contains value compare)
  | valueAt index => .stored <$> Session.consult fun tree => liftM (tree.valueAt index)
  | inOrder => .listed <$> Session.consult fun tree => liftM tree.inOrder
  | depth => .counted <$> Session.consult fun tree => liftM tree.depth
  | size => .counted <$> Session.consult fun tree => pure tree.size
  | arraySize => .counted <$> Session.consult fun tree => pure tree.values.size

def recording : Action σ α → Action (σ × List (α × α)) α
  | insert value compare => insert value compare.recording
  | remove value compare => remove value compare.recording
  | replace old new compare => replace old new compare.recording
  | get value compare => get value compare.recording
  | contains value compare => contains value compare.recording
  | valueAt index => valueAt index
  | inOrder => inOrder
  | depth => depth
  | size => size
  | arraySize => arraySize

end Action

/-- All that a caller learns from a call. -/
structure Observation (σ α : Type) where
  /-- The answer, or why there is none. -/
  result : Except Cause (Answer α)
  /-- What the comparator makes of its state. -/
  state : σ
  /-- The pairs that the comparator was asked for. -/
  asked : List (α × α)

/-- What a run comes to, whatever contexts its error has. -/
def told : EStateM.Result Error (Tree α × σ) β → Except Cause β
  | .ok result _ => .ok result
  | .error error _ => .error error.root

namespace Action

def observe (action : Action σ α) (tree : Tree α) (state : σ) :
    Observation σ α where
  result := told (action.act (tree, state))
  state := (reached (action.act (tree, state))).2
  asked := (reached (action.recording.act (tree, (state, [])))).2.2

def trail : List (Action σ α) → Tree α × σ → List (Observation σ α)
  | [], _ => []
  | action :: rest, (tree, state) =>
      action.observe tree state :: trail rest (reached (action.act (tree, state)))

def finish (actions : List (Action σ α)) (start : Tree α × σ) : Tree α × σ :=
  actions.foldl (fun current action => reached (action.act current)) start

end Action

open Subtree

section

variable {config : Config} {tree other : Tree α} {shape final : Shape α}

private theorem Agree.map {act : Session σ (Tree α) β} {γ : Type} (change : β → γ)
    {start again : Tree α × σ} (agree : Agree config (act start) (act again)) :
    Agree config ((change <$> act) start) ((change <$> act) again) := by
  rw [run_map, run_map]
  cases first : act start <;> cases second : act again <;>
    rw [first, second] at agree
  · exact ⟨congrArg change agree.1, agree.2⟩
  · exact agree.elim
  · exact agree.elim
  · exact agree

private theorem Agree.observed
    {first second : EStateM.Result Error (Tree α × σ) β}
    (agree : Agree config first second) :
    told first = told second ∧ (reached first).2 = (reached second).2 ∧
      ∃ shape final,
        Twins config (reached first).1 (reached second).1 shape final := by
  cases first <;> cases second
  · exact ⟨congrArg Except.ok agree.1, agree.2⟩
  · exact agree.elim
  · exact agree.elim
  · exact ⟨congrArg Except.error agree.1, agree.2⟩

theorem Twins.act (twins : Twins config tree other shape final)
    (action : Action σ α) (state : σ) :
    Agree config (action.act (tree, state)) (action.act (other, state)) := by
  cases action with
  | insert value compare => exact (twins.insert_agree value compare state).map _
  | remove value compare => exact (twins.remove_agree value compare state).map _
  | replace old new compare =>
      exact (twins.replace_agree old new compare state).map _
  | get value compare =>
      exact (twins.consult_agree (twins.get?_same value compare) state).map _
  | contains value compare =>
      exact (twins.consult_agree (twins.contains_same value compare) state).map _
  | valueAt index =>
      have same : tree.valueAt index = other.valueAt index := by
        rw [valueAt, valueAt, twins.values]
      exact (twins.consult_agree (same ▸ .refl _) state).map _
  | inOrder =>
      have same : tree.inOrder = other.inOrder := by
        rw [inOrder_eq twins.left.upright, inOrder_eq twins.right.upright,
          ← entries_rename nameless, ← entries_rename nameless final]
        exact congrArg (fun shape => Except.ok (shape.entries.map Entry.value))
          twins.same
      exact (twins.consult_agree (same ▸ .refl _) state).map _
  | depth =>
      have same : tree.depth = other.depth := by
        rw [depth_eq twins.left.upright.embodies,
          depth_eq twins.right.upright.embodies, ← height_rename nameless,
          ← height_rename nameless final]
        exact congrArg (fun shape => Except.ok shape.height) twins.same
      exact (twins.consult_agree (same ▸ .refl _) state).map _
  | size =>
      have same : tree.size = other.size := congrArg ValueTable.count twins.values
      exact (twins.consult_agree (same ▸ .refl _) state).map _
  | arraySize =>
      have same : tree.values.size = other.values.size :=
        congrArg ValueTable.size twins.values
      exact (twins.consult_agree (same ▸ .refl _) state).map _

theorem Twins.trail (twins : Twins config tree other shape final)
    (actions : List (Action σ α)) (state : σ) :
    Action.trail actions (tree, state) = Action.trail actions (other, state) ∧
      ∃ shape final, Twins config (Action.finish actions (tree, state)).1
        (Action.finish actions (other, state)).1 shape final := by
  induction actions generalizing tree other shape final state with
  | nil => exact ⟨rfl, shape, final, twins⟩
  | cons action rest induction =>
      obtain ⟨sameResult, sameState, shape, final, next⟩ :=
        (twins.act action state).observed
      obtain ⟨_, sameAsked, _⟩ :=
        (twins.act action.recording (state, [])).observed
      obtain ⟨sameTrail, shape, final, ends⟩ :=
        induction next (reached (action.act (tree, state))).2
      have sameObservation : action.observe tree state =
          action.observe other state := by
        unfold Action.observe
        rw [sameResult, sameState, sameAsked]
      have goesOn : reached (action.act (other, state)) =
          ((reached (action.act (other, state))).1,
            (reached (action.act (tree, state))).2) :=
        Prod.ext rfl sameState.symm
      rw [Action.trail, Action.trail, sameObservation, goesOn]
      refine ⟨congrArg (_ :: ·) sameTrail, shape, final, ?_⟩
      rw [Action.finish, Action.finish, List.foldl_cons, List.foldl_cons, goesOn]
      exact ends

end

/-! A copy that takes over the values as they are is such a tree. -/

section

variable {tree : Tree α} {shape : Shape α}

private theorem table_eq {table other : ValueTable α}
    (size : other.size = table.size)
    (same : ∀ index, Option.Rel (· = ·) (table.value? index) (other.value? index)) :
    other = table := by
  apply ValueTable.eq_of_entries
  apply Array.ext size
  intro index inRange alsoInRange
  have related := same index
  rw [ValueTable.value?, ValueTable.value?, Array.getElem?_eq_getElem inRange,
    Array.getElem?_eq_getElem alsoInRange, Option.join_some, Option.join_some] at related
  generalize table.entries[index] = value at related ⊢
  generalize other.entries[index] = image at related ⊢
  cases related with
  | none => rfl
  | some equal => rw [equal]

theorem copy_resembles (standing : tree.Standing shape)
    (valid : tree.config.Valid)
    (room : shape.ids.length ≤ tree.config.nodeCapacity) :
    Meets (fun _ _ => False) (tree.copy (Copier.verbatim : Copier σ α)) fun image =>
      image.values = tree.values ∧ tree.Resembles image := by
  intro state
  have copies := @copy_meets α σ tree shape Copier.verbatim (· = ·) standing valid room
    fun _ _ _ _ done => (EStateM.Result.ok.inj done).1
  rcases copies.cases state with ⟨image, after, done, size, values⟩ |
    ⟨_, _, _, _, _, _, failed, _⟩
  · have same : image.values = tree.values := table_eq size values
    obtain ⟨_, _, _, final, upright, likened, _⟩ := copy_likened standing.upright done
    obtain ⟨kids, whole⟩ := standing.embodies.2
    have isSame : ∀ template ∈ [shape], ∀ twig ∈ template.twigs, ∀ list copied,
        twig.payload = some list → Recalled image.values.entries list copied →
          copied = list := by
      rintro _ member twig isTwig list copied carried recalled
      rw [List.mem_singleton.mp member] at isTwig
      obtain ⟨node, found, isPayload⟩ :=
        Arena.carried?_eq_some.mp (whole.held twig isTwig).1
      rw [same] at recalled
      exact (eq_recall recalled).trans
        (recall_eq_self (stored_of_node standing found (isPayload.trans carried)))
    have shapes := anonymous_of_likened likened isSame
    rw [List.map_singleton, List.map_singleton, List.map_singleton,
      recast_same] at shapes
    rw [done]
    exact ⟨same, (resembles_iff standing.embodies upright.embodies).mpr
      (List.cons.inj shapes).1⟩
  · cases failed

theorem perform_copy_resembles (standing : tree.Standing shape)
    (valid : tree.config.Valid)
    (room : shape.ids.length ≤ tree.config.nodeCapacity) (state : σ) :
    (tree.perform (.copy Copier.verbatim state)).values = tree.values ∧
      tree.Resembles (tree.perform (.copy Copier.verbatim state)) := by
  rcases (copy_resembles standing valid room).cases state with
    ⟨image, after, done, looks⟩ | ⟨_, _, _, never⟩
  · rw [perform, done]
    exact looks
  · exact never.elim

end

/-- Trees that look the same but for their handles answer the same to all
calls, and go on to look the same. -/
theorem lookalikes_answer_alike {config : Config} (valid : config.Valid) :
    ∃ start : Tree α, withConfig config = .ok start ∧
      ∀ requests others : List (Request α),
        (requests.foldl perform start).values =
          (others.foldl perform start).values →
        (requests.foldl perform start).Resembles (others.foldl perform start) →
        ∀ (actions : List (Action σ α)) (state : σ),
          Action.trail actions (requests.foldl perform start, state) =
              Action.trail actions (others.foldl perform start, state) ∧
            (Action.finish actions (requests.foldl perform start, state)).1.Resembles
              (Action.finish actions (others.foldl perform start, state)).1 := by
  obtain ⟨start, created, shape, abides⟩ := @abides_withConfig α config valid
  refine ⟨start, created, fun requests others values resembles actions state => ?_⟩
  obtain ⟨first, left⟩ := abides.history requests
  obtain ⟨second, right⟩ := abides.history others
  have twins : Twins config _ _ first second := ⟨left, right,
    (resembles_iff left.upright.embodies right.upright.embodies).mp resembles, values⟩
  obtain ⟨same, shape, final, ends⟩ := twins.trail actions state
  exact ⟨same, (resembles_iff ends.left.upright.embodies
    ends.right.upright.embodies).mpr ends.same⟩

/-- A tree that has taken up slots anew, and its copy, which has not. -/
theorem lookalikes_answer_alike_copied :
    ({ maxValues := 2, chunkSize := 1, nodeCapacity := 8 } : Config).Valid ∧
      ∃ start original image : Tree Nat,
        withConfig { maxValues := 2, chunkSize := 1, nodeCapacity := 8 } =
          .ok start ∧
        [Request.insert 5 (.answering compare) (), .insert 7 (.answering compare) (),
          .remove 7 (.answering compare) (),
          .insert 6 (.answering compare) ()].foldl perform start = original ∧
        original.perform (.copy Copier.verbatim ()) =
          image ∧
        original.dump.map (·.map Row.id) = .ok [⟨0, 0⟩, ⟨1, 1⟩, ⟨2, 1⟩] ∧
        image.dump.map (·.map Row.id) = .ok [⟨0, 0⟩, ⟨1, 0⟩, ⟨2, 0⟩] ∧
        original.values = image.values ∧ original.Resembles image ∧
        Action.trail [.insert 8 (.answering compare), .depth, .inOrder]
            (original, ()) =
          Action.trail [.insert 8 (.answering compare), .depth, .inOrder]
            (image, ()) := by
  have valid : ({ maxValues := 2, chunkSize := 1, nodeCapacity := 8 } :
      Config).Valid := by
    constructor <;> decide
  obtain ⟨requests, areThese⟩ : ∃ requests : List (Request Nat), requests = [
      .insert 5 (.answering compare) (), .insert 7 (.answering compare) (),
      .remove 7 (.answering compare) (), .insert 6 (.answering compare) ()] :=
    ⟨_, rfl⟩
  obtain ⟨start, created, alike⟩ := @lookalikes_answer_alike Nat Unit _ valid
  obtain ⟨again, recreated, reaches⟩ := @standing_after_requests Nat _ valid
  obtain rfl := Except.ok.inj (created.symm.trans recreated)
  have steady : ∀ request ∈ requests, request.Steady := by
    intro request member
    simp only [areThese, List.mem_cons, List.not_mem_nil, or_false] at member
    rcases member with rfl | rfl | rfl | rfl <;>
      exact ⟨_, Comparator.steady_answering compare⟩
  obtain ⟨shape, standing, abides⟩ := reaches requests steady
  obtain ⟨values, resembles⟩ := perform_copy_resembles standing
    (abides.config ▸ valid) abides.room ()
  have isLast : (requests ++ [Request.copy Copier.verbatim ()]).foldl perform start =
      (requests.foldl perform start).perform (.copy Copier.verbatim ()) := by
    rw [List.foldl_append, List.foldl_cons, List.foldl_nil]
  rw [← isLast] at values resembles
  have same := (alike _ _ values.symm resembles
    [.insert 8 (.answering compare), .depth, .inOrder] ()).1
  rw [isLast] at values resembles same
  rw [← areThese]
  refine ⟨valid, start, _, _, created, rfl, rfl, ?_, ?_, values.symm, resembles, same⟩
  · obtain rfl := Except.ok.inj created
    rw [areThese]
    decide +kernel
  · obtain rfl := Except.ok.inj created
    rw [areThese]
    decide +kernel

end Tree

end LinkedBTree
