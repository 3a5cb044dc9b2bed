import LinkedBTree.Proofs.Tree.Dumping
import LinkedBTree.Proofs.Tree.Reachable

namespace LinkedBTree.Tree

/-! Two trees that differ in their handles alone answer alike, and go on so. -/

variable {α β σ : Type}

open Subtree

/-- Two trees for one configuration, of one form, with the same values. -/
structure Twins (config : Config) (tree other : Tree α) (shape final : Shape α) :
    Prop where
  left : tree.Abides config shape
  right : other.Abides config final
  same : shape.anonymous = final.anonymous
  values : tree.values = other.values

def Agree (config : Config) :
    EStateM.Result Error (Tree α × σ) β → EStateM.Result Error (Tree α × σ) β → Prop
  | .ok result (tree, after), .ok reply (other, later) =>
      result = reply ∧ after = later ∧
        ∃ shape final, Twins config tree other shape final
  | .error error (tree, after), .error refusal (other, later) =>
      error.root = refusal.root ∧ after = later ∧
        ∃ shape final, Twins config tree other shape final
  | _, _ => False

namespace Twins

variable {config : Config} {tree other : Tree α} {shape final : Shape α}
  {value : α} {compare : Comparator σ α} {pastEqual : Bool}

private theorem descend_alike (same : shape.anonymous = final.anonymous) :
    Alike (fun landing place =>
        landing.rename nameless = place.rename nameless)
      (descend value compare pastEqual [] shape)
      (descend value compare pastEqual [] final) := by
  intro state
  have left := congrFun (descend_rename nameless value compare pastEqual [] shape)
    state
  have right := congrFun (descend_rename nameless value compare pastEqual [] final)
    state
  rw [run_map] at left right
  have equal := left.symm.trans
    ((congrArg (fun shape => descend value compare pastEqual [] shape state)
      same).trans right)
  cases first : descend value compare pastEqual [] shape state <;>
    cases second : descend value compare pastEqual [] final state <;>
    simp_all

private theorem descended (same : shape.anonymous = final.anonymous)
    (value : α) (compare : Comparator σ α) (pastEqual : Bool) (state : σ) :
    (∃ path way id leaf children others stop after,
      descend value compare pastEqual [] shape state =
          .ok ⟨path, id, children, stop⟩ after ∧
        descend value compare pastEqual [] final state =
          .ok ⟨way, leaf, others, stop⟩ after ∧
        path.map (Frame.rename nameless) = way.map (Frame.rename nameless)) ∨
    ∃ error refusal after,
      descend value compare pastEqual [] shape state = .error error after ∧
        descend value compare pastEqual [] final state = .error refusal after ∧
        error.root = refusal.root := by
  rcases (descend_alike same).cases state with
    ⟨⟨path, id, children, stop⟩, ⟨way, leaf, others, ends⟩, after, first, second,
      equal⟩ | failed
  · injection equal with isPath _ _ isStop
    obtain rfl := isStop
    exact .inl ⟨path, way, id, leaf, children, others, stop, after, first, second,
      isPath⟩
  · exact .inr failed

theorem config_eq (twins : Twins config tree other shape final) :
    other.config = tree.config :=
  twins.right.config.trans twins.left.config.symm

theorem room_iff (twins : Twins config tree other shape final)
    (list : EntryList α) : Edit.Room tree list ↔ Edit.Room other list := by
  obtain ⟨_, kids, whole⟩ := twins.left.upright.embodies
  obtain ⟨_, others, again⟩ := twins.right.upright.embodies
  unfold Edit.Room
  rw [twins.config_eq, whole.liveCount_eq, again.liveCount_eq, length_ids twins.same,
    twins.left.capacity, twins.right.capacity]

private theorem anonymous_plug {path way : List (Frame α)} {part place : Shape α}
    (around : path.map (Frame.rename nameless) = way.map (Frame.rename nameless))
    (same : part.anonymous = place.anonymous) :
    (plug path part).anonymous = (plug way place).anonymous := by
  unfold anonymous at *
  rw [rename_plug, rename_plug, around, same]

private theorem anonymous_grown {id leaf : NodeId} {list : EntryList α}
    {fresh spare : List NodeId} (supplied : config.Supplied list fresh)
    (also : config.Supplied list spare) :
    (grown config id list fresh).anonymous =
      (grown config leaf list spare).anonymous := by
  unfold anonymous
  rw [rename_grown, rename_grown]
  by_cases full : config.Overfull list
  · have blank : fresh.map nameless = spare.map nameless := by
      apply List.ext_getElem
      · rw [List.length_map, List.length_map, supplied full, also full]
      · intro position _ _
        rw [List.getElem_map, List.getElem_map]
        rfl
    rw [blank]
    rfl
  · rw [grown, grown, if_neg full, if_neg full]
    rfl

theorem insert_agree (twins : Twins config tree other shape final) (value : α)
    (compare : Comparator σ α) (state : σ) :
    Agree config (insert value compare (tree, state))
      (insert value compare (other, state)) := by
  have here := twins.left.upright
  have there := twins.right.upright
  rcases descended twins.same value compare false state with
    ⟨path, way, id, leaf, children, others, stop, after, first, second, around⟩ |
    ⟨error, refusal, after, first, second, same⟩
  · cases stop with
    | equal front entry back =>
        rw [insert_found here first, insert_found there second]
        exact ⟨rfl, rfl, _, _, twins⟩
    | before front back =>
        by_cases room : Edit.Room tree ⟨front ++ ⟨value, tree.values.size⟩ :: back⟩
        · have alsoRoom := (twins.room_iff _).mp room
          rw [twins.values] at alsoRoom
          obtain ⟨fresh, arena, done, supplied, kept, embodied⟩ :=
            insert_room here first room
          obtain ⟨spare, again, redone, resupplied, rekept, reembodied⟩ :=
            insert_room there second alsoRoom
          rw [done, redone]
          rw [(here.landed first).gap] at here
          rw [(there.landed second).gap] at there
          have grown := twins.left.alter (congrArg Prod.fst kept)
            (here.stored rfl supplied embodied)
          have regrown := twins.right.alter (congrArg Prod.fst rekept)
            (there.stored rfl resupplied reembodied)
          refine ⟨by rw [twins.values], rfl, _, _, grown, regrown, ?_, ?_⟩
          · rw [twins.config_eq, ← twins.values] at resupplied ⊢
            exact anonymous_plug around (anonymous_grown supplied resupplied)
          · rw [twins.values]
        · have alsoFull := (twins.room_iff _).not.mp room
          rw [twins.values] at alsoFull
          obtain ⟨arena, error, failed, cause, unwound, upright⟩ :=
            insert_refused here first room
          obtain ⟨again, refusal, refused, why, alsoUnwound, stays⟩ :=
            insert_refused there second alsoFull
          rw [failed, refused]
          refine ⟨?_, rfl, shape, final, ?_, ?_, twins.same, twins.values⟩
          · rw [cause, why, twins.left.capacity, twins.right.capacity]
          · exact twins.left.alter unwound.capacity upright
          · exact twins.right.alter alsoUnwound.capacity stays
  · obtain ⟨raised, failed, cause⟩ := insert_raised here first
    obtain ⟨refused, refails, why⟩ := insert_raised there second
    rw [failed, refails]
    exact ⟨cause.trans (same.trans why.symm), rfl, _, _, twins⟩

theorem remove_agree (twins : Twins config tree other shape final) (value : α)
    (compare : Comparator σ α) (state : σ) :
    Agree config (remove value compare (tree, state))
      (remove value compare (other, state)) := by
  have here := twins.left.upright
  have there := twins.right.upright
  rcases descended twins.same value compare true state with
    ⟨path, way, id, leaf, children, others, stop, after, first, second, around⟩ |
    ⟨error, refusal, after, first, second, same⟩
  · cases stop with
    | equal front entry back =>
        obtain ⟨arena, done, kept, embodied⟩ := remove_found here first
        obtain ⟨again, redone, rekept, reembodied⟩ := remove_found there second
        rw [done, redone]
        rw [(here.landed first).found] at here
        rw [(there.landed second).found] at there
        refine ⟨rfl, rfl, _, _,
          twins.left.alter (congrArg Prod.fst kept) (here.erased rfl embodied),
          twins.right.alter (congrArg Prod.fst rekept)
            (there.erased rfl reembodied), ?_, ?_⟩
        · unfold anonymous
          rw [rename_erased, rename_erased, around]
          rfl
        · rw [twins.values]
    | before front back =>
        rw [remove_gap here first, remove_gap there second]
        exact ⟨rfl, rfl, _, _, twins⟩
  · obtain ⟨raised, failed, cause⟩ := remove_raised here first
    obtain ⟨refused, refails, why⟩ := remove_raised there second
    rw [failed, refails]
    exact ⟨cause.trans (same.trans why.symm), rfl, _, _, twins⟩

theorem replace_agree (twins : Twins config tree other shape final) (old new : α)
    (compare : Comparator σ α) (state : σ) :
    Agree config (replace old new compare (tree, state))
      (replace old new compare (other, state)) := by
  have here := twins.left.upright
  have there := twins.right.upright
  rcases descended twins.same old compare true state with
    ⟨path, way, id, leaf, children, others, stop, between, first, second, around⟩ |
    ⟨error, refusal, after, first, second, same⟩
  · cases stop with
    | equal front entry back =>
        have isLeft : leftOf path = leftOf way := by
          rw [← leftOf_rename nameless path, around, leftOf_rename]
        have isRight : rightOf path = rightOf way := by
          rw [← rightOf_rename nameless path, around, rightOf_rename]
        cases checked : checkBetween new compare
          ((leftOf path ++ front).getLast?.map Entry.value)
          ((back ++ rightOf path).head?.map Entry.value) between with
        | ok _ after =>
            have rechecked := checked
            rw [isLeft, isRight] at rechecked
            obtain ⟨arena, done, kept, embodied⟩ := replace_found here first checked
            obtain ⟨again, redone, rekept, reembodied⟩ :=
              replace_found there second rechecked
            rw [done, redone]
            rw [(here.landed first).found] at here
            rw [(there.landed second).found] at there
            refine ⟨rfl, rfl, _, _,
              twins.left.alter (congrArg Prod.fst kept)
                (here.overwritten rfl embodied),
              twins.right.alter (congrArg Prod.fst rekept)
                (there.overwritten rfl reembodied), ?_, ?_⟩
            · unfold anonymous
              rw [rename_overwritten, rename_overwritten, around]
              rfl
            · rw [twins.values]
        | error error after =>
            have rechecked := checked
            rw [isLeft, isRight] at rechecked
            rw [replace_misfit here first checked,
              replace_misfit there second rechecked]
            exact ⟨rfl, rfl, _, _, twins⟩
    | before front back =>
        rw [replace_gap here first, replace_gap there second]
        exact ⟨rfl, rfl, _, _, twins⟩
  · obtain ⟨raised, failed, cause⟩ : ∃ raised,
        replace old new compare (tree, state) = .error raised (tree, after) ∧
          raised.root = error.root := replace_raised here first
    obtain ⟨refused, refails, why⟩ : ∃ raised,
        replace old new compare (other, state) = .error raised (other, after) ∧
          raised.root = refusal.root := replace_raised there second
    rw [failed, refails]
    exact ⟨cause.trans (same.trans why.symm), rfl, _, _, twins⟩

theorem consult_agree {query : Tree α → EStateM Error σ β}
    (twins : Twins config tree other shape final)
    (alike : Alike (· = ·) (query tree) (query other)) (state : σ) :
    Agree config (Session.consult query (tree, state))
      (Session.consult query (other, state)) := by
  rw [run_consult, run_consult]
  rcases alike.cases state with
    ⟨result, _, after, done, redone, rfl⟩ | ⟨error, refusal, after, failed, refused, same⟩
  · rw [done, redone]
    exact ⟨rfl, rfl, _, _, twins⟩
  · rw [failed, refused]
    exact ⟨same, rfl, _, _, twins⟩

private theorem same_of_stop {act again : EStateM Error σ β} {read : Stop α → β}
    (same : shape.anonymous = final.anonymous)
    (first : Alike (fun result landing => result = read landing.stop) act
      (descend value compare pastEqual [] shape))
    (second : Alike (fun result landing => result = read landing.stop) again
      (descend value compare pastEqual [] final)) : Alike (· = ·) act again := by
  have joined : Alike (fun result (place : Landing α) => result = read place.stop)
      act (descend value compare pastEqual [] final) := by
    refine first.trans (descend_alike same) ?_
    rintro _ ⟨path, id, children, stop⟩ ⟨way, leaf, others, ends⟩ rfl equal
    injection equal with _ _ _ isStop
    exact congrArg read isStop
  refine joined.trans second.symm ?_
  rintro _ place _ rfl rfl
  rfl

theorem get?_same (twins : Twins config tree other shape final) (value : α)
    (compare : Comparator σ α) :
    Alike (· = ·) (tree.get? value compare) (other.get? value compare) :=
  @same_of_stop α _ σ shape final value compare false _ _
    (fun stop => stop.equal?.map Entry.value) twins.same
    (get?_alike twins.left.upright value compare)
    (get?_alike twins.right.upright value compare)

theorem contains_same (twins : Twins config tree other shape final) (value : α)
    (compare : Comparator σ α) :
    Alike (· = ·) (tree.contains value compare) (other.contains value compare) :=
  @same_of_stop α _ σ shape final value compare false _ _
    (fun stop => stop.equal?.isSome) twins.same
    (contains_alike twins.left.upright value compare)
    (contains_alike twins.right.upright value compare)

end Twins

end LinkedBTree.Tree
