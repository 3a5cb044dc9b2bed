import LinkedBTree.Proofs.Tree.Reachable

namespace LinkedBTree.Tree

/-! A call that fails leaves the tree as it was. -/

variable {α : Type}

def failure? (tree : Tree α) : Request α → Option Error
  | .insert value compare state => raised? (Tree.insert value compare (tree, state))
  | .remove value compare state => raised? (Tree.remove value compare (tree, state))
  | .replace old new compare state =>
      raised? (Tree.replace old new compare (tree, state))
  | .split id => raised? (Edit.split id tree)
  | .copy copyValue state => raised? (tree.copy copyValue state)

/-- What a failed call leaves behind: the same nodes with the same links, and
the same values. -/
structure Unharmed (before after : Tree α) (error : Error) : Prop where
  root : after.root = before.root
  config : after.config = before.config
  values : after.values = before.values
  nodes : ∀ id, after.arena.node? id = before.arena.node? id
  liveCount : after.arena.liveCount = before.arena.liveCount
  capacity : after.arena.capacity = before.arena.capacity
  /-- Only an allocation that is refused leaves a trace, in the counters and
  among the free slots. -/
  untouched : error.root.category ≠ .allocation → after = before

namespace Unharmed

variable {tree : Tree α} {shape : Shape α} {error : Error}
  {arena : Arena (EntryList α)}

theorem refl (tree : Tree α) (error : Error) : Unharmed tree tree error :=
  ⟨rfl, rfl, rfl, fun _ => rfl, rfl, rfl, fun _ => rfl⟩

theorem of_refused {last : Tree α} (upright : tree.Upright shape)
    (refused : Refused tree shape error last) : Unharmed tree last error := by
  obtain ⟨_, kids, whole⟩ := upright.embodies
  obtain ⟨_, others, stillWhole⟩ := refused.upright.embodies
  obtain ⟨arena, rfl⟩ := refused.same
  refine ⟨rfl, rfl, rfl, whole.node?_eq stillWhole, ?_,
    Arena.capacity_of_setting refused.setting, fun other => ?_⟩
  · exact stillWhole.liveCount_eq.trans whole.liveCount_eq.symm
  · rw [refused.cause] at other
    exact absurd rfl other

end Unharmed

theorem Upright.unharmed {tree : Tree α} {shape : Shape α} {request : Request α}
    {error : Error} (upright : tree.Upright shape)
    (failed : tree.failure? request = some error) :
    Unharmed tree (tree.perform request) error := by
  cases request with
  | insert value compare state =>
      rw [failure?, raised?_eq_some] at failed
      obtain ⟨⟨last, after⟩, failed⟩ := failed
      rw [Tree.perform, failed]
      rcases insert_failed upright failed with ⟨rfl, _⟩ | refused
      · exact .refl last error
      · exact .of_refused upright refused
  | remove value compare state =>
      rw [failure?, raised?_eq_some] at failed
      obtain ⟨⟨last, after⟩, failed⟩ := failed
      rw [Tree.perform, failed]
      obtain ⟨rfl, _⟩ := remove_failed upright failed
      exact .refl last error
  | replace old new compare state =>
      rw [failure?, raised?_eq_some] at failed
      obtain ⟨⟨last, after⟩, failed⟩ := failed
      rw [Tree.perform, failed]
      obtain ⟨rfl, _⟩ := replace_failed upright failed
      exact .refl last error
  | split id =>
      rw [failure?, raised?_eq_some] at failed
      obtain ⟨last, failed⟩ := failed
      rw [Tree.perform, failed]
      rcases split_failed upright failed with ⟨rfl, _⟩ | refused
      · exact .refl last error
      · exact .of_refused upright refused
  | copy copyValue state =>
      rw [failure?, raised?_eq_some] at failed
      obtain ⟨after, failed⟩ := failed
      rw [Tree.perform, failed]
      exact .refl tree error

/-- Wherever a call fails, at a comparison or an allocation, the tree is as it
was before. -/
theorem failed_calls_are_atomic {config : Config} (valid : config.Valid) :
    ∃ start : Tree α, withConfig config = .ok start ∧
      ∀ (requests : List (Request α)) (request : Request α) (error : Error),
        (requests.foldl perform start).failure? request = some error →
        Unharmed (requests.foldl perform start)
          ((requests.foldl perform start).perform request) error := by
  obtain ⟨start, created, shape, abides⟩ := @abides_withConfig α config valid
  refine ⟨start, created, fun requests request error failed => ?_⟩
  obtain ⟨final, abides⟩ := abides.history requests
  exact abides.upright.unharmed failed

/-- The second value would take two nodes more than there are. -/
theorem failed_calls_are_atomic_exhausted :
    ({ maxValues := 2, chunkSize := 1, nodeCapacity := 2 } : Config).Valid ∧
      ∃ start : Tree Nat,
        withConfig { maxValues := 2, chunkSize := 1, nodeCapacity := 2 } =
          .ok start ∧
        ∃ error,
          (start.perform (.insert 5 (.answering compare) ())).failure?
            (.insert 7 (.answering compare) ()) = some error ∧
          error.root = .arenaExhausted 2 ∧
          Unharmed (start.perform (.insert 5 (.answering compare) ()))
            ((start.perform (.insert 5 (.answering compare) ())).perform
              (.insert 7 (.answering compare) ())) error := by
  have valid : ({ maxValues := 2, chunkSize := 1, nodeCapacity := 2 } :
      Config).Valid := by
    constructor <;> decide
  obtain ⟨start, created, atomic⟩ := @failed_calls_are_atomic Nat _ valid
  have refused : ((start.perform (.insert 5 (.answering compare) ())).failure?
      (.insert 7 (.answering compare) ())).map Error.root =
        some (.arenaExhausted 2) := by
    obtain rfl := Except.ok.inj created
    decide +kernel
  obtain ⟨error, failed, cause⟩ := Option.map_eq_some_iff.mp refused
  exact ⟨valid, start, created, error, failed, cause,
    atomic [.insert 5 (.answering compare) ()] _ error failed⟩

end LinkedBTree.Tree
