import LinkedBTree.Proofs.Tree.Copying
import LinkedBTree.Proofs.Tree.History

namespace LinkedBTree.Tree

/-! What every history keeps, even one whose comparators contradict themselves:
the tree is upright, and as large as its configuration allows. -/

variable {α : Type}

open Subtree

inductive Reshapes (config : Config) : Shape α → Shape α → Prop
  | same (shape : Shape α) : Reshapes config shape shape
  | grown {path leaf front entry back fresh}
      (supplied : config.Supplied ⟨front ++ entry :: back⟩ fresh) :
      Reshapes config (plug path (.node leaf (some ⟨front ++ back⟩) []))
        (plug path (grown config leaf ⟨front ++ entry :: back⟩ fresh))
  | erased {path leaf front entry back} :
      Reshapes config (plug path (.node leaf (some ⟨front ++ entry :: back⟩) []))
        (erased path leaf front entry back)
  | overwritten {path leaf front old entry back} :
      Reshapes config (plug path (.node leaf (some ⟨front ++ old :: back⟩) []))
        (overwritten path leaf front entry back)
  | spread {path id list fresh}
      (length : fresh.length = (list.pieces config.chunkSize).length)
      (several : 2 ≤ (list.pieces config.chunkSize).length) :
      Reshapes config (plug path (.node id (some list) []))
        (plug path (spread id fresh (list.pieces config.chunkSize)))
  | copied {copies shape final}
      (likened : Likened (Recalled copies) [shape] [final]) :
      Reshapes config shape final

/-- The tree is upright, and made for this configuration. -/
structure Abides (tree : Tree α) (config : Config) (shape : Shape α) : Prop where
  upright : tree.Upright shape
  root : tree.root = ⟨0, 0⟩
  capacity : tree.arena.capacity = config.nodeCapacity
  config : tree.config = config

namespace Abides

variable {σ : Type} {tree : Tree α} {config : Config} {shape final : Shape α}
  {arena : Arena (EntryList α)} {values : ValueTable α}

theorem room (abides : tree.Abides config shape) :
    shape.ids.length ≤ tree.config.nodeCapacity := by
  obtain ⟨_, kids, whole⟩ := abides.upright.embodies
  have bounded := whole.tidy.bounded
  rw [← whole.liveCount_eq, abides.config, ← abides.capacity]
  unfold Arena.liveCount
  omega

theorem lacksLeaves_iff (abides : tree.Abides config shape)
    (positive : 0 < config.chunkSize) (list : EntryList α) :
    2 ≤ (list.pieces config.chunkSize).length ∧ tree.arena.capacity <
        tree.arena.liveCount + (list.pieces config.chunkSize).length ↔
      config.LacksLeaves tree.arena.liveCount list.length := by
  rw [EntryList.length_pieces positive, abides.capacity, Config.LacksLeaves]
  -- At least two nodes are needed, so a difference cut off at zero does no harm.
  refine and_congr_right fun several => ?_
  omega

theorem not_room_iff (abides : tree.Abides config shape) (positive : 0 < config.chunkSize)
    {list : EntryList α} {length : Nat} (isLength : list.length = length + 1) :
    ¬Edit.Room tree list ↔ config.OutOfNodes tree.arena.liveCount length := by
  have lacks := abides.lacksLeaves_iff positive list
  rw [isLength] at lacks
  unfold Edit.Room Config.Overfull Config.OutOfNodes
  rw [abides.config, isLength, Classical.not_imp, and_assoc, Nat.not_le]
  exact and_congr_right fun _ => lacks

theorem alter (abides : tree.Abides config shape)
    (same : arena.capacity = tree.arena.capacity)
    (upright : ({ tree with arena, values } : Tree α).Upright final) :
    ({ tree with arena, values } : Tree α).Abides config final :=
  ⟨upright, abides.root, same.trans abides.capacity, abides.config⟩

theorem refused {error : Error} {last : Tree α} (abides : tree.Abides config shape)
    (refused : Refused tree shape error last) : last.Abides config shape := by
  obtain ⟨arena, rfl⟩ := refused.same
  exact abides.alter (congrArg Prod.fst refused.setting) refused.upright

theorem insert (abides : tree.Abides config shape) (value : α)
    (compare : Comparator σ α) (state : σ) :
    ∃ final, (reached (insert value compare (tree, state))).1.Abides config final ∧
      Reshapes config shape final := by
  have ends := insert_ends abides.upright value compare state
  generalize Tree.insert value compare (tree, state) = outcome at ends ⊢
  cases ends with
  | stored landed supplied kept embodied =>
      obtain rfl := landed.gap
      obtain rfl := abides.config
      exact ⟨_, abides.alter (congrArg Prod.fst kept)
        (abides.upright.stored rfl supplied embodied), .grown supplied⟩
  | refused refused => exact ⟨shape, abides.refused refused, .same shape⟩
  | found _ => exact ⟨shape, abides, .same shape⟩
  | raised _ => exact ⟨shape, abides, .same shape⟩

theorem remove (abides : tree.Abides config shape) (value : α)
    (compare : Comparator σ α) (state : σ) :
    ∃ final, (reached (remove value compare (tree, state))).1.Abides config final ∧
      Reshapes config shape final := by
  have ends := remove_ends abides.upright value compare state
  generalize Tree.remove value compare (tree, state) = outcome at ends ⊢
  cases ends with
  | found landed kept embodied =>
      obtain rfl := landed.found
      exact ⟨_, abides.alter (congrArg Prod.fst kept)
        (abides.upright.erased rfl embodied), .erased⟩
  | absent _ => exact ⟨shape, abides, .same shape⟩
  | raised _ => exact ⟨shape, abides, .same shape⟩

theorem replace (abides : tree.Abides config shape) (old new : α)
    (compare : Comparator σ α) (state : σ) :
    ∃ final, (reached (replace old new compare (tree, state))).1.Abides
      config final ∧ Reshapes config shape final := by
  have ends := replace_ends abides.upright old new compare state
  generalize Tree.replace old new compare (tree, state) = outcome at ends ⊢
  cases ends with
  | replaced landed _ kept embodied =>
      obtain rfl := landed.found
      exact ⟨_, abides.alter (congrArg Prod.fst kept)
        (abides.upright.overwritten rfl embodied), .overwritten⟩
  | misfit _ _ => exact ⟨shape, abides, .same shape⟩
  | absent _ => exact ⟨shape, abides, .same shape⟩
  | raised _ => exact ⟨shape, abides, .same shape⟩

theorem split (abides : tree.Abides config shape) (id : NodeId) :
    ∃ final, (reached (Edit.split id tree)).Abides config final ∧
      Reshapes config shape final := by
  have ends := split_ends abides.upright id
  generalize Edit.split id tree = outcome at ends ⊢
  cases ends with
  | cut whole several length kept embodied =>
      subst whole
      obtain rfl := abides.config
      exact ⟨_, abides.alter (congrArg Prod.fst kept)
        (abides.upright.splitted length several embodied), .spread length several⟩
  | refused refused => exact ⟨shape, abides.refused refused, .same shape⟩
  | short _ _ => exact ⟨shape, abides, .same shape⟩
  | branch _ _ => exact ⟨shape, abides, .same shape⟩
  | dead _ => exact ⟨shape, abides, .same shape⟩

theorem copy (abides : tree.Abides config shape) {copyValue : Copier σ α}
    {state after : σ} {image : Tree α}
    (done : tree.copy copyValue state = .ok image after) :
    ∃ final, image.Abides config final ∧ Reshapes config shape final := by
  obtain ⟨isRoot, same, capacity, final, upright, likened, _⟩ :=
    copy_likened abides.upright done
  refine ⟨final, ⟨upright, isRoot, ?_, same.trans abides.config⟩, .copied likened⟩
  rw [capacity abides.room, abides.config]

end Abides

theorem Abides.perform {tree : Tree α} {config : Config} {shape : Shape α}
    (abides : tree.Abides config shape) (request : Request α) :
    ∃ final, (tree.perform request).Abides config final ∧
      Reshapes config shape final := by
  cases request with
  | insert value compare state => exact abides.insert value compare state
  | remove value compare state => exact abides.remove value compare state
  | replace old new compare state => exact abides.replace old new compare state
  | split id => exact abides.split id
  | copy copyValue state =>
      rw [Tree.perform]
      cases outcome : tree.copy copyValue state with
      | error error after => exact ⟨shape, abides, .same shape⟩
      | ok image after => exact abides.copy outcome

theorem Abides.history {tree : Tree α} {config : Config} {shape : Shape α}
    (abides : tree.Abides config shape) (requests : List (Request α)) :
    ∃ final, (requests.foldl Tree.perform tree).Abides config final := by
  induction requests generalizing tree shape with
  | nil => exact ⟨shape, abides⟩
  | cons request rest induction =>
      obtain ⟨final, abides, _⟩ := abides.perform request
      exact induction abides

theorem abides_empty {config : Config} (valid : config.Valid) :
    ∃ start : Tree α, withConfig config = .ok start ∧
      start.Abides config (.node start.root (some {}) []) := by
  obtain ⟨start, created, stands, isRoot, _, isConfig, setting⟩ :=
    @standing_withConfig α config valid
  exact ⟨start, created, stands.upright, isRoot, congrArg Prod.fst setting,
    isConfig⟩

theorem abides_withConfig {config : Config} (valid : config.Valid) :
    ∃ start : Tree α, withConfig config = .ok start ∧
      ∃ shape, start.Abides config shape := by
  obtain ⟨start, created, abides⟩ := @abides_empty α config valid
  exact ⟨start, created, _, abides⟩

theorem standing_after_requests {config : Config} (valid : config.Valid) :
    ∃ start : Tree α, withConfig config = .ok start ∧
      ∀ requests : List (Request α),
        (∀ request ∈ requests, request.Steady) →
        ∃ shape, (requests.foldl Tree.perform start).Standing shape ∧
          (requests.foldl Tree.perform start).Abides config shape := by
  obtain ⟨start, created, stands, isRoot, _⟩ := @standing_withConfig α _ valid
  obtain ⟨again, recreated, shape, abides⟩ := @abides_withConfig α config valid
  obtain rfl := Except.ok.inj (created.symm.trans recreated)
  refine ⟨start, created, fun requests steady => ?_⟩
  obtain ⟨⟨final, standing⟩, _⟩ := stands.history isRoot steady
  obtain ⟨_, abides⟩ := abides.history requests
  exact ⟨final, standing, standing.upright, abides.root, abides.capacity,
    abides.config⟩

end LinkedBTree.Tree
