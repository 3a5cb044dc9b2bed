import LinkedBTree.Proofs.Tree.Extent
import LinkedBTree.Proofs.Tree.Recasting
import LinkedBTree.Proofs.Tree.Sharing

namespace LinkedBTree.Tree

/-! What a copy of a tree consists of, and what it asks of the caller's copier. -/

variable {α σ : Type}

open Subtree

/-- What a copy asks for: the first entry under every index, where each node comes
before its children. -/
def asked (rows : List (Row α)) : List (Entry α) :=
  firsts [] (rows.flatMap fun row => listed row.list)

/-- A copy of a tree with these rows, for which the copier made these values of
the entries beside them. -/
structure Duplicates (tree image : Tree α) (rows : List (Row α))
    (copies : List (Entry α × α)) : Prop where
  config : image.config = tree.config
  root : image.root = ⟨0, 0⟩
  nodes : image.arena.liveCount = rows.length
  size : image.values.size = tree.values.size
  holes : ∀ index, image.values.value? index = none ↔ tree.values.value? index = none
  stored : ∀ pair ∈ copies, image.values.value? pair.1.index = some pair.2
  /-- Every entry, wherever it stands, has one of the copies. -/
  shared : ∀ row ∈ rows, ∀ entry ∈ listed row.list,
    ∃ pair ∈ copies, pair.1.index = entry.index
  /-- Every list holds what the values array has under the same indexes. -/
  dump : ∃ images change, image.dump = .ok images ∧
    images.map Row.id = (List.range rows.length).map (NodeId.mk · 0) ∧
    images = rows.map fun row =>
      (row.recast (EntryList.recall image.values)).rename change

section

variable {tree image : Tree α} {shape : Shape α} {copier : Copier σ α}

private theorem map_list_rows (shape : Shape α) (parent : Option NodeId) :
    (shape.rows parent).map Row.list = shape.payloads := by
  unfold payloads
  induction shape using Subtree.induction generalizing parent with
  | node id payload children induction =>
      rw [rows_node, twigs_node, List.map_cons, List.map_cons, List.map_flatMap,
        List.map_flatMap, List.flatMap_def, List.flatMap_def]
      exact congrArg (payload :: List.flatten ·)
        (List.map_congr_left fun child member => induction child member (some id))

theorem asked_rows (shape : Shape α) :
    asked (shape.rows none) = firsts [] (shape.payloads.flatMap listed) := by
  rw [asked, ← map_list_rows shape none, List.flatMap_map]

private theorem listed_of_entries {entry : Entry α} (member : entry ∈ shape.entries) :
    entry ∈ shape.payloads.flatMap listed := by
  unfold payloads
  induction shape using Subtree.induction with
  | node id payload children induction =>
      rw [twigs_node, List.map_cons, List.flatMap_cons, List.mem_append]
      by_cases isLeaf : children = []
      · rw [entries, if_pos isLeaf] at member
        exact .inl member
      · rw [entries_branch isLeaf] at member
        obtain ⟨child, isChild, inside⟩ := List.mem_flatMap.mp member
        rw [List.map_flatMap, List.flatMap_assoc]
        have isBelow := induction child isChild inside
        exact .inr (List.mem_flatMap.mpr ⟨child, isChild, isBelow⟩)

theorem Standing.stored_of_listed (standing : tree.Standing shape) :
    ∀ entry ∈ shape.payloads.flatMap listed,
      tree.values.value? entry.index = some entry.value := by
  intro entry member
  obtain ⟨_, kids, whole⟩ := standing.embodies
  obtain ⟨payload, isPayload, inside⟩ := List.mem_flatMap.mp member
  obtain ⟨twig, isTwig, rfl⟩ := List.mem_map.mp isPayload
  obtain ⟨node, found, carried⟩ :=
    Arena.carried?_eq_some.mp (whole.held twig isTwig).1
  cases isList : twig.payload with
  | none =>
      rw [isList] at inside
      cases inside
  | some list =>
      rw [isList] at inside
      exact stored_of_node standing found (carried.trans isList) entry inside

theorem Standing.stored_of_asked (standing : tree.Standing shape) :
    ∀ entry ∈ asked (shape.rows none),
      tree.values.value? entry.index = some entry.value := by
  rw [asked_rows]
  exact fun entry first => standing.stored_of_listed entry (mem_of_firsts first)

theorem Standing.asked_perm (standing : tree.Standing shape) :
    ((asked (shape.rows none)).map fun entry => (entry.index, entry.value)).Perm
      tree.values.toList := by
  refine ValueTable.Mirrors.perm_toList ⟨?_, standing.stored_of_asked, ?_⟩
  · rw [asked_rows]
    exact nodup_firsts [] (shape.payloads.flatMap listed)
  · intro index value known
    obtain ⟨entry, member, rfl⟩ := standing.mirrors.listed index value known
    rw [asked_rows]
    exact (exists_first (listed_of_entries member)).resolve_left List.not_mem_nil

private abbrev blank (tree : Tree α) : Copies α :=
  Array.replicate tree.values.size none

private theorem blank_join (index : Nat) : (blank tree)[index]?.join = none := by
  rw [Array.getElem?_replicate]
  split <;> rfl

private theorem value_of_stored {entries : List (Entry α)} {copies : List α}
    (isStored : ∀ entry ∈ entries, tree.values.value? entry.index = some entry.value)
    {index : Nat} {image : α}
    (isCopied : (stored (blank tree) (entries.zip copies))[index]?.join = some image) :
    ∃ value, tree.values.value? index = some value := by
  by_cases present : ∃ pair ∈ entries.zip copies, pair.1.index = index
  · obtain ⟨pair, member, rfl⟩ := present
    exact ⟨_, isStored pair.1 (List.of_mem_zip member).1⟩
  · rw [stored_of_not_mem fun pair member same => present ⟨pair, member, same⟩,
      blank_join] at isCopied
    cases isCopied

private theorem copy_cases (standing : tree.Standing shape) (valid : tree.config.Valid)
    (room : shape.ids.length ≤ tree.config.nodeCapacity) (state : σ) :
    match copyValues copier (asked (shape.rows none)) state with
    | .ok copies after =>
        ∃ image, tree.copy copier state = .ok image after ∧
          image.values =
            .ofEntries (stored (blank tree) ((asked (shape.rows none)).zip copies))
    | .error error after =>
        ∃ raised, tree.copy copier state = .error raised after ∧
          raised.root = error.root := by
  have isAsked := standing.stored_of_asked
  rw [asked_rows] at isAsked ⊢
  obtain ⟨isRoot, kids, whole⟩ := standing.embodies
  obtain ⟨_, tidy, _⟩ := Arena.vacant_withCapacity (@withCapacity_ok α _ valid)
  have inRange : ∀ entry ∈ shape.payloads.flatMap listed,
      entry.index < (blank tree).size := by
    intro entry member
    rw [Array.size_replicate]
    exact ValueTable.lt_size_of_value? (standing.stored_of_listed entry member)
  have unmarked : ∀ index : Nat, (blank tree)[index]?.join.isSome ↔ index ∈ [] := by
    intro index
    rw [blank_join]
    exact ⟨nofun, nofun⟩
  have copied := Arena.copyInto_echoes (copyList copier) whole.forest whole.held
    (Arena.forest_withCapacity (@withCapacity_ok α _ valid)) tidy
    (by simpa [Arena.liveCount] using room) (blank tree, state)
  rw [isRoot] at copied
  generalize isOutcome : tree.arena.copyInto tree.root _ _ _ = outcome at copied
  rcases (transcribeAll_echoes copier inRange unmarked).cases state with
    ⟨copies, made, last, after, called, done, rfl⟩ |
    ⟨error, last, after, called, failed⟩
  · rw [called]
    rw [done] at copied
    obtain ⟨root, isCopied, isState⟩ := copied
    have made : ∀ index image, outcome.state.1[index]?.join = some image →
        ∃ value, tree.values.value? index = some value := by
      rw [isState]
      exact fun _ _ => value_of_stored isAsked
    have succeeded := (copy_of_copied standing valid isOutcome isCopied made).2
    rw [isState] at succeeded
    exact ⟨_, succeeded, rfl⟩
  · rw [called]
    rw [failed] at copied
    obtain ⟨raised, isRaised, sameRoot, isState⟩ := copied
    have failed := copy_of_failed valid isOutcome isRaised
    rw [isState] at failed
    exact ⟨_, failed, sameRoot⟩

private theorem dump_of_likened (embodies : tree.Embodies shape) {final : Shape α}
    (also : image.Embodies final)
    (likened : Likened (Recalled image.values.entries) [shape] [final])
    (numbered : final.ids = (List.range final.ids.length).map (NodeId.mk · 0)) :
    image.arena.liveCount = (shape.rows none).length ∧
      ∃ images change, image.dump = .ok images ∧
        images.map Row.id =
          (List.range (shape.rows none).length).map (NodeId.mk · 0) ∧
        images = (shape.rows none).map fun row =>
          (row.recast (EntryList.recall image.values)).rename change := by
  have same : (shape.recast (EntryList.recall image.values)).anonymous =
      final.anonymous := by
    have shapes := anonymous_of_likened likened fun _ _ _ _ _ _ _ => eq_recall
    exact (List.cons.inj shapes).1
  have length : final.ids.length = (shape.rows none).length := by
    rw [← length_ids same, ids_recast, ← @map_id_rows α shape none, List.length_map]
  obtain ⟨kids, isWhole⟩ := embodies.2
  obtain ⟨others, isAlso⟩ := also.2
  have nodup : (shape.recast (EntryList.recall image.values)).ids.Nodup := by
    rw [ids_recast]
    exact isWhole.forest.nodup_ids isWhole.held
  obtain ⟨change, renamed, _⟩ :=
    exists_renaming same nodup (isAlso.forest.nodup_ids isAlso.held)
  refine ⟨isAlso.liveCount_eq.trans length, final.rows none, change, dump_eq also,
    ?_, ?_⟩
  · rw [map_id_rows, ← length]
    exact numbered
  · rw [← renamed]
    refine (@rows_rename α _ none change).trans ?_
    rw [rows_recast, List.map_map]
    rfl

theorem copy_duplicates (standing : tree.Standing shape) (valid : tree.config.Valid)
    (room : shape.ids.length ≤ tree.config.nodeCapacity) {state after : σ}
    {copies : List α} (done : tree.copy copier state = .ok image after)
    (length : copies.length = (asked (shape.rows none)).length)
    (values : image.values =
      .ofEntries (stored (blank tree) ((asked (shape.rows none)).zip copies))) :
    tree.Duplicates image (shape.rows none) ((asked (shape.rows none)).zip copies) := by
  obtain ⟨isRoot, sameConfig, _, final, upright, likened, numbered⟩ :=
    copy_likened standing.upright done
  obtain ⟨size, related⟩ := (@copy_meets α σ tree shape copier (fun _ _ => True)
    standing valid room fun _ _ _ _ _ => trivial).of_ok done
  obtain ⟨nodes, dumped⟩ :=
    dump_of_likened standing.embodies upright.embodies likened numbered
  refine ⟨sameConfig, isRoot, nodes, size, fun index => ?_, ?_, ?_, dumped⟩
  · have alike := related index
    generalize image.values.value? index = copied at alike ⊢
    generalize tree.values.value? index = value at alike ⊢
    cases alike with
    | none => exact Iff.rfl
    | some _ => exact ⟨nofun, nofun⟩
  · intro pair member
    have isLive := standing.stored_of_asked pair.1 (List.of_mem_zip member).1
    have inRange : pair.1.index < (blank tree).size := by
      rw [Array.size_replicate]
      exact ValueTable.lt_size_of_value? isLive
    rw [values]
    exact congrArg Option.join (stored_of_mem (nodup_zip_firsts length) member inRange)
  · intro row isRow entry inside
    have member : entry ∈ (shape.rows none).flatMap fun row => listed row.list :=
      List.mem_flatMap.mpr ⟨row, isRow, inside⟩
    obtain ⟨first, isAsked, same⟩ :=
      (exists_first member).resolve_left List.not_mem_nil
    rw [← asked, ← List.map_fst_zip (Nat.le_of_eq length.symm)] at isAsked
    obtain ⟨pair, isPair, rfl⟩ := List.mem_map.mp isAsked
    exact ⟨pair, isPair, same⟩

end

/-- How a tree with these rows is copied. -/
structure Copyable (tree : Tree α) (rows : List (Row α)) : Prop where
  dump : tree.dump = .ok rows
  /-- Every live value is asked for once. -/
  once : ((asked rows).map fun entry => (entry.index, entry.value)).Perm
    tree.values.toList
  /-- The copier is called as often and in the order in which it is asked, up to
  its first failure. -/
  copies : ∀ {σ : Type} (copier : Copier σ α) (state : σ),
    match copyValues copier (asked rows) state with
    | .ok copies after =>
        ∃ image, tree.copy copier state = .ok image after ∧
          tree.Duplicates image rows ((asked rows).zip copies)
    | .error error after =>
        ∃ raised, tree.copy copier state = .error raised after ∧
          raised.root = error.root

theorem Standing.copyable {tree : Tree α} {shape : Shape α}
    (standing : tree.Standing shape) (valid : tree.config.Valid)
    (room : shape.ids.length ≤ tree.config.nodeCapacity) :
    tree.Copyable (shape.rows none) := by
  refine ⟨dump_eq standing.embodies, standing.asked_perm, fun copier state => ?_⟩
  have outcome := @copy_cases _ _ tree shape copier standing valid room state
  cases called : copyValues copier (asked (shape.rows none)) state with
  | error error after =>
      rw [called] at outcome
      exact outcome
  | ok copies after =>
      rw [called] at outcome
      obtain ⟨image, done, values⟩ := outcome
      have length := length_copyValues copier called
      exact ⟨image, done, copy_duplicates standing valid room done length values⟩

/-- Whatever a tree went through, a copy of it is exact, and copies every live
value once. -/
theorem copies_are_exact {config : Config} (valid : config.Valid) :
    ∃ start : Tree α, withConfig config = .ok start ∧
      ∀ requests : List (Request α),
        (∀ request ∈ requests, request.Steady) →
        ∃ rows, (requests.foldl perform start).Copyable rows := by
  obtain ⟨start, created, reaches⟩ := @standing_after_requests α config valid
  refine ⟨start, created, fun requests steady => ?_⟩
  obtain ⟨shape, standing, abides⟩ := reaches requests steady
  exact ⟨_, standing.copyable (abides.config ▸ valid) abides.room⟩

/-- A tree with a hole, where the copier is asked for the separator and not for the
leaf it comes from. -/
theorem copies_are_exact_parted :
    ({ maxValues := 2, chunkSize := 1, nodeCapacity := 8 } : Config).Valid ∧
      ∃ start tree : Tree Nat, ∃ rows,
        withConfig { maxValues := 2, chunkSize := 1, nodeCapacity := 8 } =
          .ok start ∧
        [Request.insert 5 (.answering compare) (), .insert 7 (.answering compare) (),
          .insert 6 (.answering compare) (),
          .remove 7 (.answering compare) ()].foldl perform start = tree ∧
        tree.Copyable rows ∧
        tree.dump.map (·.map fun row => (listed row.list).map Entry.index) =
          .ok [[0], [0], [2]] ∧
        tree.dump.map asked = .ok [⟨5, 0⟩, ⟨6, 2⟩] := by
  have valid : ({ maxValues := 2, chunkSize := 1, nodeCapacity := 8 } :
      Config).Valid := by
    constructor <;> decide
  obtain ⟨requests, areThese⟩ : ∃ requests : List (Request Nat), requests = [
      .insert 5 (.answering compare) (), .insert 7 (.answering compare) (),
      .insert 6 (.answering compare) (), .remove 7 (.answering compare) ()] :=
    ⟨_, rfl⟩
  have steady : ∀ request ∈ requests, request.Steady := by
    intro request member
    simp only [areThese, List.mem_cons, List.not_mem_nil, or_false] at member
    rcases member with rfl | rfl | rfl | rfl <;>
      exact ⟨_, Comparator.steady_answering compare⟩
  obtain ⟨start, created, copied⟩ := @copies_are_exact Nat _ valid
  obtain ⟨rows, copyable⟩ := copied requests steady
  rw [← areThese]
  refine ⟨valid, start, _, rows, created, rfl, copyable, ?_, ?_⟩
  · obtain rfl := Except.ok.inj created
    rw [areThese]
    decide +kernel
  · obtain rfl := Except.ok.inj created
    rw [areThese]
    decide +kernel

end LinkedBTree.Tree
