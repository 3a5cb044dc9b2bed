import LinkedBTree.Proofs.Tree.Sharing

namespace LinkedBTree.Tree

/-! Copying a tree whose lists have been tampered with. Nothing is assumed of them: under
an index there may be several values, or one that the values array does not know. -/

variable {α σ : Type} {tree : Tree α} {shape : Shape α} {kids : NodeId → List NodeId}
  {copier : Copier σ α} {copies : Copies α} {index : Nat}

open Subtree

/-- Some node from the root down has an entry under the index. -/
def Lists (tree : Tree α) (index : Nat) : Prop :=
  ∃ ids id list, tree.arena.preorder tree.root = .ok ids ∧ id ∈ ids ∧
    tree.list id = .ok list ∧ index ∈ list.indexes

/-- The lists have the indexes at which the values array is live, and no others. -/
def Agreeing (tree : Tree α) : Prop :=
  ∀ index, tree.Lists index ↔ ∃ value, tree.values.value? index = some value

def indexLists (tree : Tree α) : Except Error (List (Option (List Nat))) := do
  let ids ← tree.arena.preorder tree.root
  pure (ids.map fun id => (tree.arena.payload? id).map EntryList.indexes)

/-- The lists have no values but those of the values array. -/
structure Coherent (tree : Tree α) : Prop where
  stored : ∀ id list, tree.list id = .ok list → ∀ entry ∈ list.entries,
    tree.values.value? entry.index = some entry.value
  shared : ∀ id list, tree.list id = .ok list → ∀ entry ∈ list.entries,
    ∀ other others, tree.list other = .ok others → ∀ twin ∈ others.entries,
      twin.index = entry.index → twin.value = entry.value

theorem Coherent.of_stored (stored : ∀ id list, tree.list id = .ok list →
    ∀ entry ∈ list.entries, tree.values.value? entry.index = some entry.value) :
    tree.Coherent where
  stored := stored
  shared id list isList entry member other others isOther twin isTwin same := by
    apply Option.some.inj
    rw [← stored id list isList entry member, ← same]
    exact (stored other others isOther twin isTwin).symm

theorem list_eq_ok_iff_payload {id : NodeId} {list : EntryList α} :
    tree.list id = .ok list ↔ tree.arena.payload? id = some list := by
  rw [list_eq_ok, Arena.carried?_eq_some, Arena.payload?, Option.bind_eq_some_iff]

theorem mem_listed {payloads : List (Option (EntryList α))} {entry : Entry α} :
    entry ∈ payloads.flatMap listed ↔
      ∃ list, some list ∈ payloads ∧ entry ∈ list.entries := by
  rw [List.mem_flatMap]
  constructor
  · rintro ⟨_ | list, member, inside⟩
    · cases inside
    · exact ⟨list, member, inside⟩
  · rintro ⟨list, member, inside⟩
    exact ⟨some list, member, inside⟩

theorem lists_iff (forest : tree.arena.Forest kids) (held : tree.arena.Holds kids shape)
    (isRoot : shape.id = tree.root) : tree.Lists index ↔
      ∃ entry ∈ shape.payloads.flatMap listed, entry.index = index := by
  have order := forest.preorder_eq held
  rw [isRoot] at order
  simp only [mem_listed, ← held.payloads_eq, List.mem_map]
  constructor
  · rintro ⟨ids, id, list, isOrder, member, isList, inside⟩
    obtain rfl := Except.ok.inj (order.symm.trans isOrder)
    obtain ⟨entry, isEntry, isIndex⟩ := List.mem_map.mp inside
    exact ⟨entry, ⟨list, ⟨id, member, list_eq_ok_iff_payload.mp isList⟩, isEntry⟩, isIndex⟩
  · rintro ⟨entry, ⟨list, ⟨id, member, isList⟩, isEntry⟩, isIndex⟩
    exact ⟨_, id, list, order, member, list_eq_ok_iff_payload.mpr isList,
      List.mem_map.mpr ⟨entry, isEntry, isIndex⟩⟩

theorem indexLists_eq (forest : tree.arena.Forest kids) (held : tree.arena.Holds kids shape)
    (isRoot : shape.id = tree.root) :
    tree.indexLists = .ok (shape.payloads.map (Option.map EntryList.indexes)) := by
  unfold indexLists
  rw [← isRoot, bind_of_ok (forest.preorder_eq held), ← held.payloads_eq, List.map_map]
  rfl

theorem likened_indexes {templates images : List (Shape α)}
    (likened : Likened (Recalled copies) templates images) :
    (images.flatMap payloads).map (Option.map EntryList.indexes) =
      (templates.flatMap payloads).map (Option.map EntryList.indexes) := by
  induction likened with
  | nil => rfl
  | @cons _ _ payload copied _ _ _ _ rel _ _ below beside =>
      have own : copied.map EntryList.indexes = payload.map EntryList.indexes := by
        cases rel with
        | none => rfl
        | some same => exact congrArg some (indexes_recalled same)
      simp only [List.flatMap_cons, payloads_node, List.map_append, List.map_cons, own, below,
        beside]

theorem likened_lists {templates images : List (Shape α)}
    (likened : Likened (Recalled copies) templates images) :
    ((templates.flatMap payloads).flatMap listed).map (imageOf copies) =
      ((images.flatMap payloads).flatMap listed).map some := by
  induction likened with
  | nil => rfl
  | @cons _ _ payload copied _ _ _ _ rel _ _ below beside =>
      have own : (listed payload).map (imageOf copies) = (listed copied).map some := by
        cases rel with
        | none => rfl
        | some same => exact same
      simp only [List.flatMap_cons, payloads_node, List.flatMap_append, List.map_append,
        own, below, beside]

private def Named (entries : List (Entry α)) (index : Nat) (_ : α) : Prop :=
  ∃ entry ∈ entries, entry.index = index

private theorem lists_lead (copier : Copier σ α) (held : tree.arena.Holds kids shape)
    {size : Nat} :
    ∀ id ∈ shape.ids, ∀ node list, tree.arena.node? id = some node →
      node.payload = some list →
      Leads (fun what state => Uncopied copier size (shape.payloads.flatMap listed) what state.2)
        (Taken (Named (shape.payloads.flatMap listed)) size) (copyList copier list)
        fun _ => Taken (Named (shape.payloads.flatMap listed)) size := by
  intro id member node list found carried
  have inside : ∀ entry ∈ list.entries, entry ∈ shape.payloads.flatMap listed := by
    intro entry isEntry
    refine mem_listed.mpr ⟨list, ?_, isEntry⟩
    rw [← held.payloads_eq]
    exact List.mem_map.mpr ⟨id, member, by rw [Arena.payload?, found]; exact carried⟩
  exact copyList_leads inside fun entry isEntry _ _ _ _ => ⟨entry, inside entry isEntry, rfl⟩

private theorem copied_or_unknown (forest : tree.arena.Forest kids)
    (held : tree.arena.Holds kids shape) (isRoot : shape.id = tree.root)
    (valid : tree.config.Valid) (room : shape.ids.length ≤ tree.config.nodeCapacity)
    (total : ∀ value state, ∃ image after, copier value state = .ok image after) (state : σ) :
    (∃ entry ∈ shape.payloads.flatMap listed, tree.values.size ≤ entry.index ∧
      ∃ error after, tree.copy copier state = .error error after ∧
        error.root = .unknownIndex entry.index) ∨
    ∃ arena others image copies after,
      Arena.Replicated { capacity := tree.config.nodeCapacity } arena others image ∧
      Likened (Recalled copies) [shape] [image] ∧
      (∀ index copied, copies[index]?.join = some copied →
        ∃ entry ∈ shape.payloads.flatMap listed, entry.index = index) ∧
      tree.copy copier state =
        if agrees tree.values (.ofEntries copies) then
          .ok { arena, root := image.id, values := .ofEntries copies, config := tree.config } after
        else
          .error (.cause .copyDisagrees) after := by
  have started := @withCapacity_ok α _ valid
  obtain ⟨_, tidy, _⟩ := Arena.vacant_withCapacity started
  have target := Arena.forest_withCapacity started
  have leads := Arena.copyInto_leads forest held (lists_lead copier held) target tidy
    (by simpa [Arena.liveCount] using room) (@taken_blank α σ _ tree.values.size state)
  rcases forest.copyInto_ends (copyList_relates copier) held target tidy
    ((Array.replicate tree.values.size none : Copies α), state) with
    ⟨arena, last, others, image, _, isOutcome, _, duplicate⟩ |
    ⟨error, _, arena, last, left, isOutcome, _⟩
  · rw [isOutcome] at leads
    rw [isRoot] at isOutcome
    obtain ⟨final, released, _⟩ := duplicate.release_eq
    have gone : Arena.dropping (Arena.release image.id) arena = .ok () final := by
      unfold Arena.dropping
      rw [released]
    refine .inr ⟨arena, others, image, last.1, last.2, duplicate.toReplicated,
      duplicate.likened, leads.1.made, ?_⟩
    rw [copy_of_root valid isOutcome rfl, gone]
  · rw [isOutcome] at leads
    rw [isRoot] at isOutcome
    rcases leads with ⟨value, before, error, failed, _⟩ | ⟨entry, member, outside, cause⟩
    · obtain ⟨_, _, done⟩ := total value before
      cases done.symm.trans failed
    · exact .inl ⟨entry, member, outside, _, _, copy_of_failed valid isOutcome rfl, cause⟩

private theorem coherent_of_likened {arena : Arena (EntryList α)}
    {others : NodeId → List NodeId} {image : Shape α} {capacity : Nat} {config : Config}
    (replicated : Arena.Replicated { capacity } arena others image)
    (likened : Likened (Recalled copies) [shape] [image]) :
    ({ arena, root := image.id, values := .ofEntries copies, config } : Tree α).Coherent := by
  refine .of_stored fun id list isList entry inside => ?_
  have isPayload := list_eq_ok_iff_payload.mp isList
  have member : id ∈ image.ids := by
    by_contra outside
    rw [Arena.payload?, replicated.lookup id outside] at isPayload
    simp [Arena.node?] at isPayload
  have isListed : entry ∈ image.payloads.flatMap listed := by
    refine mem_listed.mpr ⟨list, ?_, inside⟩
    rw [← replicated.held.payloads_eq]
    exact List.mem_map.mpr ⟨id, member, isPayload⟩
  have lists := likened_lists likened
  rw [List.flatMap_singleton, List.flatMap_singleton] at lists
  have isImage := lists ▸ List.mem_map_of_mem isListed
  obtain ⟨template, _, isImage⟩ := List.mem_map.mp isImage
  obtain ⟨known, same⟩ := imageOf_eq_some.mp isImage
  rw [same]
  exact known

private theorem live_copies_iff {image : Shape α} (forest : tree.arena.Forest kids)
    (held : tree.arena.Holds kids shape) (isRoot : shape.id = tree.root)
    (likened : Likened (Recalled copies) [shape] [image])
    (made : ∀ index copied, copies[index]?.join = some copied →
      ∃ entry ∈ shape.payloads.flatMap listed, entry.index = index) :
    ((ValueTable.ofEntries copies).value? index).isSome ↔ tree.Lists index := by
  rw [lists_iff forest held isRoot, Option.isSome_iff_exists]
  constructor
  · rintro ⟨copied, known⟩
    exact made index copied known
  · rintro ⟨entry, member, rfl⟩
    have lists := likened_lists likened
    rw [List.flatMap_singleton, List.flatMap_singleton] at lists
    have isImage := lists ▸ List.mem_map_of_mem member
    obtain ⟨twin, _, isImage⟩ := List.mem_map.mp isImage
    exact ⟨_, (imageOf_eq_some.mp isImage.symm).1⟩

/-- A copy is made if the lists of the nodes and the values array agree on the indexes,
and refused as corrupt if not. A copy agrees with itself, even if the tree does not. -/
theorem copies_detect_disagreement (forest : tree.arena.Forest kids)
    (tidy : tree.arena.Tidy) (live : tree.arena.contains tree.root = true)
    (valid : tree.config.Valid) (capacity : tree.arena.capacity = tree.config.nodeCapacity)
    (total : ∀ value state, ∃ image after, copier value state = .ok image after) (state : σ) :
    ((∃ image after, tree.copy copier state = .ok image after) ↔ tree.Agreeing) ∧
    (∀ error after, tree.copy copier state = .error error after →
      error.root.category = .corruption) ∧
    ∀ image after, tree.copy copier state = .ok image after →
      image.Coherent ∧ image.indexLists = tree.indexLists := by
  obtain ⟨node, found⟩ := Arena.contains_iff.mp live
  obtain ⟨shape, isRoot, held⟩ := forest.exists_subtree found
  have room : shape.ids.length ≤ tree.config.nodeCapacity :=
    capacity ▸ Nat.le_trans (forest.length_ids_le held) tidy.bounded
  rcases copied_or_unknown forest held isRoot valid room total state with
    ⟨entry, member, outside, error, after, failed, cause⟩ |
    ⟨arena, others, image, copies, after, replicated, likened, made, done⟩
  · rw [failed]
    refine ⟨⟨nofun, fun agreeing => ?_⟩, fun _ _ same => ?_, nofun⟩
    · obtain ⟨value, known⟩ := (agreeing entry.index).mp
        ((lists_iff forest held isRoot).mpr ⟨entry, member, rfl⟩)
      exact absurd (ValueTable.lt_size_of_value? known) (Nat.not_lt_of_le outside)
    · obtain ⟨rfl, rfl⟩ := EStateM.Result.error.inj same
      rw [cause]
      rfl
  · have same : agrees tree.values (.ofEntries copies) = true ↔ tree.Agreeing := by
      rw [agrees_iff]
      refine forall_congr' fun index => ?_
      rw [live_copies_iff forest held isRoot likened made, Option.isSome_iff_exists]
      exact iff_comm
    rw [done]
    by_cases agreeing : tree.Agreeing
    · rw [if_pos (same.mpr agreeing)]
      refine ⟨⟨fun _ => agreeing, fun _ => ⟨_, _, rfl⟩⟩, nofun, fun _ _ isImage => ?_⟩
      obtain ⟨rfl, rfl⟩ := EStateM.Result.ok.inj isImage
      refine ⟨coherent_of_likened replicated likened, ?_⟩
      have indexes := likened_indexes likened
      rw [List.flatMap_singleton, List.flatMap_singleton] at indexes
      rw [indexLists_eq replicated.forest replicated.held rfl,
        indexLists_eq forest held isRoot, indexes]
    · rw [if_neg (agreeing ∘ same.mp)]
      refine ⟨⟨nofun, fun isAgreeing => absurd isAgreeing agreeing⟩, fun _ _ isError => ?_,
        nofun⟩
      obtain ⟨rfl, rfl⟩ := EStateM.Result.error.inj isError
      rfl

/-- A separator that is not the value it was copied from passes, and what is left of its
leaf is forgotten. -/
theorem copies_detect_disagreement_separator :
    ∃ (start altered : Tree Nat) (kids : NodeId → List NodeId),
      withConfig { maxValues := 2, chunkSize := 1, nodeCapacity := 8 } = .ok start ∧
      ([Request.insert 5 (.answering compare) (), .insert 7 (.answering compare) ()].foldl
        perform start).setList ⟨0, 0⟩ ⟨[⟨9, 0⟩]⟩ = altered ∧
      altered.arena.Forest kids ∧ altered.arena.Tidy ∧
      altered.arena.contains altered.root = true ∧ altered.config.Valid ∧
      altered.arena.capacity = altered.config.nodeCapacity ∧ altered.Agreeing ∧
      ∃ image, altered.copy (fun value _ => .ok value ()) () = .ok image () ∧
        image.Coherent ∧ image.indexLists = .ok [some [0], some [0], some [1]] ∧
        image.values.entries = #[some 9, some 7] ∧ image.inOrder = .ok [9, 7] := by
  have valid : ({ maxValues := 2, chunkSize := 1, nodeCapacity := 8 } :
      Config).Valid := by
    constructor <;> decide
  obtain ⟨requests, areThese⟩ : ∃ requests : List (Request Nat), requests = [
      .insert 5 (.answering compare) (), .insert 7 (.answering compare) ()] := ⟨_, rfl⟩
  obtain ⟨start, created, shape, abides⟩ := @abides_withConfig Nat _ valid
  obtain ⟨_, abides⟩ := abides.history requests
  obtain ⟨_, kids, whole⟩ := abides.upright.embodies
  rw [← areThese]
  obtain ⟨altered, isAltered⟩ : ∃ altered,
      altered = (requests.foldl perform start).setList ⟨0, 0⟩ ⟨[⟨9, 0⟩]⟩ := ⟨_, rfl⟩
  have forest : altered.arena.Forest kids :=
    isAltered ▸ whole.forest.modify_payload _ fun _ => some ⟨[⟨9, 0⟩]⟩
  have tidy : altered.arena.Tidy := isAltered ▸ whole.tidy.modify _ _
  have isConfig : altered.config = { maxValues := 2, chunkSize := 1, nodeCapacity := 8 } :=
    isAltered ▸ abides.config
  have capacity : altered.arena.capacity = altered.config.nodeCapacity := by
    rw [isConfig, isAltered]
    exact abides.capacity
  have isValid : altered.config.Valid := isConfig ▸ valid
  obtain rfl := Except.ok.inj created
  have live : altered.arena.contains altered.root = true := by
    rw [isAltered, areThese]
    decide +kernel
  obtain ⟨agreeing_iff, _, coherent⟩ := @copies_detect_disagreement Nat Unit altered kids
    (fun value _ => .ok value ()) forest tidy live isValid capacity
    (fun value _ => ⟨value, (), rfl⟩) ()
  have copied : (returned? (altered.copy (fun value _ => .ok value ()) ())).map
      (fun image => (image.values.entries, image.inOrder)) =
        some (#[some 9, some 7], .ok [9, 7]) := by
    rw [isAltered, areThese]
    decide +kernel
  have lists : altered.indexLists = .ok [some [0], some [0], some [1]] := by
    rw [isAltered, areThese]
    decide +kernel
  obtain ⟨image, isImage, same⟩ := Option.map_eq_some_iff.mp copied
  obtain ⟨after, done⟩ := returned?_eq_some.mp isImage
  obtain ⟨entries, inOrder⟩ := Prod.mk.inj same
  obtain ⟨isCoherent, sameLists⟩ := coherent image after done
  exact ⟨_, altered, kids, rfl, isAltered.symm, forest, tidy, live, isValid, capacity,
    agreeing_iff.mp ⟨image, after, done⟩, image, done, isCoherent, sameLists.trans lists,
    entries, inOrder⟩

end LinkedBTree.Tree
