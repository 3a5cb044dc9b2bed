import LinkedBTree.Proofs.Tree.Reachable

namespace LinkedBTree

/-! Copying a standing tree comes to its end unless the caller's copier fails:
there is a node for every copy, and the copies are those of the live values. -/

variable {α σ : Type}

open Subtree

def Copier.Raises (copy : Copier σ α) (what : Cause) (after : σ) : Prop :=
  ∃ value state error, copy value state = .error error after ∧ error.root = what

namespace Tree

variable {tree : Tree α} {shape : Shape α} {copy : Copier σ α}
  {related : α → α → Prop} {table : ValueTable α}

/-- There is a place for every value, and whatever is in one was made for it. -/
structure Taken (made : Nat → α → Prop) (size : Nat) (state : Copies α × σ) : Prop where
  size : state.1.size = size
  made : ∀ index image, state.1[index]?.join = some image → made index image

variable {made : Nat → α → Prop} {size : Nat}

theorem taken_blank (state : σ) :
    Taken made size ((Array.replicate size none : Copies α), state) := by
  refine ⟨Array.size_replicate, fun index image isCopied => ?_⟩
  rw [Array.getElem?_replicate] at isCopied
  split at isCopied <;> cases isCopied

/-- An entry cannot be copied if the copier fails, or if there is no place for it. -/
def Uncopied (copy : Copier σ α) (size : Nat) (entries : List (Entry α)) (what : Cause)
    (after : σ) : Prop :=
  copy.Raises what after ∨
    ∃ entry ∈ entries, size ≤ entry.index ∧ what = .unknownIndex entry.index

private theorem copyEntry_leads {entries : List (Entry α)} {entry : Entry α}
    (member : entry ∈ entries)
    (makes : ∀ state image after,
      copy entry.value state = .ok image after → made entry.index image) :
    Leads (fun what state => Uncopied copy size entries what state.2) (Taken made size)
      (copyEntry copy entry) fun _ => Taken made size := by
  rintro ⟨copies, state⟩ taken
  unfold copyEntry
  cases found : copies[entry.index]? with
  | none =>
      have outside : size ≤ entry.index := taken.size ▸ Array.getElem?_eq_none_iff.mp found
      simp only [found]
      exact .inr ⟨entry, member, outside, rfl⟩
  | some slot =>
      cases slot with
      | some image =>
          simp only [found]
          exact taken
      | none =>
          simp only [found]
          cases outcome : copy entry.value state with
          | error error after => exact .inl ⟨_, _, error, outcome, rfl⟩
          | ok image after =>
              have inRange := (Array.getElem?_eq_some_iff.mp found).1
              refine ⟨by simpa using taken.size, fun index other isCopied => ?_⟩
              by_cases same : index = entry.index
              · have isImage : image = other := by simpa [same, inRange] using isCopied
                rw [same, ← isImage]
                exact makes state image after outcome
              · apply taken.made index other
                rwa [Array.getElem?_setIfInBounds_ne (Ne.symm same)] at isCopied

theorem copyList_leads {entries : List (Entry α)} {list : EntryList α}
    (inside : ∀ entry ∈ list.entries, entry ∈ entries)
    (makes : ∀ entry ∈ list.entries, ∀ state image after,
      copy entry.value state = .ok image after → made entry.index image) :
    Leads (fun what state => Uncopied copy size entries what state.2) (Taken made size)
      (copyList copy list) fun _ => Taken made size := by
  obtain ⟨own⟩ := list
  have mapped : Leads (fun what state => Uncopied copy size entries what state.2)
      (Taken made size) (own.mapM (copyEntry copy)) fun _ => Taken made size := by
    induction own with
    | nil => exact .pure fun _ taken => taken
    | cons entry rest induction =>
        rw [List.mapM_cons]
        apply (copyEntry_leads (inside entry List.mem_cons_self)
          (makes entry List.mem_cons_self)).bind
        intro image
        apply (induction (fun other member => inside other (by simp [member]))
          fun other member => makes other (by simp [member])).bind
        exact fun taken => .pure fun _ taken => taken
  exact mapped.bind fun taken => .pure fun _ taken => taken

private theorem live_iff {entries images : List (Entry α)} {copies : Copies α}
    (mirrors : table.Mirrors entries)
    (made : ∀ index image, copies[index]?.join = some image →
      ∃ value, table.value? index = some value)
    (recalled : entries.map (imageOf copies) = images.map some) (index : Nat) :
    (table.value? index).isSome ↔ (copies[index]?.join).isSome := by
  rw [Option.isSome_iff_exists, Option.isSome_iff_exists]
  constructor
  · rintro ⟨value, known⟩
    obtain ⟨entry, member, rfl⟩ := mirrors.listed index value known
    have isImage : imageOf copies entry ∈ images.map some :=
      recalled ▸ List.mem_map_of_mem member
    obtain ⟨image, _, isImage⟩ := List.mem_map.mp isImage
    exact ⟨_, (imageOf_eq_some.mp isImage.symm).1⟩
  · rintro ⟨image, isCopied⟩
    exact made index image isCopied

private def Images (related : α → α → Prop) (table : ValueTable α) (index : Nat)
    (image : α) : Prop :=
  ∃ value, table.value? index = some value ∧ related value image

private theorem rel_values {copies : Copies α} {state : σ}
    (taken : Taken (Images related table) table.size (copies, state))
    (live : ∀ index, (table.value? index).isSome ↔ (copies[index]?.join).isSome)
    (index : Nat) : Option.Rel related (table.value? index) copies[index]?.join := by
  cases isImage : copies[index]?.join with
  | none =>
      have dead : table.value? index = none := by
        rw [← Option.not_isSome_iff_eq_none, live index, isImage]
        exact Bool.false_ne_true
      rw [dead]
      exact .none
  | some image =>
      obtain ⟨value, known, isRelated⟩ := taken.made index image isImage
      rw [known]
      exact .some isRelated

theorem stored_of_node (standing : tree.Standing shape) {id : NodeId}
    {node : Node (EntryList α)} {list : EntryList α}
    (found : tree.arena.node? id = some node) (carried : node.payload = some list) :
    ∀ entry ∈ list.entries, tree.values.value? entry.index = some entry.value := by
  obtain ⟨_, kids, whole⟩ := standing.embodies
  obtain ⟨path, same, children, rfl⟩ :=
    standing.upright.exists_node (whole.covered id node found)
  obtain ⟨other, isNode, isList, _⟩ := whole.node_of_part
  obtain rfl := Option.some.inj (found.symm.trans isNode)
  obtain rfl := Option.some.inj (carried.symm.trans isList)
  intro entry inside
  exact standing.mirrors.stored entry (standing.mem_entries inside)

section

variable {state : σ} {root : NodeId} {error : Error}
  {outcome : Arena.CopyOutcome (Copies α × σ) (EntryList α)}

theorem copy_of_failed (valid : tree.config.Valid)
    (isOutcome : tree.arena.copyInto tree.root { capacity := tree.config.nodeCapacity }
      (copyList copy) (Array.replicate tree.values.size none, state) = outcome)
    (failed : outcome.result = .error error) :
    tree.copy copy state =
      .error (.context "unable to clone tree" error) outcome.state.2 := by
  unfold Tree.copy
  simp only [@withCapacity_ok α _ valid, isOutcome, failed]

theorem copy_of_root (valid : tree.config.Valid)
    (isOutcome : tree.arena.copyInto tree.root { capacity := tree.config.nodeCapacity }
      (copyList copy) (Array.replicate tree.values.size none, state) = outcome)
    (copied : outcome.result = .ok root) :
    tree.copy copy state =
      if agrees tree.values (.ofEntries outcome.state.1) then
        .ok
          { arena := outcome.target
            root
            values := .ofEntries outcome.state.1
            config := tree.config } outcome.state.2
      else
        match Arena.dropping (Arena.release root) outcome.target with
        | .error error _ => .error error outcome.state.2
        | .ok _ _ => .error (.cause .copyDisagrees) outcome.state.2 := by
  obtain ⟨_, target, freed, copies, after⟩ := outcome
  obtain rfl := copied
  unfold Tree.copy
  cases released : Arena.dropping (Arena.release root) target <;>
    simp only [@withCapacity_ok α _ valid, isOutcome, released]

theorem copy_of_copied (standing : tree.Standing shape) (valid : tree.config.Valid)
    (isOutcome : tree.arena.copyInto tree.root { capacity := tree.config.nodeCapacity }
      (copyList copy) (Array.replicate tree.values.size none, state) = outcome)
    (copied : outcome.result = .ok root)
    (made : ∀ index image, outcome.state.1[index]?.join = some image →
      ∃ value, tree.values.value? index = some value) :
    (∀ index, (tree.values.value? index).isSome ↔
      (outcome.state.1[index]?.join).isSome) ∧
      tree.copy copy state = .ok
        { arena := outcome.target
          root
          values := .ofEntries outcome.state.1
          config := tree.config } outcome.state.2 := by
  obtain ⟨isRoot, kids, whole⟩ := standing.embodies
  have started := @withCapacity_ok α _ valid
  obtain ⟨vacant, tidy, _⟩ := Arena.vacant_withCapacity started
  rw [copy_of_root valid isOutcome copied]
  subst isOutcome
  rw [← isRoot] at copied made ⊢
  obtain ⟨_, image, _, _, likened, _⟩ := Arena.whole_of_copyInto whole.forest
    whole.held (copyList_relates copy) (Arena.forest_withCapacity started) tidy
    vacant copied
  have recalled := (likened_reads likened).2.1
  rw [List.flatMap_singleton, List.flatMap_singleton] at recalled
  have live := live_iff standing.mirrors made recalled
  rw [if_pos (agrees_iff.mpr live)]
  exact ⟨live, rfl⟩

end

theorem copy_meets (standing : tree.Standing shape) (valid : tree.config.Valid)
    (room : shape.ids.length ≤ tree.config.nodeCapacity)
    (makes : ∀ value state image after,
      copy value state = .ok image after → related value image) :
    Meets copy.Raises (tree.copy copy) fun image =>
      image.values.size = tree.values.size ∧
        ∀ index, Option.Rel related (tree.values.value? index)
          (image.values.value? index) := by
  intro state
  obtain ⟨isRoot, kids, whole⟩ := standing.embodies
  obtain ⟨_, tidy, _⟩ := Arena.vacant_withCapacity (@withCapacity_ok α _ valid)
  have copies : ∀ id ∈ shape.ids, ∀ node payload,
      tree.arena.node? id = some node → node.payload = some payload →
        Leads (fun what state => copy.Raises what state.2)
          (Taken (Images related tree.values) tree.values.size) (copyList copy payload)
          fun _ => Taken (Images related tree.values) tree.values.size := by
    intro id _ node payload found carried
    have known := stored_of_node standing found carried
    refine Leads.weaken (copyList_leads (fun _ member => member)
      fun entry member state image after done =>
        ⟨_, known entry member, makes _ _ _ _ done⟩) ?_
    rintro what state (raised | ⟨entry, member, outside, _⟩)
    · exact raised
    · exact absurd (ValueTable.lt_size_of_value? (known entry member))
        (Nat.not_lt_of_le outside)
  have leads := Arena.copyInto_leads whole.forest whole.held copies
    (Arena.forest_withCapacity (@withCapacity_ok α _ valid)) tidy
    (by simpa [Arena.liveCount] using room) (taken_blank state)
  rw [isRoot] at leads
  generalize isOutcome : tree.arena.copyInto tree.root _ _ _ = outcome at leads
  cases copied : outcome.result with
  | error error =>
      rw [copied] at leads
      rw [copy_of_failed valid isOutcome copied]
      exact leads
  | ok root =>
      rw [copied] at leads
      have taken := leads.1
      have made : ∀ index image, outcome.state.1[index]?.join = some image →
          ∃ value, tree.values.value? index = some value := by
        intro index image isCopied
        obtain ⟨value, known, _⟩ := taken.made index image isCopied
        exact ⟨value, known⟩
      obtain ⟨live, done⟩ :=
        copy_of_copied standing valid isOutcome copied made
      rw [done]
      exact ⟨taken.size, rel_values taken live⟩

end Tree

end LinkedBTree
