import LinkedBTree.Proofs.Echoing
import LinkedBTree.Proofs.Arena.Payloads
import LinkedBTree.Proofs.Tree.Copyable

namespace LinkedBTree.Tree

/-! Copying entries one after the other asks for a copy where an index first
turns up, and shares that copy from then on. -/

variable {α σ : Type}

/-- The first entry under every index but those known already. -/
def firsts (known : List Nat) : List (Entry α) → List (Entry α)
  | [] => []
  | entry :: rest =>
      if entry.index ∈ known then
        firsts known rest
      else
        entry :: firsts (entry.index :: known) rest

section

variable {known : List Nat} {entries : List (Entry α)} {entry : Entry α}

theorem mem_of_firsts (first : entry ∈ firsts known entries) : entry ∈ entries := by
  induction entries generalizing known with
  | nil => exact first
  | cons other rest induction =>
      rw [firsts] at first
      split at first
      · exact List.mem_cons_of_mem _ (induction first)
      · rw [List.mem_cons] at first ⊢
        exact first.imp_right induction

theorem not_known_of_firsts (first : entry ∈ firsts known entries) :
    entry.index ∉ known := by
  induction entries generalizing known with
  | nil => cases first
  | cons other rest induction =>
      rw [firsts] at first
      split at first
      · exact induction first
      · rcases List.mem_cons.mp first with rfl | later
        · assumption
        · exact fun isKnown => induction later (List.mem_cons_of_mem _ isKnown)

theorem nodup_firsts (known : List Nat) (entries : List (Entry α)) :
    ((firsts known entries).map Entry.index).Nodup := by
  induction entries generalizing known with
  | nil => exact List.nodup_nil
  | cons entry rest induction =>
      rw [firsts]
      split
      · exact induction known
      · rw [List.map_cons, List.nodup_cons]
        refine ⟨fun again => ?_, induction _⟩
        obtain ⟨other, first, same⟩ := List.mem_map.mp again
        exact not_known_of_firsts first (same ▸ List.mem_cons_self)

theorem nodup_zip_firsts {images : List α}
    (length : images.length = (firsts known entries).length) :
    (((firsts known entries).zip images).map fun pair => pair.1.index).Nodup := by
  have nodup := nodup_firsts known entries
  rw [← List.map_fst_zip (Nat.le_of_eq length.symm), List.map_map] at nodup
  exact nodup

theorem exists_first (member : entry ∈ entries) :
    entry.index ∈ known ∨
      ∃ first ∈ firsts known entries, first.index = entry.index := by
  induction entries generalizing known with
  | nil => cases member
  | cons other rest induction =>
      rw [firsts]
      rcases List.mem_cons.mp member with rfl | later
      · split
        · exact .inl ‹_›
        · exact .inr ⟨entry, List.mem_cons_self, rfl⟩
      · split
        · exact induction later
        · rcases @induction (other.index :: known) later with
            isKnown | ⟨first, isFirst, same⟩
          · rcases List.mem_cons.mp isKnown with same | isKnown
            · exact .inr ⟨other, List.mem_cons_self, same.symm⟩
            · exact .inl isKnown
          · exact .inr ⟨first, List.mem_cons_of_mem _ isFirst, same⟩

end

def stored (copies : Copies α) (images : List (Entry α × α)) : Copies α :=
  images.foldl (fun copies (entry, image) =>
    copies.setIfInBounds entry.index (some image)) copies

section

variable {copies : Copies α} {images : List (Entry α × α)} {index : Nat}

@[simp] theorem size_stored : (stored copies images).size = copies.size := by
  induction images generalizing copies with
  | nil => rfl
  | cons pair rest induction =>
      exact induction.trans (Array.size_setIfInBounds ..)

theorem stored_of_not_mem (absent : ∀ pair ∈ images, pair.1.index ≠ index) :
    (stored copies images)[index]? = copies[index]? := by
  induction images generalizing copies with
  | nil => rfl
  | cons pair rest induction =>
      refine (induction fun other member => absent other (by simp [member])).trans ?_
      exact Array.getElem?_setIfInBounds_ne (absent pair (by simp))

theorem stored_of_mem {pair : Entry α × α}
    (nodup : (images.map fun pair => pair.1.index).Nodup) (member : pair ∈ images)
    (inRange : pair.1.index < copies.size) :
    (stored copies images)[pair.1.index]? = some (some pair.2) := by
  induction images generalizing copies with
  | nil => cases member
  | cons other rest induction =>
      rw [List.map_cons, List.nodup_cons] at nodup
      rcases List.mem_cons.mp member with rfl | later
      · have apart : ∀ other ∈ rest, other.1.index ≠ pair.1.index := by
          intro other member same
          exact nodup.1 (List.mem_map.mpr ⟨other, member, same⟩)
        refine (stored_of_not_mem apart).trans ?_
        exact Array.getElem?_setIfInBounds_self_of_lt inRange
      · exact induction nodup.2 later (by simpa using inRange)

end

section

variable (copy : Copier σ α) {copies : Copies α} {known : List Nat}
  {entries : List (Entry α)}

def copyValues (entries : List (Entry α)) : EStateM Error σ (List α) :=
  entries.mapM fun entry => copy entry.value

theorem copyValues_cons (entry : Entry α) (rest : List (Entry α)) :
    copyValues copy (entry :: rest) = (do
      let image ← copy entry.value
      let images ← copyValues copy rest
      pure (image :: images)) :=
  List.mapM_cons

theorem length_copyValues {images : List α} {state after : σ}
    (done : copyValues copy entries state = .ok images after) :
    images.length = entries.length := by
  induction entries generalizing images state after with
  | nil =>
      obtain ⟨rfl, _⟩ := EStateM.Result.ok.inj done
      rfl
  | cons entry rest induction =>
      rw [copyValues_cons] at done
      obtain ⟨image, between, _, done⟩ := run_bind_eq_ok.mp done
      obtain ⟨others, final, later, done⟩ := run_bind_eq_ok.mp done
      obtain ⟨rfl, _⟩ := EStateM.Result.ok.inj done
      rw [List.length_cons, List.length_cons, induction later]

private theorem copyEntry_of_known {entry : Entry α} {image : α}
    (isKnown : copies[entry.index]? = some (some image)) (state : σ) :
    copyEntry copy entry (copies, state) =
      .ok ⟨image, entry.index⟩ (copies, state) := by
  unfold copyEntry
  simp only [isKnown]

private theorem copyEntry_echoes {entry : Entry α}
    (isNew : copies[entry.index]? = some none) :
    Echoes (copy entry.value) (copyEntry copy entry) copies fun image _ last =>
      last = copies.setIfInBounds entry.index (some image) := by
  intro state
  unfold copyEntry
  simp only [isNew]
  cases copy entry.value state with
  | ok image after => exact ⟨_, _, rfl, rfl⟩
  | error error after => exact ⟨_, rfl⟩

theorem copyEntries_echoes (inRange : ∀ entry ∈ entries, entry.index < copies.size)
    (marked : ∀ index, copies[index]?.join.isSome ↔ index ∈ known) :
    Echoes (copyValues copy (firsts known entries)) (entries.mapM (copyEntry copy))
      copies fun images _ last =>
        last = stored copies ((firsts known entries).zip images) := by
  induction entries generalizing copies known with
  | nil => exact .pure rfl
  | cons entry rest induction =>
      have isInRange := inRange entry List.mem_cons_self
      have restInRange := fun other member =>
        inRange other (List.mem_cons_of_mem entry member)
      rw [firsts, List.mapM_cons]
      split
      · rename_i isKnown
        obtain ⟨image, isImage⟩ :=
          Option.isSome_iff_exists.mp ((marked entry.index).mpr isKnown)
        rw [Option.join_eq_some_iff] at isImage
        apply Echoes.after (copyEntry_of_known copy isImage)
        rw [← bind_pure (copyValues copy (firsts known rest))]
        exact (induction restInRange marked).bind fun _ _ _ isStored => .pure isStored
      · rename_i isNew
        have unmarked : copies[entry.index]? = some none := by
          have blank := mt (marked entry.index).mp isNew
          rw [Array.getElem?_eq_getElem isInRange] at blank ⊢
          rw [Option.join_some, Option.not_isSome_iff_eq_none] at blank
          rw [blank]
        rw [copyValues_cons]
        apply (copyEntry_echoes copy unmarked).bind
        rintro image made _ rfl
        have remarked : ∀ index,
            (copies.setIfInBounds entry.index (some image))[index]?.join.isSome ↔
              index ∈ entry.index :: known := by
          intro index
          rw [List.mem_cons]
          by_cases same : index = entry.index
          · simp [same, isInRange]
          · rw [Array.getElem?_setIfInBounds_ne (Ne.symm same), marked,
              or_iff_right same]
        apply (induction (by simpa using restInRange) remarked).bind
        exact fun images _ last isStored => .pure isStored

def listed (payload : Option (EntryList α)) : List (Entry α) :=
  payload.elim [] EntryList.entries

private theorem mute_transcribe (payload : Option (EntryList α)) :
    mute (Arena.transcribe (copyList copy) payload) =
      mute ((listed payload).mapM (copyEntry copy)) := by
  cases payload with
  | none => rfl
  | some list =>
      have isMapped : Arena.transcribe (copyList copy) (some list) =
          (fun entries => some ⟨entries⟩) <$> list.entries.mapM (copyEntry copy) := by
        funext state
        rw [Arena.transcribe, Arena.copyFrom, copyList, run_bind, run_map]
        cases list.entries.mapM (copyEntry copy) state <;> rfl
      rw [isMapped, mute_map]
      rfl

private theorem mute_transcribeAll (payloads : List (Option (EntryList α))) :
    mute (Arena.transcribeAll (copyList copy) payloads) =
      mute ((payloads.flatMap listed).mapM (copyEntry copy)) := by
  induction payloads with
  | nil => rfl
  | cons payload rest induction =>
      rw [Arena.transcribeAll_cons, List.flatMap_cons, List.mapM_append, mute_both,
        mute_both, mute_transcribe, induction]

theorem transcribeAll_echoes {payloads : List (Option (EntryList α))}
    (inRange : ∀ entry ∈ payloads.flatMap listed, entry.index < copies.size)
    (marked : ∀ index, copies[index]?.join.isSome ↔ index ∈ known) :
    Echoes (copyValues copy (firsts known (payloads.flatMap listed)))
      (Arena.transcribeAll (copyList copy) payloads) copies fun images _ last =>
        last = stored copies ((firsts known (payloads.flatMap listed)).zip images) :=
  (copyEntries_echoes copy inRange marked).of_mute (mute_transcribeAll copy payloads)

end

end LinkedBTree.Tree
