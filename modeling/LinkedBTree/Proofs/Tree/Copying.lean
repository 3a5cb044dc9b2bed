import Mathlib.Data.List.Perm.Subperm
import LinkedBTree.Tree.Copy
import LinkedBTree.Proofs.Ledger
import LinkedBTree.Proofs.Arena.Duplicating
import LinkedBTree.Proofs.Tree.Standing

namespace LinkedBTree

/-! A copy of a standing tree stands: every entry has become the copy that the
values array holds under its index. -/

variable {P α σ : Type}

open Subtree

namespace Arena

theorem whole_of_copyInto {related : σ → P → P → Prop} {copy : Copier σ P}
    {source target : Arena P} {sources kids : NodeId → List NodeId}
    {template : Subtree P} {state : σ} {root : NodeId}
    (form : source.Forest sources) (held : source.Holds sources template)
    (relates : copy.Relates related) (forest : target.Forest kids)
    (tidy : target.Tidy) (vacant : ∀ id, target.node? id = none)
    (done : (source.copyInto template.id target copy state).result = .ok root) :
    ∃ others image, (source.copyInto template.id target copy state).target.Whole
        others image ∧ image.id = root ∧
      Likened (related (source.copyInto template.id target copy state).state)
        [template] [image] ∧
      Numbered target (source.copyInto template.id target copy state).target
        image.ids ∧
      ∃ grown, allocate none target = .ok root grown := by
  rcases form.copyInto_ends relates held forest tidy state with
    ⟨after, last, others, image, grown, same, allocated, duplicate⟩ |
    ⟨_, _, _, _, _, failed, _⟩
  · rw [same] at done ⊢
    obtain rfl := Except.ok.inj done
    refine ⟨others, image, ⟨duplicate.forest, duplicate.held, duplicate.top, ?_,
      duplicate.tidy⟩, rfl, duplicate.likened, duplicate.numbered, grown, allocated⟩
    intro id node found
    by_contra outside
    rw [duplicate.lookup id outside, vacant] at found
    cases found
  · rw [failed] at done
    cases done

end Arena

namespace Tree

theorem isLive_eq (table : ValueTable α) (index : Nat) :
    isLive table index = (table.value? index).isSome := by
  unfold isLive ValueTable.get ValueTable.value?
  rcases table.entries[index]? with _ | _ | _ <;> rfl

theorem agrees_iff {table copies : ValueTable α} : agrees table copies = true ↔
    ∀ index, (table.value? index).isSome ↔ (copies.value? index).isSome := by
  have distinct (table : ValueTable α) : (table.toList.map Prod.fst).Nodup :=
    table.toList_ordered.imp Nat.ne_of_lt
  have length (table : ValueTable α) :
      (table.toList.map Prod.fst).length = table.count := by
    rw [List.length_map, ValueTable.length_toList]
  unfold agrees
  simp only [Bool.and_eq_true, beq_iff_eq, List.all_eq_true, isLive_eq,
    ← ValueTable.mem_indexes, ← length]
  constructor
  · rintro ⟨covered, same⟩ index
    have inside := List.subperm_of_subset (distinct table) (List.forall_mem_map.mpr covered)
    exact (inside.perm_of_length_le (Nat.le_of_eq same)).mem_iff
  · intro live
    have perm := (List.perm_ext_iff_of_nodup (distinct table) (distinct copies)).mpr live
    exact ⟨List.forall_mem_map.mp fun index => (live index).mp, perm.length_eq.symm⟩

def imageOf (copies : Copies α) (entry : Entry α) : Option (Entry α) :=
  copies[entry.index]?.join.map fun value => ⟨value, entry.index⟩

def Recalled (copies : Copies α) (list image : EntryList α) : Prop :=
  list.entries.map (imageOf copies) = image.entries.map some

theorem imageOf_eq_some {copies : Copies α} {entry image : Entry α} :
    imageOf copies entry = some image ↔
      copies[entry.index]?.join = some image.value ∧
        image.index = entry.index := by
  unfold imageOf
  rw [Option.map_eq_some_iff]
  constructor
  · rintro ⟨value, known, rfl⟩
    exact ⟨known, rfl⟩
  · rintro ⟨known, same⟩
    exact ⟨image.value, known, by rw [← same]⟩

private theorem copyEntry_ok {copy : Copier σ α} {entry image : Entry α}
    {before after : Copies α × σ}
    (done : copyEntry copy entry before = .ok image after) :
    imageOf after.1 entry = some image ∧
      ∀ other copied, imageOf before.1 other = some copied →
        imageOf after.1 other = some copied := by
  obtain ⟨copies, state⟩ := before
  unfold copyEntry at done
  simp only at done
  cases known : copies[entry.index]? with
  | none =>
      simp only [known] at done
      cases done
  | some found =>
      cases found with
      | some value =>
          simp only [known] at done
          obtain ⟨rfl, rfl⟩ := EStateM.Result.ok.inj done
          exact ⟨imageOf_eq_some.mpr ⟨by simp [known], rfl⟩, fun _ _ same => same⟩
      | none =>
          simp only [known] at done
          cases outcome : copy entry.value state with
          | error error stopped =>
              rw [outcome] at done
              cases done
          | ok value stopped =>
              rw [outcome] at done
              obtain ⟨rfl, rfl⟩ := EStateM.Result.ok.inj done
              have inRange := (Array.getElem?_eq_some_iff.mp known).1
              refine ⟨imageOf_eq_some.mpr ⟨by simp [inRange], rfl⟩, ?_⟩
              intro other copied isCopied
              obtain ⟨isValue, same⟩ := imageOf_eq_some.mp isCopied
              have different : entry.index ≠ other.index := by
                intro equal
                rw [← equal, known] at isValue
                cases isValue
              refine imageOf_eq_some.mpr ⟨?_, same⟩
              rw [Array.getElem?_setIfInBounds_ne different, isValue]

private theorem recalled_mono {copies later : Copies α} {entries images : List (Entry α)}
    (recalled : entries.map (imageOf copies) = images.map some)
    (keeps : ∀ other copied, imageOf copies other = some copied →
      imageOf later other = some copied) :
    entries.map (imageOf later) = images.map some := by
  rw [← recalled]
  apply List.map_congr_left
  intro entry member
  have known : imageOf copies entry ∈ images.map some := by
    rw [← recalled]
    exact List.mem_map_of_mem member
  obtain ⟨image, _, isImage⟩ := List.mem_map.mp known
  rw [← isImage, keeps entry image isImage.symm]

private theorem copyEntries_ok {copy : Copier σ α} {entries images : List (Entry α)}
    {before after : Copies α × σ}
    (done : entries.mapM (copyEntry copy) before = .ok images after) :
    entries.map (imageOf after.1) = images.map some ∧
      ∀ other copied, imageOf before.1 other = some copied →
        imageOf after.1 other = some copied := by
  induction entries generalizing before images with
  | nil =>
      rw [List.mapM_nil] at done
      obtain ⟨rfl, rfl⟩ := EStateM.Result.ok.inj done
      exact ⟨rfl, fun _ _ same => same⟩
  | cons entry rest induction =>
      rw [List.mapM_cons] at done
      obtain ⟨image, between, first, done⟩ := run_bind_eq_ok.mp done
      obtain ⟨others, final, second, done⟩ := run_bind_eq_ok.mp done
      obtain ⟨rfl, rfl⟩ := EStateM.Result.ok.inj done
      obtain ⟨isImage, keepsFirst⟩ := copyEntry_ok first
      obtain ⟨recalled, keepsRest⟩ := induction second
      refine ⟨?_, fun other copied same =>
        keepsRest other copied (keepsFirst other copied same)⟩
      rw [List.map_cons, List.map_cons, recalled, keepsRest entry image isImage]

theorem copyList_relates (copy : Copier σ α) :
    Copier.Relates (copyList copy)
      fun (state : Copies α × σ) => Recalled state.1 where
  made := by
    intro list image before after done
    obtain ⟨images, between, mapped, done⟩ := run_bind_eq_ok.mp done
    obtain ⟨rfl, rfl⟩ := EStateM.Result.ok.inj done
    exact (copyEntries_ok mapped).1
  kept := by
    intro list image before after other copied done recalled
    obtain ⟨images, between, mapped, done⟩ := run_bind_eq_ok.mp done
    obtain ⟨rfl, rfl⟩ := EStateM.Result.ok.inj done
    exact recalled_mono recalled (copyEntries_ok mapped).2

section

variable {copies : Copies α} {templates images : List (Shape α)}

private theorem getLast?_recalled {entries images : List (Entry α)}
    (recalled : entries.map (imageOf copies) = images.map some) :
    images.getLast? = entries.getLast?.bind (imageOf copies) := by
  have ends := congrArg List.getLast? recalled
  rw [List.getLast?_map, List.getLast?_map] at ends
  cases last : entries.getLast? <;> cases isLast : images.getLast? <;>
    simp_all

theorem likened_reads
    (likened : Likened (Recalled copies) templates images) :
    templates.length = images.length ∧
      (templates.flatMap entries).map (imageOf copies) =
        (images.flatMap entries).map some ∧
      images.map ending? =
        templates.map (fun shape => shape.ending?.bind (imageOf copies)) ∧
      ((∀ shape ∈ templates, Sound shape) → ∀ shape ∈ images, Sound shape) := by
  induction likened with
  | nil => exact ⟨rfl, rfl, rfl, fun _ _ member => nomatch member⟩
  | @cons id copy payload copied children others rest besides payloads _ _ below
      beside =>
      obtain ⟨lengthBelow, entriesBelow, lastBelow, soundBelow⟩ := below
      obtain ⟨lengthBeside, entriesBeside, lastBeside, soundBeside⟩ := beside
      have isOwn : (own (.node id payload children)).map (imageOf copies) =
          (own (.node copy copied others)).map some := by
        cases payloads with
        | none => rfl
        | some same => exact same
      have both : children = [] ↔ others = [] := by
        rw [← List.length_eq_zero_iff, lengthBelow, List.length_eq_zero_iff]
      have entriesHere : (entries (.node id payload children)).map (imageOf copies) =
          (entries (.node copy copied others)).map some := by
        rw [entries, entries]
        by_cases isLeaf : children = []
        · rw [if_pos isLeaf, if_pos (both.mp isLeaf), isOwn]
        · rw [if_neg isLeaf, if_neg (isLeaf ∘ both.mpr), entriesBelow]
      have lastHere : ending? (.node copy copied others) =
          (ending? (.node id payload children)).bind (imageOf copies) := by
        rw [ending?, ending?]
        by_cases isLeaf : children = []
        · rw [if_pos isLeaf, if_pos (both.mp isLeaf), getLast?_recalled isOwn]
        · rw [if_neg isLeaf, if_neg (isLeaf ∘ both.mpr), lastBelow,
            List.getLast?_map, List.getLast?_map]
          cases children.getLast? <;> rfl
      refine ⟨by simp [lengthBeside], ?_, ?_, fun sound => ?_⟩
      · simp [entriesHere, entriesBeside]
      · rw [List.map_cons, List.map_cons, lastHere, lastBeside]
      · refine List.forall_mem_cons.mpr ⟨?_, soundBeside fun shape member =>
          sound shape (by simp [member])⟩
        have soundHere := sound _ List.mem_cons_self
        cases soundHere with
        | @leaf _ list filled =>
            obtain rfl := both.mp rfl
            cases payloads with
            | @some _ image same =>
                refine .leaf fun empty => filled ?_
                have same : list.entries.map (imageOf copies) = _ := same
                rw [empty, List.map_nil, List.map_eq_nil_iff] at same
                exact same
        | @branch _ list _ two soundChildren parted =>
            cases payloads with
            | @some _ image same =>
                have same : list.entries.map (imageOf copies) = _ := same
                refine .branch (lengthBelow ▸ two) (soundBelow soundChildren) ?_
                have recalled := congrArg
                  (List.map fun entry => entry.bind (imageOf copies)) parted
                rw [List.map_map, List.map_map] at recalled
                rw [← same, List.map_dropLast, lastBelow, ← List.map_dropLast]
                exact recalled

private theorem formed_of_likened
    (likened : Likened (Recalled copies) templates images)
    (formed : ∀ shape ∈ templates, Formed shape) :
    ∀ shape ∈ images, Formed shape := by
  induction likened with
  | nil => exact fun _ member => nomatch member
  | @cons id copy payload copied children others rest besides payloads likened _
      below beside =>
      refine List.forall_mem_cons.mpr ⟨?_, beside fun shape member =>
        formed shape (by simp [member])⟩
      have length := (likened_reads likened).1
      obtain ⟨list, rfl⟩ := (formed _ List.mem_cons_self).list_of
      cases payloads with
      | @some _ image same =>
          have same := congrArg List.length
            (show list.entries.map (imageOf copies) = image.entries.map some from same)
          rw [List.length_map, List.length_map] at same
          cases formed _ List.mem_cons_self with
          | leaf filled =>
              obtain rfl := List.length_eq_zero_iff.mp length.symm
              refine .leaf fun empty => filled ?_
              rw [empty] at same
              exact List.length_eq_zero_iff.mp same
          | branch two formedBelow count =>
              refine .branch (length ▸ two) (below formedBelow) ?_
              rw [← length, count]
              exact congrArg (· + 1) same

private theorem empty_of_likened {shape image : Shape α} {root : NodeId}
    (likened : Likened (Recalled copies) [shape] [image])
    (empty : shape = .node root (some {}) []) :
    image = .node image.id (some {}) [] := by
  subst empty
  cases likened with
  | @cons _ copy _ _ _ _ _ _ payloads below _ =>
      cases below
      cases payloads with
      | @some _ list same =>
          have same : [] = list.entries.map some := same
          have none := List.map_eq_nil_iff.mp same.symm
          have isEmpty : list = {} := by
            cases list
            exact congrArg EntryList.mk none
          rw [isEmpty]
          rfl

theorem indexes_recalled {entries images : List (Entry α)}
    (recalled : entries.map (imageOf copies) = images.map some) :
    images.map Entry.index = entries.map Entry.index := by
  induction entries generalizing images with
  | nil =>
      obtain rfl : images = [] := List.map_eq_nil_iff.mp (Eq.symm recalled)
      rfl
  | cons entry rest induction =>
      cases images with
      | nil => cases recalled
      | cons image others =>
          obtain ⟨first, later⟩ := List.cons.inj recalled
          rw [List.map_cons, List.map_cons, induction later,
            (imageOf_eq_some.mp first).2]

private theorem mirrors_copies {table : ValueTable α} {entries images : List (Entry α)}
    (mirrors : table.Mirrors entries)
    (recalled : entries.map (imageOf copies) = images.map some)
    (live : ∀ index, (table.value? index).isSome ↔
      ((ValueTable.ofEntries copies).value? index).isSome) :
    (ValueTable.ofEntries copies).Mirrors images where
  distinct := by
    unfold Distinct
    rw [indexes_recalled recalled]
    exact mirrors.distinct
  stored := by
    intro image member
    have known : some image ∈ entries.map (imageOf copies) := by
      rw [recalled]
      exact List.mem_map_of_mem member
    obtain ⟨entry, _, isImage⟩ := List.mem_map.mp known
    obtain ⟨isValue, sameIndex⟩ := imageOf_eq_some.mp isImage
    rw [sameIndex]
    exact isValue
  listed := by
    intro index value known
    obtain ⟨original, isLive⟩ :=
      Option.isSome_iff_exists.mp ((live index).mpr (Option.isSome_of_eq_some known))
    obtain ⟨entry, member, rfl⟩ := mirrors.listed index original isLive
    have isIndex : entry.index ∈ images.map Entry.index := by
      rw [indexes_recalled recalled]
      exact List.mem_map_of_mem member
    obtain ⟨image, isImage, sameIndex⟩ := List.mem_map.mp isIndex
    exact ⟨image, isImage, sameIndex⟩

end

theorem copy_eq_ok {tree image : Tree α} {copyValue : Copier σ α} {state after : σ}
    (done : tree.copy copyValue state = .ok image after) :
    ∃ target outcome root,
      Arena.withCapacity tree.config.nodeCapacity = .ok target ∧
        tree.arena.copyInto tree.root target (copyList copyValue)
          (Array.replicate tree.values.size none, state) = outcome ∧
        outcome.result = .ok root ∧ agrees tree.values (.ofEntries outcome.state.1) = true ∧
        image =
          { arena := outcome.target
            root
            values := .ofEntries outcome.state.1
            config := tree.config } := by
  unfold copy at done
  cases started : (Arena.withCapacity tree.config.nodeCapacity :
      Except Error (Arena (EntryList α))) with
  | error error =>
      simp only [started] at done
      cases done
  | ok target =>
      simp only [started] at done
      cases copied : (tree.arena.copyInto tree.root target (copyList copyValue)
          (Array.replicate tree.values.size none, state)).result with
      | error error =>
          simp only [copied] at done
          cases done
      | ok root =>
          simp only [copied] at done
          split at done
          · exact ⟨target, _, root, rfl, rfl, copied, ‹_›,
              (EStateM.Result.ok.inj done).1.symm⟩
          · split at done <;> cases done

theorem copy_likened {tree image : Tree α} {shape : Shape α}
    {copyValue : Copier σ α} {state after : σ} (upright : tree.Upright shape)
    (done : tree.copy copyValue state = .ok image after) :
    image.root = ⟨0, 0⟩ ∧ image.config = tree.config ∧
      (shape.ids.length ≤ tree.config.nodeCapacity →
        image.arena.capacity = tree.config.nodeCapacity) ∧
      ∃ final, image.Upright final ∧
        Likened (Recalled image.values.entries) [shape] [final] ∧
        final.ids = (List.range final.ids.length).map (NodeId.mk · 0) := by
  obtain ⟨isRoot, kids, whole⟩ := upright.embodies
  obtain ⟨target, _, root, started, rfl, copied, same, rfl⟩ := copy_eq_ok done
  obtain ⟨vacant, tidy, first⟩ := Arena.vacant_withCapacity started
  obtain rfl := Arena.eq_of_withCapacity started
  rw [← isRoot] at copied same ⊢
  obtain ⟨others, final, copyWhole, rfl, likened, takes, grown, allocated⟩ :=
    Arena.whole_of_copyInto whole.forest whole.held (copyList_relates copyValue)
      (Arena.forest_withCapacity started) tidy vacant copied
  have recalled := (likened_reads likened).2.1
  rw [List.flatMap_singleton, List.flatMap_singleton] at recalled
  refine ⟨first _ _ _ allocated, rfl, fun room =>
    Arena.capacity_of_setting (Arena.setting_copyInto whole.forest whole.held
      (Arena.forest_withCapacity started) tidy copied), final,
    ⟨⟨rfl, others, copyWhole⟩, ?_,
      mirrors_copies upright.mirrors recalled (agrees_iff.mp same)⟩, likened,
    takes.ids_eq⟩
  refine upright.formed.imp (fun formed => ?_) (empty_of_likened likened)
  exact formed_of_likened likened (by simpa using formed) final (by simp)

theorem copy_standing {tree image : Tree α} {shape : Shape α}
    {copyValue : Copier σ α} {state after : σ} (standing : tree.Standing shape)
    (done : tree.copy copyValue state = .ok image after) :
    image.root = ⟨0, 0⟩ ∧ ∃ final, image.Standing final ∧
      Likened (Recalled image.values.entries) [shape] [final] := by
  obtain ⟨isRoot, _, _, final, upright, likened, _⟩ :=
    copy_likened standing.upright done
  refine ⟨isRoot, final, ⟨upright.embodies, ?_, upright.mirrors⟩, likened⟩
  refine standing.sound.imp (fun sound => ?_) fun empty => ?_
  · exact (likened_reads likened).2.2.2 (by simpa using sound) final (by simp)
  · rw [← upright.embodies.1]
    exact empty_of_likened likened empty

end Tree

end LinkedBTree
