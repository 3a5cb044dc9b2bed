import LinkedBTree.Proofs.Arena.Editing
import LinkedBTree.Proofs.Arena.Pruning

namespace LinkedBTree.Arena

/-! Slots given back are empty and all others are taken, so an allocation fails
for want of room only, and one that fails on the way gives everything back. -/

variable {P : Type} {arena after : Arena P}

/-- Every slot given back is empty, and was given back once. The others hold a
node each. -/
structure Tidy (arena : Arena P) : Prop where
  nodup : arena.free.Nodup
  vacant : ∀ index ∈ arena.free,
    ∃ generation, arena.slots[index]? = some ⟨generation, none⟩
  taken : ∀ index slot, arena.slots[index]? = some slot →
    index ∉ arena.free → slot.node.isSome
  bounded : arena.slots.size ≤ arena.capacity

namespace Tidy

theorem modify (tidy : arena.Tidy) (id : NodeId) (change : Node P → Node P) :
    (arena.modify id change).Tidy := by
  refine ⟨tidy.nodup, fun index member => ?_, fun index slot isSlot used => ?_,
    Nat.le_trans (Nat.le_of_eq (size_slots_modify ..)) tidy.bounded⟩
  · obtain ⟨generation, vacant⟩ := tidy.vacant index member
    refine ⟨generation, ?_⟩
    simp only [Arena.modify, Array.getElem?_modify, vacant]
    split
    · simp only [Option.map_some, Option.map_none]
      split <;> rfl
    · rfl
  · simp only [Arena.modify, Array.getElem?_modify] at isSlot
    split at isSlot
    · obtain ⟨old, isOld, rfl⟩ := Option.map_eq_some_iff.mp isSlot
      have taken := tidy.taken index old isOld used
      split
      · rwa [Option.isSome_map]
      · exact taken
    · exact tidy.taken index slot isSlot used

theorem count (tidy : arena.Tidy) (counter : Counter) :
    (arena.count counter).Tidy :=
  ⟨tidy.nodup, tidy.vacant, tidy.taken, tidy.bounded⟩

theorem join (tidy : arena.Tidy) (parent : NodeId)
    (previous next : Option NodeId) :
    (arena.join parent previous next).Tidy := by
  unfold Arena.join joinForward joinBackward
  cases previous <;> cases next <;> exact (tidy.modify _ _).modify _ _

theorem attachLast (tidy : arena.Tidy) (parent child : NodeId) :
    (arena.attachLast parent child).Tidy :=
  (((tidy.join _ _ _).join _ _ _).modify _ _).modify _ _

theorem discard (tidy : arena.Tidy) (id : NodeId) : (arena.discard id).Tidy := by
  unfold Arena.discard
  cases found : arena.node? id with
  | none => simpa [contains, found] using tidy
  | some node =>
      have inRange := index_lt_of_node? found
      have fresh : id.index ∉ arena.free := by
        intro member
        obtain ⟨generation, vacant⟩ := tidy.vacant id.index member
        unfold node? at found
        simp [vacant] at found
      simp only [contains, found, Option.isSome_some, if_true]
      refine count ⟨List.nodup_cons.mpr ⟨fresh, tidy.nodup⟩, ?_, ?_, ?_⟩ .freed
      · intro index member
        rcases List.mem_cons.mp member with rfl | earlier
        · exact ⟨_, Array.getElem?_setIfInBounds_self_of_lt inRange⟩
        · obtain ⟨generation, vacant⟩ := tidy.vacant index earlier
          have different : id.index ≠ index := by
            rintro rfl
            exact fresh earlier
          exact ⟨generation, by
            rw [Array.getElem?_setIfInBounds_ne different, vacant]⟩
      · intro index slot isSlot used
        rw [List.mem_cons, not_or] at used
        rw [Array.getElem?_setIfInBounds_ne (Ne.symm used.1)] at isSlot
        exact tidy.taken index slot isSlot used.2
      · rw [Array.size_setIfInBounds]
        exact tidy.bounded

theorem foldl_discard (tidy : arena.Tidy) (ids : List NodeId) :
    (ids.foldl Arena.discard arena).Tidy := by
  induction ids generalizing arena with
  | nil => exact tidy
  | cons id rest induction => exact induction (tidy.discard id)

theorem allocate {payload : Option P} {id : NodeId} (tidy : arena.Tidy)
    (done : Arena.allocate payload arena = .ok id after) : after.Tidy := by
  unfold Arena.allocate at done
  cases free : arena.free with
  | nil =>
      simp only [free] at done
      split at done
      · rename_i room
        obtain ⟨rfl, rfl⟩ := EStateM.Result.ok.inj done
        refine count ⟨by simp, by simp, fun index slot isSlot _ => ?_, ?_⟩ _
        · rw [Array.getElem?_push] at isSlot
          split at isSlot
          · rw [← Option.some.inj isSlot]
            rfl
          · exact tidy.taken index slot isSlot (by simp [free])
        · rw [Array.size_push]
          exact room
      · cases done
  | cons index rest =>
      have nodup := tidy.nodup
      rw [free, List.nodup_cons] at nodup
      simp only [free] at done
      split at done
      · rename_i generation vacant
        obtain ⟨rfl, rfl⟩ := EStateM.Result.ok.inj done
        refine count ⟨nodup.2, fun other member => ?_,
          fun other slot isSlot used => ?_, ?_⟩ _
        · obtain ⟨generation, vacant⟩ :=
            tidy.vacant other (by simp [free, member])
          have different : index ≠ other := by
            rintro rfl
            exact nodup.1 member
          exact ⟨generation, by
            rw [Array.getElem?_setIfInBounds_ne different, vacant]⟩
        · by_cases same : index = other
          · obtain ⟨inRange, _⟩ := Array.getElem?_eq_some_iff.mp vacant
            rw [← same, Array.getElem?_setIfInBounds_self_of_lt inRange] at isSlot
            rw [← Option.some.inj isSlot]
            rfl
          · rw [Array.getElem?_setIfInBounds_ne same] at isSlot
            refine tidy.taken other slot isSlot ?_
            rw [free, List.mem_cons, not_or]
            exact ⟨Ne.symm same, used⟩
        · rw [Array.size_setIfInBounds]
          exact tidy.bounded
      · cases done

theorem allocate_error {payload : Option P} {error : Error} (tidy : arena.Tidy)
    (failed : Arena.allocate payload arena = .error error after) :
    after.Tidy ∧ error = .cause (.arenaExhausted arena.capacity) := by
  unfold Arena.allocate at failed
  cases free : arena.free with
  | nil =>
      simp only [free] at failed
      split at failed
      · cases failed
      · obtain ⟨rfl, rfl⟩ := EStateM.Result.error.inj failed
        exact ⟨tidy.count _, rfl⟩
  | cons index rest =>
      obtain ⟨generation, vacant⟩ := tidy.vacant index (by simp [free])
      simp only [free, vacant] at failed
      cases failed

end Tidy

structure Sprouted (arena after : Arena P) (fresh : List NodeId) : Prop where
  nodup : fresh.Nodup
  dead : ∀ id ∈ fresh, arena.node? id = none
  lookup : ∀ id, after.node? id =
    if id ∈ fresh then some { payload := none } else arena.node? id
  forest : ∀ kids, arena.Forest kids → after.Forest kids
  tidy : arena.Tidy → after.Tidy

theorem run_allocateMany (number : Nat) (taken : List NodeId) (arena : Arena P) :
    allocateMany (number + 1) taken arena =
      match allocate none arena with
      | .ok id grown => allocateMany number (id :: taken) grown
      | .error error stopped =>
          match giveBack taken.reverse stopped with
          | .ok _ after => .error error after
          | .error error after => .error error after := by
  rw [allocateMany, run_bind, run_tryCatch]
  cases allocate none arena with
  | ok id grown => rfl
  | error error stopped =>
      simp only [run_bind]
      cases giveBack taken.reverse stopped <;> rfl

structure Blank (arena : Arena P) (ids : List NodeId) : Prop where
  nodup : ids.Nodup
  empty : ∀ id ∈ ids, arena.node? id = some { payload := none }

namespace Blank

variable {ids : List NodeId} {id : NodeId}

theorem nil (arena : Arena P) : arena.Blank [] :=
  ⟨List.nodup_nil, fun _ member => nomatch member⟩

theorem cons (blank : arena.Blank ids) (done : Arena.allocate none arena = .ok id after) :
    after.Blank (id :: ids) := by
  obtain ⟨dead, lookup⟩ := node?_allocate done
  have fresh : id ∉ ids := by
    intro member
    cases dead.symm.trans (blank.empty id member)
  refine ⟨List.nodup_cons.mpr ⟨fresh, blank.nodup⟩, fun other member => ?_⟩
  rw [lookup]
  split
  · rfl
  · exact blank.empty other (List.mem_of_ne_of_mem ‹_› member)

theorem refused {error : Error} (blank : arena.Blank ids)
    (failed : Arena.allocate none arena = .error error after) : after.Blank ids := by
  refine ⟨blank.nodup, fun id member => ?_⟩
  rw [← blank.empty id member]
  unfold node?
  rw [node?_allocate_error failed]

theorem reverse (blank : arena.Blank ids) : arena.Blank ids.reverse :=
  ⟨(List.reverse_perm ids).nodup_iff.mpr blank.nodup, fun id member =>
    blank.empty id (List.mem_reverse.mp member)⟩

theorem run_giveBack (blank : arena.Blank ids) :
    giveBack ids arena = .ok () (ids.foldl discard arena) := by
  unfold giveBack
  induction ids generalizing arena with
  | nil => rfl
  | cons id rest induction =>
      have found := blank.empty id List.mem_cons_self
      obtain ⟨outside, nodup⟩ := List.nodup_cons.mp blank.nodup
      have single : [id].Nodup := List.nodup_cons.mpr ⟨List.not_mem_nil, List.nodup_nil⟩
      have live : ∀ other ∈ [id], arena.contains other = true := fun other member => by
        rw [List.mem_singleton.mp member]
        exact contains_iff.mpr ⟨_, found⟩
      have childless : arena.children id = .ok [] := by
        unfold children childList visits follow
        rw [read_eq found]
        rfl
      have listed : arena.preorder id = .ok [id] :=
        preorder_of_listing (.cons childless .nil) (length_le_slots single live)
      have later : (arena.discard id).Blank rest := by
        refine ⟨nodup, fun other member => ?_⟩
        rw [node?_discard, if_neg]
        · exact blank.empty other (List.mem_cons_of_mem _ member)
        · rintro rfl
          exact outside member
      have released : dropping (release id) arena = .ok () (arena.discard id) := by
        unfold dropping
        rw [run_release found rfl listed single live]
        rfl
      rw [run_forM_cons, run_tryCatch, released]
      exact induction later

theorem run_allocateMany (blank : arena.Blank ids) (number : Nat) :
    allocateMany (number + 1) ids arena =
      match Arena.allocate none arena with
      | .ok id grown => allocateMany number (id :: ids) grown
      | .error error stopped => .error error (ids.reverse.foldl discard stopped) := by
  rw [Arena.run_allocateMany]
  cases failed : Arena.allocate none arena with
  | ok id grown => rfl
  | error error stopped =>
      dsimp only
      rw [(blank.refused failed).reverse.run_giveBack]

end Blank

theorem allocateMany_ok {number : Nat} {taken leaves : List NodeId}
    (done : allocateMany number taken arena = .ok leaves after) :
    ∃ fresh, leaves = taken.reverse ++ fresh ∧ fresh.length = number ∧
      Sprouted arena after fresh := by
  induction number generalizing taken arena with
  | zero =>
      obtain ⟨rfl, rfl⟩ := EStateM.Result.ok.inj done
      exact ⟨[], by simp, rfl, by simp, by simp, by simp, fun _ => id, id⟩
  | succ number induction =>
      rw [run_allocateMany] at done
      cases first : allocate none arena with
      | error error stopped =>
          simp only [first] at done
          cases gone : giveBack taken.reverse stopped <;> simp only [gone] at done <;> cases done
      | ok id grown =>
          simp only [first] at done
          obtain ⟨dead, lookup⟩ := node?_allocate first
          obtain ⟨fresh, rfl, length, sprouted⟩ := induction done
          have outside : id ∉ fresh := by
            intro member
            have := sprouted.dead id member
            rw [lookup, if_pos rfl] at this
            cases this
          refine ⟨id :: fresh, by simp, by simp [length],
            List.nodup_cons.mpr ⟨outside, sprouted.nodup⟩, ?_, ?_, ?_, ?_⟩
          · intro other member
            rcases List.mem_cons.mp member with rfl | later
            · exact dead
            · have gone := sprouted.dead other later
              rw [lookup] at gone
              split at gone
              · cases gone
              · exact gone
          · intro other
            rw [sprouted.lookup, lookup]
            by_cases same : other = id <;> by_cases later : other ∈ fresh <;>
              simp [same, later]
          · exact fun kids forest => sprouted.forest kids (forest.allocate first)
          · exact fun tidy => sprouted.tidy (tidy.allocate first)

theorem allocateMany_error {number : Nat} {taken : List NodeId} {error : Error}
    (tidy : arena.Tidy) (blank : arena.Blank taken)
    (failed : allocateMany number taken arena = .error error after) :
    (∀ id, after.node? id = if id ∈ taken then none else arena.node? id) ∧
      after.Tidy ∧ ∃ capacity, error = .cause (.arenaExhausted capacity) := by
  induction number generalizing taken arena with
  | zero => cases failed
  | succ number induction =>
      rw [blank.run_allocateMany] at failed
      cases first : allocate none arena with
      | error cause stopped =>
          simp only [first] at failed
          obtain ⟨rfl, rfl⟩ := EStateM.Result.error.inj failed
          obtain ⟨stillTidy, full⟩ := tidy.allocate_error first
          refine ⟨fun id => ?_, stillTidy.foldl_discard _, _, full⟩
          have same : stopped.node? id = arena.node? id := by
            unfold node?
            rw [node?_allocate_error first]
          rw [node?_foldl_discard, same]
          simp only [List.mem_reverse]
      | ok id grown =>
          simp only [first] at failed
          obtain ⟨dead, lookup⟩ := node?_allocate first
          obtain ⟨back, rest⟩ := induction (tidy.allocate first) (blank.cons first) failed
          refine ⟨fun other => ?_, rest⟩
          rw [back, lookup]
          by_cases same : other = id
          · simp [same, dead]
          · simp [same]

theorem eq_of_withCapacity {capacity : Nat}
    (started : withCapacity capacity = .ok arena) : arena = { capacity } := by
  unfold withCapacity at started
  split at started
  · cases started
  · split at started
    · cases started
    · exact (Except.ok.inj started).symm

theorem vacant_withCapacity {capacity : Nat}
    (started : withCapacity capacity = .ok arena) :
    (∀ id, arena.node? id = none) ∧ arena.Tidy ∧
      ∀ payload id after, allocate payload arena = .ok id after →
        id = ⟨0, 0⟩ := by
  obtain rfl := eq_of_withCapacity started
  refine ⟨by simp [node?], ⟨by simp, by simp, by simp, by simp⟩,
    fun payload id after done => ?_⟩
  unfold allocate at done
  simp only at done
  split at done
  · exact (EStateM.Result.ok.inj done).1.symm
  · cases done

theorem forest_withCapacity {capacity : Nat}
    (started : withCapacity capacity = .ok arena) :
    arena.Forest fun _ => [] := by
  obtain ⟨dead, _⟩ := vacant_withCapacity started
  refine Forest.of_nodes (by simp) (by simp) ?_ (by simp) ?_ ?_ <;>
    intro id node found <;> cases (dead id).symm.trans found

end LinkedBTree.Arena
