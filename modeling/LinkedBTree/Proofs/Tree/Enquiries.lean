import LinkedBTree.Proofs.Asking
import LinkedBTree.Proofs.Tree.Confined
import LinkedBTree.Proofs.Tree.Places
import LinkedBTree.Proofs.Tree.Refinement
import LinkedBTree.Proofs.Tree.Walking

namespace LinkedBTree

/-! What a tree asks of a comparator: a descent compares its value with the entries
on its way, and of two operations on the same value the one asks what the other
does. -/

variable {α σ : Type}

open Subtree

/-- Calls that compare this value with stored ones, and no more of them than this. -/
structure Probes (table : ValueTable α) (value : α) (most : Nat)
    (calls : List (α × α)) : Prop where
  few : calls.length ≤ most
  aimed : ∀ call ∈ calls, call.1 = value ∧ ∃ index, table.value? index = some call.2

namespace Probes

variable {table : ValueTable α} {value : α} {most limit : Nat}
  {calls more : List (α × α)} {entries : List (Entry α)}

theorem nil : Probes table value most [] :=
  ⟨Nat.zero_le most, by simp⟩

theorem weaken (probes : Probes table value most calls) (fits : most ≤ limit) :
    Probes table value limit calls :=
  ⟨Nat.le_trans probes.few fits, probes.aimed⟩

theorem append (probes : Probes table value most calls)
    (further : Probes table value limit more) :
    Probes table value (most + limit) (calls ++ more) where
  few := by
    rw [List.length_append]
    exact Nat.add_le_add probes.few further.few
  aimed := fun call member => (List.mem_append.mp member).elim
    (probes.aimed call) (further.aimed call)

theorem of_prefix (stored : ∀ entry ∈ entries,
      table.value? entry.index = some entry.value)
    (isPrefix : calls <+: entries.map fun entry => (value, entry.value)) :
    Probes table value entries.length calls where
  few := by simpa using isPrefix.length_le
  aimed := by
    intro call member
    obtain ⟨entry, inside, rfl⟩ := List.mem_map.mp (isPrefix.subset member)
    exact ⟨rfl, entry.index, stored entry inside⟩

end Probes

theorem scan_asks (value : α) (compare : Comparator σ α)
    (front entries : List (Entry α)) :
    Asks (· <+: entries.map fun entry => (value, entry.value))
      (scan value compare.traced front entries) := by
  induction entries generalizing front with
  | nil => exact .pure (List.nil_prefix ..)
  | cons entry rest induction =>
      rw [scan, List.map_cons]
      refine .traced_bind fun ordering => ?_
      cases ordering with
      | eq => exact .pure (List.nil_prefix ..)
      | lt => exact .pure (List.nil_prefix ..)
      | gt => exact induction (front ++ [entry])

namespace Tree

variable {tree : Tree α} {config : Config} {shape part : Shape α}
  {path : List (Frame α)} {value : α} {compare : Comparator σ α} {state : σ}

theorem Standing.stored_of_part {id : NodeId} {list : EntryList α}
    {children : List (Shape α)}
    (standing : tree.Standing (plug path (.node id (some list) children))) :
    ∀ entry ∈ list.entries, tree.values.value? entry.index = some entry.value :=
  fun entry member => standing.mirrors.stored entry (standing.mem_entries member)

theorem Upright.length_le_limit {id : NodeId} {list : EntryList α}
    {children : List (Shape α)}
    (upright : tree.Upright (plug path (.node id (some list) children)))
    (confined : Confined config (plug path (.node id (some list) children)))
    (valid : config.Valid) : list.length ≤ config.leafLimit := by
  by_cases isLeaf : children = []
  · subst isLeaf
    exact confined.of_plug.length_le
  · obtain ⟨_, isPart, length⟩ := upright.part_eq
    injection isPart with _ isSame _
    obtain rfl := Option.some.inj isSame
    have length : children.length = list.length + 1 := length isLeaf
    have narrow := (confined.of_plug.of_inner isLeaf).1
    have := Config.fanLimit_le valid
    omega

theorem descend_asks (standing : tree.Standing (plug path part))
    (confined : Confined config (plug path part)) (valid : config.Valid)
    (value : α) (compare : Comparator σ α) (pastEqual : Bool) :
    Asks (Probes tree.values value (part.height * config.leafLimit))
      (descend value compare.traced pastEqual path part) := by
  induction part using Subtree.induction generalizing path with
  | node id payload children induction =>
      obtain ⟨list, isPart, _⟩ := standing.upright.part_eq
      obtain rfl : payload = some list := by injection isPart
      have short := standing.upright.length_le_limit confined valid
      have stored := standing.stored_of_part
      rw [descend, height, Nat.succ_mul, Nat.add_comm]
      have scanned : Asks (Probes tree.values value config.leafLimit)
          (scan value compare.traced [] list.entries) :=
        (scan_asks value compare [] list.entries).weaken fun _ isPrefix =>
          (Probes.of_prefix stored isPrefix).weaken short
      refine scanned.bind (fun stop => ?_)
        (fun _ probes => probes.weaken (Nat.le_add_right ..))
        fun _ _ probes further => probes.append further
      split
      · exact .pure .nil
      · split
        · rename_i inRange
          have opened := @plug_passed α path id list children stop inRange
          have member := List.getElem_mem inRange
          refine (induction _ member (opened ▸ standing) (opened ▸ confined)).weaken
            fun _ probes => probes.weaken ?_
          exact Nat.mul_le_mul_right _ (height_le_of_mem member)
        · exact .pure .nil

def StopsAbove (outcome : EStateM.Result Error σ (Landing α)) : Prop :=
  ∃ landing after, outcome = .ok landing after ∧ landing.stop.equal?.isSome ∧
    landing.children ≠ []

theorem descend_past (standing : tree.Standing (plug path part))
    (confined : Confined config (plug path part)) (valid : config.Valid)
    (value : α) (compare : Comparator σ α) (start : σ × CallLog α) :
    ∃ more, trace (descend value compare.traced true path part start) =
        trace (descend value compare.traced false path part start) ++ more ∧
      (more ≠ [] → StopsAbove (descend value compare.traced false path part start)) := by
  induction part using Subtree.induction generalizing path start with
  | node id payload children induction =>
      obtain ⟨list, isPart, _⟩ := standing.upright.part_eq
      obtain rfl : payload = some list := by injection isPart
      rw [descend, descend, run_bind, run_bind]
      cases scan value compare.traced [] ((some list).getD {}).entries start with
      | error error after => exact ⟨[], (List.append_nil _).symm, (absurd rfl ·)⟩
      | ok stop after =>
          have opened := @plug_passed α path id list children stop
          by_cases equal : stop.equal?.isSome
          · simp only [equal, Bool.not_true, Bool.and_false, Bool.not_false,
              Bool.and_true, if_true, Bool.false_eq_true, if_false]
            split
            · rename_i inRange
              obtain ⟨more, goesOn, _⟩ := descend_asks ((opened inRange).symm ▸ standing)
                ((opened inRange).symm ▸ confined) valid value compare true after
              exact ⟨more, goesOn, fun _ => ⟨_, _, rfl, equal,
                List.ne_nil_of_length_pos (Nat.zero_lt_of_lt inRange)⟩⟩
            · exact ⟨[], (List.append_nil _).symm, (absurd rfl ·)⟩
          · simp only [equal, Bool.false_and, Bool.false_eq_true, if_false]
            split
            · rename_i inRange
              exact induction _ (List.getElem_mem inRange)
                ((opened inRange).symm ▸ standing) ((opened inRange).symm ▸ confined)
                after
            · exact ⟨[], (List.append_nil _).symm, (absurd rfl ·)⟩

theorem checkBetween_asks (value : α) (compare : Comparator σ α)
    (before after : Option (Entry α)) :
    Asks (· <+: (before.toList ++ after.toList).map fun neighbour =>
        (value, neighbour.value))
      (checkBetween value compare.traced (before.map Entry.value)
        (after.map Entry.value)) := by
  have second : Asks (· <+: after.toList.map fun neighbour => (value, neighbour.value))
      (checkBetween value compare.traced none (after.map Entry.value)) := by
    unfold checkBetween
    cases after with
    | none => exact .pure (List.nil_prefix ..)
    | some next =>
        refine .traced_bind fun ordering => ?_
        by_cases less : ordering ≠ .lt
        · rw [if_pos less]
          exact .throw (List.nil_prefix ..)
        · rw [if_neg less]
          exact .pure (List.nil_prefix ..)
  unfold checkBetween
  cases before with
  | none => exact second
  | some previous =>
      refine .traced_bind fun ordering => ?_
      by_cases greater : ordering ≠ .gt
      · rw [if_pos greater]
        exact .throw_bind (List.nil_prefix ..)
      · rw [if_neg greater]
        exact second

section

variable {old new : α} {after : σ}

theorem reached_insert (upright : tree.Upright shape) (value : α)
    (compare : Comparator σ α) (state : σ) :
    (reached (insert value compare (tree, state))).2 =
      reached (descend value compare false [] shape state) := by
  cases descended : descend value compare false [] shape state with
  | error error after =>
      obtain ⟨raised, failed, _⟩ := insert_raised upright descended
      rw [failed]
      rfl
  | ok landing after =>
      obtain ⟨path, id, children, stop⟩ := landing
      cases stop with
      | equal front entry back =>
          rw [insert_found upright descended]
          rfl
      | before front back =>
          rw [insert_gap upright descended, reached_map, reached_apply]
          rfl

theorem reached_remove (upright : tree.Upright shape) (value : α)
    (compare : Comparator σ α) (state : σ) :
    (reached (remove value compare (tree, state))).2 =
      reached (descend value compare true [] shape state) := by
  cases descended : descend value compare true [] shape state with
  | error error after =>
      obtain ⟨raised, failed, _⟩ := remove_raised upright descended
      rw [failed]
      rfl
  | ok landing after =>
      obtain ⟨path, id, children, stop⟩ := landing
      cases stop with
      | equal front entry back =>
          obtain ⟨arena, removed, _⟩ := remove_found upright descended
          rw [removed]
          rfl
      | before front back =>
          rw [remove_gap upright descended]
          rfl

theorem reached_replace {leaf : NodeId} {children : List (Shape α)}
    {front back : List (Entry α)} {entry : Entry α} (upright : tree.Upright shape)
    (descended : descend old compare true [] shape state =
      .ok ⟨path, leaf, children, .equal front entry back⟩ after) :
    (reached (replace old new compare (tree, state))).2 =
      reached (checkBetween new compare
        ((leftOf path ++ front).getLast?.map Entry.value)
        ((back ++ rightOf path).head?.map Entry.value) after) := by
  rw [replace_asks upright descended, run_bind, run_consult]
  cases checkBetween new compare ((leftOf path ++ front).getLast?.map Entry.value)
    ((back ++ rightOf path).head?.map Entry.value) after with
  | error error last => rfl
  | ok checked last =>
      simp only
      rw [reached_apply]
      rfl

theorem reached_replace_missed (upright : tree.Upright shape)
    (missed : ∀ landing after, descend old compare true [] shape state =
      .ok landing after → landing.stop.equal? = none) :
    (reached (replace old new compare (tree, state))).2 =
      reached (descend old compare true [] shape state) := by
  cases descended : descend old compare true [] shape state with
  | error error after =>
      obtain ⟨raised, failed, _⟩ := replace_raised upright descended
      rw [failed]
      rfl
  | ok landing after =>
      have missed := missed landing after descended
      obtain ⟨path, id, children, stop⟩ := landing
      cases stop with
      | equal front entry back => cases missed
      | before front back =>
          rw [replace_gap upright descended]
          rfl

end

/-- The calls that an operation makes, from this state of the comparator on. -/
def Call.asks (call : Call α) (compare : Comparator σ α) (tree : Tree α)
    (state : σ) : List (α × α) :=
  (reached (call.act compare.traced (tree, state, #[]))).2.2.toList

def Call.lookups (value : α) : List (Call α) :=
  [.get value, .contains value, .insert value, .remove value]

/-- What the operations on one tree ask of one comparator in one state. -/
structure Disciplined (tree : Tree α) (config : Config)
    (leaves : List (NodeId × EntryList α)) (compare : Comparator σ α) (state : σ) :
    Prop where
  probes : ∃ depth, tree.depth = .ok depth ∧
    ∀ value, ∀ call ∈ Call.lookups value,
      Probes tree.values value (depth * config.leafLimit)
        (call.asks compare tree state)
  contains_eq : ∀ value, (Call.contains value).asks compare tree state =
    (Call.get value).asks compare tree state
  insert_eq : ∀ value, (Call.insert value).asks compare tree state =
    (Call.get value).asks compare tree state
  remove_extends : ∀ value, (Call.get value).asks compare tree state <+:
    (Call.remove value).asks compare tree state
  /-- Only a value found in a branch has to be looked for any further. -/
  remove_eq : ∀ value,
    (∀ node element after, tree.locate value compare.traced (state, #[]) =
      .ok (.found node element) after → tree.arena.children node = .ok []) →
    (Call.remove value).asks compare tree state =
      (Call.get value).asks compare tree state
  replace_missed : ∀ old new,
    (∀ leaf element after, tree.locateInLeaf old compare.traced (state, #[]) ≠
      .ok (some (leaf, element)) after) →
    (Call.replace old new).asks compare tree state =
      (Call.remove old).asks compare tree state
  /-- The new value is compared with the entries before and after the old one. -/
  replace_found : ∀ old new leaf element after,
    tree.locateInLeaf old compare.traced (state, #[]) =
      .ok (some (leaf, element)) after →
    ∃ (place : Place leaves leaf element) (found : Entry α) (rest : List (Entry α))
      (further : List (α × α)), place.after = found :: rest ∧
        (Call.replace old new).asks compare tree state =
          (Call.remove old).asks compare tree state ++ further ∧
        further <+: (place.before.getLast?.toList ++ rest.head?.toList).map
          fun neighbour => (new, neighbour.value)

section

variable (upright : tree.Upright shape) (value : α) (compare : Comparator σ α)
  (state : σ)
include upright

theorem asks_get : (Call.get value).asks compare tree state =
    trace (descend value compare.traced false [] shape (state, #[])) := by
  rw [Call.asks, Call.act, reached_map, reached_consult,
    (get?_alike upright value compare.traced).reached_eq]
  rfl

theorem asks_contains : (Call.contains value).asks compare tree state =
    trace (descend value compare.traced false [] shape (state, #[])) := by
  rw [Call.asks, Call.act, reached_map, reached_consult,
    (contains_alike upright value compare.traced).reached_eq]
  rfl

theorem asks_insert : (Call.insert value).asks compare tree state =
    trace (descend value compare.traced false [] shape (state, #[])) := by
  rw [Call.asks, Call.act, reached_map, reached_insert upright]
  rfl

theorem asks_remove : (Call.remove value).asks compare tree state =
    trace (descend value compare.traced true [] shape (state, #[])) := by
  rw [Call.asks, Call.act, reached_map, reached_remove upright]
  rfl

end

private theorem located_of_stopsAbove {start : σ} (upright : tree.Upright shape)
    (above : StopsAbove (descend value compare false [] shape start)) :
    ∃ node element after, tree.locate value compare start =
      .ok (.found node element) after ∧ tree.arena.children node ≠ .ok [] := by
  obtain ⟨⟨path, id, children, stop⟩, after, descended, equal, inner⟩ := above
  cases stop with
  | before front back => cases equal
  | equal front entry back =>
      obtain ⟨_, located, rfl⟩ := (locate_alike upright value compare).of_ok descended
      have embodies := upright.embodies
      rw [(upright.landed descended).whole] at embodies
      refine ⟨id, front.length, after, located, fun isLeaf => inner ?_⟩
      exact List.map_eq_nil_iff.mp
        (Except.ok.inj (embodies.children_eq.symm.trans isLeaf))

private theorem missed_of_not_located {start : σ} (upright : tree.Upright shape)
    (missed : ∀ leaf element after, tree.locateInLeaf value compare start ≠
      .ok (some (leaf, element)) after) (landing : Landing α) (after : σ)
    (descended : descend value compare true [] shape start = .ok landing after) :
    landing.stop.equal? = none := by
  obtain ⟨_, located, rfl⟩ :=
    (locateInLeaf_alike upright value compare).of_ok descended
  obtain ⟨path, id, children, stop⟩ := landing
  cases stop with
  | before front back => rfl
  | equal front entry back => exact absurd located (missed _ _ _)

theorem Standing.disciplined (standing : tree.Standing shape)
    (confined : Confined config shape) (valid : config.Valid)
    (compare : Comparator σ α) (state : σ) :
    tree.Disciplined config (leavesIn shape) compare state where
  probes := by
    have upright := standing.upright
    refine ⟨_, depth_eq upright.embodies, fun value call member => ?_⟩
    have asks (pastEqual : Bool) := (@descend_asks α σ tree config shape [] standing
      confined valid value compare pastEqual).trace_good state
    simp only [Call.lookups, List.mem_cons, List.not_mem_nil, or_false] at member
    rcases member with rfl | rfl | rfl | rfl
    · exact asks_get upright value compare state ▸ asks false
    · exact asks_contains upright value compare state ▸ asks false
    · exact asks_insert upright value compare state ▸ asks false
    · exact asks_remove upright value compare state ▸ asks true
  contains_eq value := by
    rw [asks_contains standing.upright, asks_get standing.upright]
  insert_eq value := by
    rw [asks_insert standing.upright, asks_get standing.upright]
  remove_extends value := by
    obtain ⟨more, further, _⟩ := @descend_past α σ tree config shape [] standing
      confined valid value compare (state, #[])
    rw [asks_get standing.upright, asks_remove standing.upright, further]
    exact List.prefix_append _ _
  remove_eq value inLeaf := by
    obtain ⟨more, further, above⟩ := @descend_past α σ tree config shape [] standing
      confined valid value compare (state, #[])
    have none : more = [] := by
      by_contra some
      obtain ⟨node, element, after, located, isBranch⟩ :=
        located_of_stopsAbove standing.upright (above some)
      exact isBranch (inLeaf node element after located)
    rw [asks_get standing.upright, asks_remove standing.upright, further, none,
      List.append_nil]
  replace_missed old new missed := by
    have ends := missed_of_not_located standing.upright missed
    rw [asks_remove standing.upright, Call.asks, Call.act, reached_map,
      reached_replace_missed standing.upright ends]
    rfl
  replace_found old new leaf element after located := by
    have upright := standing.upright
    obtain ⟨path, children, front, entry, back, rfl, descended⟩ :=
      descended_of_located upright located
    obtain ⟨further, goesOn, isPrefix⟩ := checkBetween_asks new compare
      (leftOf path ++ front).getLast? (back ++ rightOf path).head? after
    have whole := (upright.landed descended).found
    rw [Call.asks, Call.act, reached_map, reached_replace upright descended,
      asks_remove upright, descended]
    subst whole
    refine ⟨placeIn path leaf front (entry :: back), entry, _, further, after_placeIn,
      goesOn, ?_⟩
    rw [before_placeIn]
    exact isPrefix

/-- What a lookup, an insertion and a removal ask for, whatever has become of the
tree and however the comparator answers. -/
theorem disciplined_after_requests (valid : config.Valid) :
    ∃ start : Tree α, withConfig config = .ok start ∧
      ∀ requests : List (Request α), (∀ request ∈ requests, request.Steady) →
        ∃ leaves, (requests.foldl perform start).Bears leaves ∧
          ∀ {σ : Type} (compare : Comparator σ α) (state : σ),
            (requests.foldl perform start).Disciplined config leaves compare state := by
  obtain ⟨start, created, stands⟩ := @standing_after_requests α config valid
  obtain ⟨again, recreated, narrow⟩ := @confined_after_requests α config valid
  obtain rfl := Except.ok.inj (created.symm.trans recreated)
  refine ⟨start, created, fun requests steady => ?_⟩
  obtain ⟨shape, standing, _⟩ := stands requests steady
  obtain ⟨other, abides, confined⟩ := narrow requests
  obtain rfl := standing.embodies.unique abides.upright.embodies
  exact ⟨leavesIn shape, standing.upright.bears,
    fun compare state => standing.disciplined confined valid compare state⟩

/-- A value that the root parts its children by is compared twice where it is
removed, and what replaces it with the value behind it. -/
theorem disciplined_after_requests_parted :
    ({ maxValues := 2, chunkSize := 1, nodeCapacity := 8 } : Config).Valid ∧
      ∃ start : Tree Nat,
        withConfig { maxValues := 2, chunkSize := 1, nodeCapacity := 8 } =
          .ok start ∧
        ∃ after : Tree Nat, [
          .insert 5 (.answering Ord.compare) (), .insert 7 (.answering Ord.compare) (),
          .insert 6 (.answering Ord.compare) ()].foldl perform start = after ∧
          (∃ leaves, after.Bears leaves ∧
            after.Disciplined { maxValues := 2, chunkSize := 1, nodeCapacity := 8 }
              leaves (.answering Ord.compare) ()) ∧
          (Call.insert 5).asks (.answering Ord.compare) after () = [(5, 5)] ∧
          (Call.remove 5).asks (.answering Ord.compare) after () =
            [(5, 5), (5, 5)] ∧
          (Call.replace 5 4).asks (.answering Ord.compare) after () =
            [(5, 5), (5, 5), (4, 6)] := by
  have valid : ({ maxValues := 2, chunkSize := 1, nodeCapacity := 8 } :
      Config).Valid := by
    constructor <;> decide
  obtain ⟨start, created, disciplined⟩ := @disciplined_after_requests Nat _ valid
  have steady := Comparator.steady_answering (Ord.compare : Nat → Nat → Ordering)
  obtain ⟨leaves, bears, holds⟩ := disciplined [
    .insert 5 (.answering Ord.compare) (), .insert 7 (.answering Ord.compare) (),
    .insert 6 (.answering Ord.compare) ()] (by
      intro request member
      simp only [List.mem_cons, List.not_mem_nil, or_false] at member
      rcases member with rfl | rfl | rfl <;> exact ⟨_, steady⟩)
  refine ⟨valid, start, created, _, rfl, ⟨leaves, bears, holds _ _⟩, ?_⟩
  obtain rfl := Except.ok.inj created
  refine ⟨?_, ?_, ?_⟩ <;> decide +kernel

end Tree

end LinkedBTree
