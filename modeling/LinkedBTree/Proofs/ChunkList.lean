import LinkedBTree.Config
import LinkedBTree.Proofs.Pieces
import LinkedBTree.Proofs.OrderedSet

namespace LinkedBTree

/-! Leaves without branches above them: entries in chunks, which grow, are cut
and go when they are empty. -/

variable {α : Type}

structure ChunkList (α : Type) where
  chunks : List (List (Entry α)) := [[]]
  /-- The array index of the next value. -/
  arrivals : Nat := 0
  /-- How often a chunk was cut. -/
  cuts : Nat := 0

/-- The place of `value` is between `left` and `right`. -/
structure Around (answer : α → α → Ordering) (value : α)
    (left right : List (Entry α)) : Prop where
  below : ∀ entry ∈ left, answer value entry.value = .gt
  above : ∀ entry ∈ right, answer value entry.value = .lt

namespace ChunkList

section

variable (answer : α → α → Ordering) (config : Config)

def exchange (chunks : List (List (Entry α))) (position : Nat)
    (parts : List (List (Entry α))) : List (List (Entry α)) :=
  chunks.take position ++ parts ++ chunks.drop (position + 1)

/-- The first chunk whose last value is greater, or the last one if there is
none. -/
def target (value : α) (chunks : List (List (Entry α))) : Nat :=
  min (chunks.length - 1) (chunks.findIdx fun chunk =>
    chunk.getLast?.any fun last => answer value last.value = .lt)

def place (entry : Entry α) (chunk : List (Entry α)) : List (Entry α) :=
  let smaller (other : Entry α) : Bool := answer entry.value other.value = .gt
  chunk.takeWhile smaller ++ entry :: chunk.dropWhile smaller

def equals (value : α) (entry : Entry α) : Bool :=
  answer value entry.value = .eq

/-- Cuts the chunk at `position` if it is too long for one piece. -/
def split (position : Nat) (state : ChunkList α) : ChunkList α :=
  let chunk := state.chunks.getD position []
  if config.chunkSize < chunk.length then
    { state with
      chunks := exchange state.chunks position
        (EntryList.cut config.chunkSize chunk)
      cuts := state.cuts + 1 }
  else
    state

def insert (value : α) (state : ChunkList α) : ChunkList α :=
  if state.chunks.any (·.any (equals answer value)) then
    state
  else
    let position := target answer value state.chunks
    let chunk := place answer ⟨value, state.arrivals⟩
      (state.chunks.getD position [])
    let grown : ChunkList α :=
      { state with
        chunks := exchange state.chunks position [chunk]
        arrivals := state.arrivals + 1 }
    if config.maxValues ≤ chunk.length then grown.split config position else grown

def remove (value : α) (state : ChunkList α) : ChunkList α :=
  match state.chunks.findIdx? (·.any (equals answer value)) with
  | none => state
  | some position =>
      let chunk := (state.chunks.getD position []).eraseP (equals answer value)
      let goes := chunk.isEmpty ∧ state.chunks.length ≠ 1
      { state with
        chunks := exchange state.chunks position (if goes then [] else [chunk]) }

def replace (old new : α) (state : ChunkList α) : ChunkList α :=
  { state with
    chunks := state.chunks.map (·.map fun entry =>
      if equals answer old entry then { entry with value := new } else entry) }

end

section

variable {answer : α → α → Ordering} {config : Config}
  {before after parts : List (List (Entry α))} {chunk front back : List (Entry α)}
  {entry : Entry α} {value : α} {state : ChunkList α}

@[simp] theorem exchange_middle :
    exchange (before ++ chunk :: after) before.length parts =
      before ++ parts ++ after := by
  simp [exchange]

@[simp] theorem getD_middle :
    (before ++ chunk :: after).getD before.length [] = chunk := by
  simp [List.getD]

theorem split_middle (isChunk : state.chunks = before ++ chunk :: after) :
    state.split config before.length =
      if config.chunkSize < chunk.length then
        { state with
          chunks := before ++ EntryList.cut config.chunkSize chunk ++ after
          cuts := state.cuts + 1 }
      else
        state := by
  simp only [split, isChunk, getD_middle, exchange_middle]

variable {left right : List (Entry α)}

theorem place_middle (isPlace : Around answer entry.value front back) :
    place answer entry (front ++ back) = front ++ entry :: back := by
  have passed : ∀ other ∈ front,
      decide (answer entry.value other.value = .gt) = true := by
    simpa using isPlace.below
  simp only [place, List.takeWhile_append_of_pos passed,
    List.dropWhile_append_of_pos passed]
  cases back with
  | nil => simp
  | cons next rest => simp [isPlace.above next (by simp)]

theorem target_middle
    (around : Around answer value (before.flatten ++ front) (back ++ after.flatten))
    (isLast : back = [] → after = []) :
    target answer value (before ++ (front ++ back) :: after) = before.length := by
  have passed : ∀ chunk ∈ before, (chunk.getLast?.any fun last =>
      decide (answer value last.value = .lt)) = false := by
    intro chunk member
    cases ends : chunk.getLast? with
    | none => rfl
    | some last =>
        have isGreater := around.below last (List.mem_append_left _
          (List.mem_flatten.mpr ⟨chunk, member, List.mem_of_getLast? ends⟩))
        simp [isGreater]
  have found : (before ++ (front ++ back) :: after).findIdx (fun chunk =>
      chunk.getLast?.any fun last => decide (answer value last.value = .lt)) =
        before.length + ((front ++ back) :: after).findIdx fun chunk =>
          chunk.getLast?.any fun last => decide (answer value last.value = .lt) := by
    rw [List.findIdx_append, List.findIdx_eq_length_of_false passed]
    simp [Nat.add_comm]
  unfold target
  rw [found]
  cases back with
  | nil =>
      rw [isLast rfl]
      simp
  | cons next rest =>
      obtain ⟨last, ends⟩ : ∃ last, (next :: rest).getLast? = some last :=
        ⟨_, List.getLast?_eq_some_getLast (List.cons_ne_nil next rest)⟩
      have isSmaller := around.above last
        (List.mem_append_left _ (List.mem_of_getLast? ends))
      rw [List.findIdx_cons]
      simp [List.getLast?_append, ends, isSmaller]

theorem equals_of_around (around : Around answer value left right) :
    ∀ entry ∈ left ++ right, equals answer value entry = false := by
  intro entry member
  rcases List.mem_append.mp member with isLeft | isRight
  · simp [equals, around.below entry isLeft]
  · simp [equals, around.above entry isRight]

theorem insert_middle (isChunk : state.chunks = before ++ (front ++ back) :: after)
    (around : Around answer value (before.flatten ++ front) (back ++ after.flatten))
    (isLast : back = [] → after = []) :
    state.insert answer config value =
      let chunk := front ++ ⟨value, state.arrivals⟩ :: back
      if config.maxValues ≤ chunk.length ∧ config.chunkSize < chunk.length then
        ⟨before ++ EntryList.cut config.chunkSize chunk ++ after,
          state.arrivals + 1, state.cuts + 1⟩
      else
        ⟨before ++ chunk :: after, state.arrivals + 1, state.cuts⟩ := by
  have absent : (state.chunks.any (·.any (equals answer value))) = false := by
    rw [← List.any_flatten, List.any_eq_false, isChunk]
    intro entry member
    rw [equals_of_around around entry (by simpa using member)]
    decide
  have isPlace : Around answer value front back :=
    ⟨fun other member => around.below other (List.mem_append_right _ member),
      fun other member => around.above other (List.mem_append_left _ member)⟩
  unfold insert
  rw [if_neg (by simp [absent])]
  simp only [isChunk, target_middle around isLast, getD_middle, exchange_middle]
  rw [@place_middle α answer front back ⟨value, state.arrivals⟩ isPlace,
    List.append_assoc, List.singleton_append, split_middle rfl]
  by_cases full : config.maxValues ≤
      (front ++ ⟨value, state.arrivals⟩ :: back).length
  · by_cases long : config.chunkSize <
        (front ++ ⟨value, state.arrivals⟩ :: back).length
    · rw [if_pos full, if_pos long, if_pos ⟨full, long⟩]
    · rw [if_pos full, if_neg long, if_neg (long ·.2)]
  · rw [if_neg full, if_neg (full ·.1)]

theorem insert_present (isEntry : entry ∈ state.chunks.flatten)
    (equal : answer value entry.value = .eq) :
    state.insert answer config value = state := by
  unfold insert
  rw [if_pos]
  rw [← List.any_flatten, List.any_eq_true]
  exact ⟨entry, isEntry, by simpa [equals] using equal⟩

theorem remove_absent (around : Around answer value left right)
    (entries : state.chunks.flatten = left ++ right) :
    state.remove answer value = state := by
  unfold remove
  have none : state.chunks.findIdx? (·.any (equals answer value)) = none := by
    rw [List.findIdx?_eq_none_iff]
    intro chunk member
    rw [List.any_eq_false]
    intro entry inside
    rw [equals_of_around around entry
      (entries ▸ List.mem_flatten.mpr ⟨chunk, member, inside⟩)]
    decide
  rw [none]

theorem remove_middle
    (isChunk : state.chunks = before ++ (front ++ entry :: back) :: after)
    (around : Around answer value (before.flatten ++ front) (back ++ after.flatten))
    (equal : answer value entry.value = .eq) :
    state.remove answer value =
      { state with
        chunks := before ++
          (if front ++ back = [] ∧ before ++ after ≠ [] then [] else [front ++ back]) ++
          after } := by
  have apart := equals_of_around around
  have isEqual : equals answer value entry = true := by simpa [equals] using equal
  have found : state.chunks.findIdx? (·.any (equals answer value)) =
      some before.length := by
    have passed : before.findIdx? (·.any (equals answer value)) = none := by
      rw [List.findIdx?_eq_none_iff]
      intro chunk member
      rw [List.any_eq_false]
      intro other inside
      rw [apart other (by
        have := List.mem_flatten.mpr ⟨chunk, member, inside⟩
        simp [this])]
      decide
    rw [isChunk, List.findIdx?_append, passed, List.findIdx?_cons]
    simp [isEqual]
  have erased : (front ++ entry :: back).eraseP (equals answer value) =
      front ++ back := by
    rw [List.eraseP_append_right, List.eraseP_cons_of_pos isEqual]
    intro other inside
    rw [apart other (by simp [inside])]
    decide
  have single : (before ++ (front ++ entry :: back) :: after).length ≠ 1 ↔
      before ++ after ≠ [] := by
    cases before <;> cases after <;> simp
  unfold remove
  rw [found]
  simp only [isChunk, getD_middle, exchange_middle, erased, List.isEmpty_iff, single]

theorem replace_middle {new : α}
    (isChunk : state.chunks = before ++ (front ++ entry :: back) :: after)
    (around : Around answer value (before.flatten ++ front) (back ++ after.flatten))
    (equal : answer value entry.value = .eq) :
    state.replace answer value new =
      { state with
        chunks := before ++ (front ++ ⟨new, entry.index⟩ :: back) :: after } := by
  have apart := equals_of_around around
  have isEqual : equals answer value entry = true := by simpa [equals] using equal
  have stays : ∀ list : List (Entry α),
      (∀ other ∈ list, equals answer value other = false) →
      list.map (fun entry => if equals answer value entry then
        { entry with value := new } else entry) = list := by
    intro list different
    refine (List.map_congr_left fun other member => ?_).trans list.map_id
    rw [different other member]
    rfl
  have others : ∀ chunks : List (List (Entry α)),
      (∀ other ∈ chunks.flatten, equals answer value other = false) →
      chunks.map (·.map fun entry => if equals answer value entry then
        { entry with value := new } else entry) = chunks := by
    intro chunks different
    refine (List.map_congr_left fun chunk member => ?_).trans chunks.map_id
    exact stays chunk fun other inside =>
      different other (List.mem_flatten.mpr ⟨chunk, member, inside⟩)
  unfold replace
  rw [isChunk, List.map_append, List.map_cons, List.map_append, List.map_cons,
    others before fun other member => apart other (by simp [member]),
    others after fun other member => apart other (by simp [member]),
    stays front fun other member => apart other (by simp [member]),
    stays back fun other member => apart other (by simp [member]), isEqual]
  rfl

end

end ChunkList

end LinkedBTree
