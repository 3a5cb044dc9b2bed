import LinkedBTree.Error.Basic
import LinkedBTree.Config
import LinkedBTree.Stats

namespace LinkedBTree

/-! Storage for nodes. A handle is good while its slot holds a node of the
handle's generation; giving up a node moves the slot on to the next one. -/

structure Node (P : Type) where
  payload : Option P
  parent : Option NodeId := none
  previous : Option NodeId := none
  next : Option NodeId := none
  firstChild : Option NodeId := none
  lastChild : Option NodeId := none
  childCount : Nat := 0
  deriving DecidableEq, Repr

namespace Node

variable {P : Type}

def isLeaf (node : Node P) : Bool :=
  node.childCount == 0

def isLinked (node : Node P) : Bool :=
  node.parent.isSome || node.previous.isSome || node.next.isSome

def unlinked (node : Node P) : Node P :=
  { node with parent := none, previous := none, next := none }

def childless (node : Node P) : Node P :=
  { node with firstChild := none, lastChild := none, childCount := 0 }

end Node

structure Slot (P : Type) where
  generation : UInt32 := 0
  node : Option (Node P) := none
  deriving DecidableEq, Repr

structure Arena (P : Type) where
  /-- Every slot handed out so far. -/
  slots : Array (Slot P) := #[]
  /-- Slots given back, the latest first. -/
  free : List Nat := []
  /-- Most nodes that may be live at once. -/
  capacity : Nat
  stats : Stats := {}
  deriving DecidableEq, Repr

namespace Arena

variable {P : Type}

def withCapacity (capacity : Nat) : Except Error (Arena P) :=
  if capacity = 0 then
    raise .zeroCapacity
  else if largestCapacity < capacity then
    raise (.capacityTooLarge capacity)
  else
    pure { capacity }

def empty : Arena P :=
  { capacity := defaultCapacity }

def node? (arena : Arena P) (id : NodeId) : Option (Node P) :=
  match arena.slots[id.index]? with
  | some slot => if slot.generation = id.generation then slot.node else none
  | none => none

def contains (arena : Arena P) (id : NodeId) : Bool :=
  (arena.node? id).isSome

def read (arena : Arena P) (id : NodeId) : Except Error (Node P) :=
  match arena.node? id with
  | some node => pure node
  | none => raise (.stale id)

/-- Changes the node named by `id`; a stale handle changes nothing. -/
def modify (arena : Arena P) (id : NodeId) (change : Node P → Node P) :
    Arena P :=
  { arena with
    slots := arena.slots.modify id.index fun slot =>
      if slot.generation = id.generation then
        { slot with node := slot.node.map change }
      else
        slot }

def count (arena : Arena P) (counter : Counter) : Arena P :=
  { arena with stats := arena.stats.add counter 1 }

def resetStats (arena : Arena P) : Arena P :=
  { arena with stats := {} }

def liveCount (arena : Arena P) : Nat :=
  arena.slots.size - arena.free.length

/-- Handles of all live nodes, by slot. -/
def liveIds (arena : Arena P) : List NodeId :=
  arena.slots.toList.zipIdx.filterMap fun (slot, index) =>
    slot.node.map fun _ => ⟨index, slot.generation⟩

/-- More visits than there are nodes. -/
def visits (arena : Arena P) : Nat :=
  arena.slots.size + 1

/-- Works on an arena. What was changed before an error stays changed. -/
abbrev Action (P : Type) : Type → Type :=
  EStateM Error (Arena P)

/-- Takes a slot for an unlinked node: the one given back last, else a fresh
one while the capacity allows. -/
def allocate (payload : Option P) : Action P NodeId :=
  fun arena =>
    let node : Node P := { payload }
    match arena.free with
    | index :: free =>
        match arena.slots[index]? with
        | some ⟨generation, none⟩ =>
            .ok ⟨index, generation⟩
              ({ arena with
                free
                slots := arena.slots.setIfInBounds index
                  ⟨generation, some node⟩ }.count .allocated)
        | _ => .error (.cause (.slotOccupied index)) { arena with free }
    | [] =>
        if arena.slots.size < arena.capacity then
          .ok ⟨arena.slots.size, 0⟩
            ({ arena with
              slots := arena.slots.push ⟨0, some node⟩ }.count .allocated)
        else
          .error (.cause (.arenaExhausted arena.capacity))
            (arena.count .refused)

/-- Gives up the node named by `id`, whatever links to it. A stale handle
changes nothing. -/
def discard (arena : Arena P) (id : NodeId) : Arena P :=
  if arena.contains id then
    { arena with
      slots := arena.slots.setIfInBounds id.index
        ⟨id.generation + 1, none⟩
      free := id.index :: arena.free }.count .freed
  else
    arena

/-- Changes a node that is known to be live. -/
def alter (id : NodeId) (change : Node P → Node P) : Action P Unit :=
  fun arena => .ok () (arena.modify id change)

def write (id : NodeId) (change : Node P → Node P) : Action P Unit := do
  let _ ← (← get).read id
  alter id change

/-- Puts `payload` in place, and gives the one that was there. -/
def setPayload (id : NodeId) (payload : Option P) : Action P (Option P) := do
  let node ← (← get).read id
  alter id ({ · with payload })
  pure node.payload

/-- Takes the node named by `id` out of its slot, whatever links to it. -/
def take (id : NodeId) : Action P (Node P) := do
  let node ← (← get).read id
  modifyThe (Arena P) (discard · id)
  pure node

def tick (counter : Counter) : Action P Unit :=
  fun arena => .ok () (arena.count counter)

@[simp] theorem node?_count (arena : Arena P) (counter : Counter)
    (id : NodeId) : (arena.count counter).node? id = arena.node? id := rfl

theorem read_eq_ok_iff (arena : Arena P) (id : NodeId) (node : Node P) :
    arena.read id = .ok node ↔ arena.node? id = some node := by
  unfold read
  cases arena.node? id with
  | none => exact ⟨nofun, nofun⟩
  | some found => simp [pure, Except.pure]

theorem node?_modify_self (arena : Arena P) (id : NodeId)
    (change : Node P → Node P) :
    (arena.modify id change).node? id = (arena.node? id).map change := by
  unfold node? modify
  simp only [Array.getElem?_modify, if_true]
  cases arena.slots[id.index]? with
  | none => rfl
  | some slot =>
      by_cases same : slot.generation = id.generation <;> simp [same]

theorem node?_modify_of_ne (arena : Arena P) {id other : NodeId}
    (different : other ≠ id) (change : Node P → Node P) :
    (arena.modify id change).node? other = arena.node? other := by
  unfold node? modify
  simp only [Array.getElem?_modify]
  by_cases sameIndex : id.index = other.index
  · rw [if_pos sameIndex]
    cases arena.slots[other.index]? with
    | none => rfl
    | some slot =>
        by_cases named : slot.generation = id.generation
        · have otherGeneration : id.generation ≠ other.generation := by
            intro sameGeneration
            exact different (by
              cases id
              cases other
              simp_all)
          simp [named, otherGeneration]
        · simp [named]
  · rw [if_neg sameIndex]

end Arena

end LinkedBTree
