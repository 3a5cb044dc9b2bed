namespace LinkedBTree

/-! Counters of an arena and of the tree built on it. They wrap around at their
width. -/

inductive Counter
  | allocated
  | freed
  | refused
  | splits
  | collapses
  deriving DecidableEq, Repr

structure Stats where
  allocated : UInt64 := 0
  freed : UInt64 := 0
  refused : UInt64 := 0
  splits : UInt64 := 0
  collapses : UInt64 := 0
  deriving DecidableEq, Repr

namespace Stats

def get (stats : Stats) : Counter → UInt64
  | .allocated => stats.allocated
  | .freed => stats.freed
  | .refused => stats.refused
  | .splits => stats.splits
  | .collapses => stats.collapses

def add (stats : Stats) (counter : Counter) (amount : UInt64) : Stats :=
  match counter with
  | .allocated => { stats with allocated := stats.allocated + amount }
  | .freed => { stats with freed := stats.freed + amount }
  | .refused => { stats with refused := stats.refused + amount }
  | .splits => { stats with splits := stats.splits + amount }
  | .collapses => { stats with collapses := stats.collapses + amount }

@[simp] theorem get_add_self (stats : Stats) (counter : Counter)
    (amount : UInt64) :
    (stats.add counter amount).get counter = stats.get counter + amount := by
  cases counter <;> rfl

theorem get_add_of_ne (stats : Stats) {counter other : Counter}
    (different : other ≠ counter) (amount : UInt64) :
    (stats.add counter amount).get other = stats.get other := by
  cases counter <;> cases other <;> simp_all [get, add]

@[simp] theorem add_zero (stats : Stats) (counter : Counter) :
    stats.add counter 0 = stats := by
  cases counter <;> simp [add]

theorem add_add (stats : Stats) (counter : Counter) (first second : UInt64) :
    (stats.add counter first).add counter second =
      stats.add counter (first + second) := by
  cases counter <;> simp [add, UInt64.add_assoc]

theorem add_right_comm (stats : Stats) (counter other : Counter)
    (first second : UInt64) :
    (stats.add counter first).add other second =
      (stats.add other second).add counter first := by
  cases counter <;> cases other <;> simp [add, UInt64.add_assoc, UInt64.add_comm first]

/-- Nodes live by the counters' account; never below zero. -/
def live (stats : Stats) : UInt64 :=
  if stats.allocated ≤ stats.freed then 0 else stats.allocated - stats.freed

instance : ToString Stats where
  toString stats :=
    s!"Nodes: {stats.allocated} allocated, {stats.freed} freed, " ++
    s!"{stats.refused} refused | Splits: {stats.splits} | " ++
    s!"Collapses: {stats.collapses}"

end Stats

end LinkedBTree
