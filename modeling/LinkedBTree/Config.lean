import LinkedBTree.Error.Basic

namespace LinkedBTree

def largestCapacity : Nat := 4294967295

def defaultCapacity : Nat := 1048576

structure Config where
  /-- A leaf holding this many values is split. -/
  maxValues : Nat
  /-- Values in each leaf that a split makes, the last one apart. -/
  chunkSize : Nat := 25
  /-- Most nodes that may be live at once. -/
  nodeCapacity : Nat := defaultCapacity
  deriving DecidableEq, Repr

namespace Config

structure Valid (config : Config) : Prop where
  maxValues_pos : 0 < config.maxValues
  chunkSize_pos : 0 < config.chunkSize
  nodeCapacity_pos : 0 < config.nodeCapacity
  nodeCapacity_le : config.nodeCapacity ≤ largestCapacity

def check (config : Config) : Except Error Unit :=
  if config.maxValues = 0 then
    raise .zeroMaxValues
  else if config.chunkSize = 0 then
    raise .zeroChunkSize
  else if config.nodeCapacity = 0 ∨ largestCapacity < config.nodeCapacity then
    raise (.capacityOutsideRange largestCapacity)
  else
    pure ()

theorem check_eq_ok_iff (config : Config) :
    config.check = .ok () ↔ config.Valid := by
  constructor
  · intro checked
    unfold check at checked
    split at checked
    · exact absurd checked (by nofun)
    · split at checked
      · exact absurd checked (by nofun)
      · split at checked
        · exact absurd checked (by nofun)
        · constructor <;> omega
  · intro valid
    have := valid.maxValues_pos
    have := valid.chunkSize_pos
    have := valid.nodeCapacity_pos
    have := valid.nodeCapacity_le
    unfold check
    rw [if_neg (by omega), if_neg (by omega), if_neg (by omega)]
    rfl

end Config

end LinkedBTree
