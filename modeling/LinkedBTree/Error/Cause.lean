import LinkedBTree.NodeId

namespace LinkedBTree

/-! What can go wrong, and how it is worded. -/

inductive ErrorClass
  | argument
  | memory
  | runtime
  deriving DecidableEq, Repr

inductive Category
  | invalidArgument
  | allocation
  | invalidState
  | valueMissing
  | alreadySet
  | corruption
  | staleNode
  | comparison
  | cloneFailed
  deriving DecidableEq, Repr

def Category.label : Category → String
  | .invalidArgument => "invalid argument"
  | .allocation => "allocation failed"
  | .invalidState => "invalid state"
  | .valueMissing => "value missing"
  | .alreadySet => "value already set"
  | .corruption => "corruption detected"
  | .staleNode => "stale node handle"
  | .comparison => "comparison failed"
  | .cloneFailed => "clone failed"

def Category.kind : Category → ErrorClass
  | .invalidArgument => .argument
  | .allocation => .memory
  | _ => .runtime

inductive Cause
  /-- Raised by a caller's procedure, in its own words. -/
  | reported (category : Category) (text : String)
  | zeroMaxValues
  | zeroChunkSize
  | capacityOutsideRange (largest : Nat)
  | zeroCapacity
  | capacityTooLarge (capacity : Nat)
  | arenaExhausted (capacity : Nat)
  | slotOccupied (index : Nat)
  | stale (id : NodeId)
  | elementOutOfRange (position length : Nat)
  | indexOutOfRange (index length : Nat)
  | ownDescendant (id : NodeId)
  | alreadyLinked (id : NodeId)
  | nothingToOrderBy (child : NodeId)
  | siblingWithoutPayload (sibling : NodeId)
  | replacedByItself (id : NodeId)
  | movedMeanwhile (id : NodeId)
  | noParent (id : NodeId)
  | notAChild (child parent : NodeId)
  | notAnOnlyParent (id : NodeId) (children : Nat)
  | countedButNotLinked (id : NodeId)
  | stillLinked (id : NodeId)
  | childOutOfRange (position : Nat) (id : NodeId) (children : Nat)
  | childListEndsEarly (id : NodeId)
  | childCountMismatch (listed counted : Nat)
  | endlessLinks
  | noValueList (id : NodeId)
  | separatorMismatch (id : NodeId) (children separators : Nat)
  | elementLost (id : NodeId) (element : Nat) (activity : String)
  | notALeaf (id : NodeId) (children : Nat)
  | nothingToReplace
  | replacementTooLow
  | replacementTooHigh
  | storedEntryEmpty (index : Nat)
  | notListed (leaf parent : NodeId)
  | singleSubNode (parent : NodeId)
  | outOfOrder (id : NodeId) (element : Nat)
  | emptyLeaf (id : NodeId)
  | belowRange (id : NodeId)
  | aboveRange (id : NodeId)
  | shortOfSeparator (id : NodeId)
  | otherEntryThanSeparator (id : NodeId)
  | deadEntry (id : NodeId) (index : Nat)
  | entryDiffers (id : NodeId) (index : Nat)
  | entryClaimedTwice (index : Nat)
  | strayChild (child parent : NodeId)
  | valueCountMismatch (inLeaves inArray : Nat)
  | unknownIndex (index : Nat)
  | copyDisagrees
  deriving DecidableEq, Repr

namespace Cause

def category : Cause → Category
  | reported category _ => category
  | zeroMaxValues | zeroChunkSize | capacityOutsideRange _ | zeroCapacity
  | capacityTooLarge _ | elementOutOfRange _ _ | indexOutOfRange _ _
  | ownDescendant _ | nothingToOrderBy _ | replacedByItself _ | notAChild _ _
  | childOutOfRange _ _ _ | replacementTooLow | replacementTooHigh =>
      .invalidArgument
  | arenaExhausted _ => .allocation
  | alreadyLinked _ | siblingWithoutPayload _ | noParent _ | movedMeanwhile _
  | notAnOnlyParent _ _ | stillLinked _ | notALeaf _ _ => .invalidState
  | nothingToReplace => .valueMissing
  | stale _ => .staleNode
  | slotOccupied _ | countedButNotLinked _ | childListEndsEarly _
  | childCountMismatch _ _ | endlessLinks | noValueList _
  | separatorMismatch _ _ _ | elementLost _ _ _ | storedEntryEmpty _
  | notListed _ _ | singleSubNode _ | outOfOrder _ _ | emptyLeaf _
  | belowRange _ | aboveRange _ | shortOfSeparator _
  | otherEntryThanSeparator _ | deadEntry _ _ | entryDiffers _ _
  | entryClaimedTwice _ | strayChild _ _ | valueCountMismatch _ _
  | unknownIndex _ | copyDisagrees => .corruption

def detail : Cause → String
  | reported _ text => text
  | zeroMaxValues => "max_values_per_node must be > 0"
  | zeroChunkSize => "split_chunk_size must be > 0"
  | capacityOutsideRange largest => s!"node_capacity must be in 1..={largest}"
  | zeroCapacity => "node capacity must be > 0"
  | capacityTooLarge capacity =>
      s!"node capacity {capacity} does not fit a u32 index"
  | arenaExhausted capacity => s!"node arena exhausted ({capacity} nodes)"
  | slotOccupied index => s!"slot {index} handed out while occupied"
  | stale id => toString id
  | elementOutOfRange position length =>
      s!"element {position} out of range (len {length})"
  | indexOutOfRange index length =>
      s!"array index {index} out of range (len {length})"
  | ownDescendant id => s!"{id} cannot become a descendant of itself"
  | alreadyLinked id => s!"{id} is already linked into a tree"
  | nothingToOrderBy id | siblingWithoutPayload id =>
      s!"{id} has no value to order by"
  | replacedByItself id => s!"cannot replace {id} with itself"
  | noParent id => s!"{id} has no parent"
  | movedMeanwhile id => s!"{id} was moved while being replaced"
  | notAChild child parent => s!"{child} is not a child of {parent}"
  | notAnOnlyParent id children =>
      s!"{id} has {children} sub nodes, expected exactly 1"
  | countedButNotLinked id => s!"{id} counts a sub node it does not link"
  | stillLinked id => s!"{id} is still linked; detach it before freeing"
  | childOutOfRange position id children =>
      s!"sub node index {position} out of range ({id} has {children} sub nodes)"
  | childListEndsEarly id => s!"sub node list of {id} ends early"
  | childCountMismatch listed counted =>
      s!"sub node list has {listed} entries but count is {counted}"
  | endlessLinks => "links do not come to an end"
  | noValueList id => s!"{id} has no value list"
  | separatorMismatch id children separators =>
      s!"{id} has {children} sub nodes for {separators} separators"
  | elementLost id element activity =>
      s!"{id} lost element {element} during {activity}"
  | notALeaf id children =>
      s!"{id} has {children} sub nodes and cannot be split"
  | nothingToReplace => "value to replace is not in the tree"
  | replacementTooLow => "replacement does not sort after the preceding value"
  | replacementTooHigh =>
      "replacement does not sort before the following value"
  | storedEntryEmpty index =>
      s!"values array entry {index} of a stored value is empty"
  | notListed leaf parent => s!"{leaf} is not listed under {parent}"
  | singleSubNode parent => s!"{parent} is a branch with a single sub node"
  | outOfOrder id element => s!"{id} is out of order at element {element}"
  | emptyLeaf id => s!"{id} is an empty leaf"
  | belowRange id => s!"{id} holds a value below its range"
  | aboveRange id => s!"{id} holds a value above its range"
  | shortOfSeparator id => s!"{id} ends below the separator bounding it"
  | otherEntryThanSeparator id =>
      s!"{id} ends on a different array entry than its separator"
  | deadEntry id index =>
      s!"{id} points at array entry {index}, which is not live"
  | entryDiffers id index =>
      s!"{id} and array entry {index} hold different values"
  | entryClaimedTwice index => s!"array entry {index} is claimed twice"
  | strayChild child parent => s!"{child} does not point back at {parent}"
  | valueCountMismatch inLeaves inArray =>
      s!"leaves hold {inLeaves} values, values array {inArray}"
  | unknownIndex index => s!"array index {index} out of range"
  | copyDisagrees => "tree nodes and values array disagree"

def message (cause : Cause) : String :=
  cause.category.label ++ ": " ++ cause.detail

end Cause

end LinkedBTree
