import LinkedBTree.Arena.Basic
import LinkedBTree.Arena.Children
import LinkedBTree.Arena.Copy
import LinkedBTree.Arena.Links
import LinkedBTree.Arena.Preorder
import LinkedBTree.Arena.Release
import LinkedBTree.Comparator
import LinkedBTree.Config
import LinkedBTree.EntryList.Basic
import LinkedBTree.EntryList.Cursor
import LinkedBTree.Error.Basic
import LinkedBTree.Error.Cause
import LinkedBTree.Keyed.Key
import LinkedBTree.Keyed.Order
import LinkedBTree.NodeId
import LinkedBTree.Proofs.Arena.Accounting
import LinkedBTree.Proofs.Arena.Allocation
import LinkedBTree.Proofs.Arena.Batches
import LinkedBTree.Proofs.Arena.Calls
import LinkedBTree.Proofs.Arena.Changing
import LinkedBTree.Proofs.Arena.Cloning
import LinkedBTree.Proofs.Arena.Copying
import LinkedBTree.Proofs.Arena.Duplicating
import LinkedBTree.Proofs.Arena.Editing
import LinkedBTree.Proofs.Arena.Edits
import LinkedBTree.Proofs.Arena.Forest
import LinkedBTree.Proofs.Arena.Freeing
import LinkedBTree.Proofs.Arena.Grafting
import LinkedBTree.Proofs.Arena.Halting
import LinkedBTree.Proofs.Arena.Handles
import LinkedBTree.Proofs.Arena.History
import LinkedBTree.Proofs.Arena.Linkage
import LinkedBTree.Proofs.Arena.Linking
import LinkedBTree.Proofs.Arena.Lookup
import LinkedBTree.Proofs.Arena.Numbering
import LinkedBTree.Proofs.Arena.Overlaying
import LinkedBTree.Proofs.Arena.Payloads
import LinkedBTree.Proofs.Arena.Pruning
import LinkedBTree.Proofs.Arena.Rejection
import LinkedBTree.Proofs.Arena.Relinking
import LinkedBTree.Proofs.Arena.Replica
import LinkedBTree.Proofs.Arena.Reproducing
import LinkedBTree.Proofs.Arena.Running
import LinkedBTree.Proofs.Arena.Slots
import LinkedBTree.Proofs.Arena.Sorting
import LinkedBTree.Proofs.Arena.Spotting
import LinkedBTree.Proofs.Arena.Steps
import LinkedBTree.Proofs.Arena.Subtree
import LinkedBTree.Proofs.Arena.Tips
import LinkedBTree.Proofs.Arena.Touring
import LinkedBTree.Proofs.Arena.Traversing
import LinkedBTree.Proofs.Arena.Turnover
import LinkedBTree.Proofs.Asking
import LinkedBTree.Proofs.ChunkList
import LinkedBTree.Proofs.Consulting
import LinkedBTree.Proofs.Echoing
import LinkedBTree.Proofs.Ledger
import LinkedBTree.Proofs.Loops
import LinkedBTree.Proofs.Maintaining
import LinkedBTree.Proofs.OrderedSet
import LinkedBTree.Proofs.Outcome
import LinkedBTree.Proofs.Pieces
import LinkedBTree.Proofs.Tree.Adjoining
import LinkedBTree.Proofs.Tree.Atomicity
import LinkedBTree.Proofs.Tree.Bookkeeping
import LinkedBTree.Proofs.Tree.Calls
import LinkedBTree.Proofs.Tree.Chunking
import LinkedBTree.Proofs.Tree.Chunks
import LinkedBTree.Proofs.Tree.Cloning
import LinkedBTree.Proofs.Tree.Confined
import LinkedBTree.Proofs.Tree.Context
import LinkedBTree.Proofs.Tree.Copyable
import LinkedBTree.Proofs.Tree.Copying
import LinkedBTree.Proofs.Tree.Descent
import LinkedBTree.Proofs.Tree.Detecting
import LinkedBTree.Proofs.Tree.Dropping
import LinkedBTree.Proofs.Tree.Dumping
import LinkedBTree.Proofs.Tree.Edited
import LinkedBTree.Proofs.Tree.Embodiment
import LinkedBTree.Proofs.Tree.Endings
import LinkedBTree.Proofs.Tree.Enquiries
import LinkedBTree.Proofs.Tree.Erasing
import LinkedBTree.Proofs.Tree.Exhausting
import LinkedBTree.Proofs.Tree.Extent
import LinkedBTree.Proofs.Tree.Finding
import LinkedBTree.Proofs.Tree.Form
import LinkedBTree.Proofs.Tree.Growing
import LinkedBTree.Proofs.Tree.Halting
import LinkedBTree.Proofs.Tree.History
import LinkedBTree.Proofs.Tree.Indistinct
import LinkedBTree.Proofs.Tree.Leaves
import LinkedBTree.Proofs.Tree.Matching
import LinkedBTree.Proofs.Tree.Meddling
import LinkedBTree.Proofs.Tree.Neighbours
import LinkedBTree.Proofs.Tree.Occurrences
import LinkedBTree.Proofs.Tree.Orderly
import LinkedBTree.Proofs.Tree.Overwriting
import LinkedBTree.Proofs.Tree.Places
import LinkedBTree.Proofs.Tree.Portions
import LinkedBTree.Proofs.Tree.Reachable
import LinkedBTree.Proofs.Tree.Recasting
import LinkedBTree.Proofs.Tree.Refinement
import LinkedBTree.Proofs.Tree.Regular
import LinkedBTree.Proofs.Tree.Releasing
import LinkedBTree.Proofs.Tree.Reliability
import LinkedBTree.Proofs.Tree.Renaming
import LinkedBTree.Proofs.Tree.Reshaping
import LinkedBTree.Proofs.Tree.Sessions
import LinkedBTree.Proofs.Tree.Shape
import LinkedBTree.Proofs.Tree.Sharing
import LinkedBTree.Proofs.Tree.Spine
import LinkedBTree.Proofs.Tree.Splitting
import LinkedBTree.Proofs.Tree.Standing
import LinkedBTree.Proofs.Tree.Storing
import LinkedBTree.Proofs.Tree.Substituting
import LinkedBTree.Proofs.Tree.Succession
import LinkedBTree.Proofs.Tree.Twins
import LinkedBTree.Proofs.Tree.Validation
import LinkedBTree.Proofs.Tree.Walking
import LinkedBTree.Proofs.Tree.Withdrawing
import LinkedBTree.Proofs.Walk
import LinkedBTree.Session
import LinkedBTree.Stats
import LinkedBTree.Tree.Basic
import LinkedBTree.Tree.Beside
import LinkedBTree.Tree.Copy
import LinkedBTree.Tree.Edit
import LinkedBTree.Tree.Erase
import LinkedBTree.Tree.Locate
import LinkedBTree.Tree.Overwrite
import LinkedBTree.Tree.Release
import LinkedBTree.Tree.Split
import LinkedBTree.Tree.Store
import LinkedBTree.Tree.Validity
import LinkedBTree.ValueTable
import LinkedBTree.Walk
