import BoltCpp.Lib.Bisect
import BoltCpp.Lib.ByteMem
import BoltCpp.Lib.CommonPrefix
import BoltCpp.Lib.Crowd
import BoltCpp.Lib.KeyedList
import BoltCpp.Lib.LeafRow
import BoltCpp.Lib.Locks
import BoltCpp.Lib.Lockstep
import BoltCpp.Lib.MultiTree
import BoltCpp.Lib.PairCode
import BoltCpp.Lib.RangeMerge
import BoltCpp.Lib.Runs
import BoltCpp.Lib.SearchTree
import BoltCpp.Lib.Tiling
import BoltCpp.Lib.TreeUpdate
import BoltCpp.Lib.Walk
import BoltCpp.SliceOrder
import BoltCpp.Hex
import BoltCpp.NodeMap
import BoltCpp.Siblings
import BoltCpp.LeafRoundTrip
import BoltCpp.BranchPage
import BoltCpp.PageCopy
import BoltCpp.PageFootprint
import BoltCpp.PageType
import BoltCpp.Begin
import BoltCpp.Backward
import BoltCpp.Seek
import BoltCpp.PageSearch
import BoltCpp.CursorCalls
import BoltCpp.EmptyLeaves
import BoltCpp.CursorDelete
import BoltCpp.TreeMap
import BoltCpp.TreeDelete
import BoltCpp.CursorForms
import BoltCpp.Unfold
import BoltCpp.LiveCursor
import BoltCpp.Sweep
import BoltCpp.Persist
import BoltCpp.FreePages
import BoltCpp.FreeListRead
import BoltCpp.MetaWrite
import BoltCpp.Readers
import BoltCpp.Finish
import BoltCpp.Mapping
import BoltCpp.Flock
import BoltCpp.Deadlock
import BoltCpp.Recycling
import BoltCpp.Accounting
