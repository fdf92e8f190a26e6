import TxList.Contents
import TxList.Ending
import TxList.Index
import TxList.IndexAdd
import TxList.IndexGrowth
import TxList.IndexRuns
import TxList.LNode
import TxList.Lib.Alike
import TxList.Lib.Chain
import TxList.Lib.Ends
import TxList.Lib.Fuel
import TxList.Lib.Linked
import TxList.Lib.Path
import TxList.Lib.Plays
import TxList.LinkedList
import TxList.Machine
import TxList.Phases
import TxList.Proofs.Accounts
import TxList.Proofs.Acts
import TxList.Proofs.Ahead
import TxList.Proofs.Alone
import TxList.Proofs.Ascending
import TxList.Proofs.Atomic
import TxList.Proofs.Behind
import TxList.Proofs.Calls
import TxList.Proofs.Commit
import TxList.Proofs.Deinit
import TxList.Proofs.Ending
import TxList.Proofs.FindNode
import TxList.Proofs.FiniteMap
import TxList.Proofs.Frame
import TxList.Proofs.Fuel
import TxList.Proofs.HeldLocks
import TxList.Proofs.IndexAdd
import TxList.Proofs.IndexFrame
import TxList.Proofs.IndexGrowth
import TxList.Proofs.IndexOps
import TxList.Proofs.IndexRooted
import TxList.Proofs.IndexRuns
import TxList.Proofs.IndexTies
import TxList.Proofs.IndexWalk
import TxList.Proofs.IndexWithin
import TxList.Proofs.Insertion
import TxList.Proofs.Invariant
import TxList.Proofs.Leaks
import TxList.Proofs.Listing
import TxList.Proofs.Lists
import TxList.Proofs.Locks
import TxList.Proofs.Marks
import TxList.Proofs.Ops
import TxList.Proofs.Overlay
import TxList.Proofs.OverlayOps
import TxList.Proofs.OwnView
import TxList.Proofs.Pending
import TxList.Proofs.Phases
import TxList.Proofs.Points
import TxList.Proofs.Progress
import TxList.Proofs.Protocol
import TxList.Proofs.PutIfAbsent
import TxList.Proofs.QueueEffects
import TxList.Proofs.QueueLinks
import TxList.Proofs.QueueLocks
import TxList.Proofs.QueueRuns
import TxList.Proofs.Reach
import TxList.Proofs.ReadValidity
import TxList.Proofs.Reclaim
import TxList.Proofs.Regions
import TxList.Proofs.Represented
import TxList.Proofs.Rereads
import TxList.Proofs.Retiring
import TxList.Proofs.Retry
import TxList.Proofs.Running
import TxList.Proofs.RunningTx
import TxList.Proofs.Scripts
import TxList.Proofs.Serial
import TxList.Proofs.SingletonChange
import TxList.Proofs.SingletonFrame
import TxList.Proofs.SingletonOps
import TxList.Proofs.Snapshot
import TxList.Proofs.Sound
import TxList.Proofs.SoundStep
import TxList.Proofs.StepFrame
import TxList.Proofs.TXend
import TxList.Proofs.Tracks
import TxList.Proofs.TracksCalls
import TxList.Proofs.TracksEnd
import TxList.Proofs.Turns
import TxList.Proofs.TwoTX
import TxList.Proofs.TwoTypes
import TxList.Proofs.VersionMask
import TxList.Proofs.Watched
import TxList.Proofs.Withheld
import TxList.Proofs.Within
import TxList.Proofs.Worker
import TxList.Protocol
import TxList.PutIfAbsent
import TxList.Queue
import TxList.QueueSystem
import TxList.QueueView
import TxList.Reclaim
import TxList.Retiring
import TxList.Script
import TxList.Snapshot
import TxList.State
import TxList.System
import TxList.TX
import TxList.TwoTX
import TxList.TwoTypes
import TxList.VersionMask
import TxList.Watched
import TxList.Worker
