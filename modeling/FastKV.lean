import FastKV.CheckpointThreads
import FastKV.CheckpointClock
import FastKV.Alone
import FastKV.CursorView
import FastKV.SecondaryIndex
import FastKV.IndexScan
import FastKV.KeyCount
import FastKV.Commute
import FastKV.ReplReads
import FastKV.Expiry
import FastKV.ExpiryLimits
import FastKV.ActiveScan
import FastKV.Quiet
import FastKV.OrderedIndex
import FastKV.BTreeShape
import FastKV.BTreeFaults
import FastKV.BTreeSpared
import FastKV.BTreeTorn
import FastKV.LogRecovery
import FastKV.LastPut
import FastKV.CheckpointCut
import FastKV.CrashSafety
import FastKV.FailedCommit
import FastKV.FirstCommitter
import FastKV.Visible
import FastKV.Lib.Buffered
import FastKV.TornTail
import FastKV.LogAtomicity
import FastKV.WalRoundTrip
import FastKV.LogFaults
import FastKV.Wal
import FastKV.SnapshotParse
import FastKV.SnapshotReject
import FastKV.SnapshotRoundTrip
import FastKV.PutSpared
import FastKV.CursorSeek
import FastKV.ReplLimits
import FastKV.Uuid7Words
import FastKV.ReplDecode
import FastKV.JsonFlat
import FastKV.Crc32
import FastKV.Capacity
import FastKV.Lib.LinkedQueue
import FastKV.SendQueue
import FastKV.ArenaBlocks
import FastKV.WalDamage
import FastKV.RTreeDelete
import FastKV.RTreeNearby
import FastKV.RTreeServes
import FastKV.IoUring
import FastKV.Serializable
import FastKV.Slots
import FastKV.ReplRefine
import FastKV.Lib.SnapshotStore
import FastKV.OpenSlots
import FastKV.StoreRefinement
import FastKV.Lib.LinkedChain
import FastKV.HtMemory
import FastKV.LockFree
import FastKV.SenderWait
import FastKV.Lib.Locks
import FastKV.LockOrder
import FastKV.SyncedLife
import FastKV.RTreePacked
import FastKV.CloseFaults
import FastKV.Lib.Ownership
import FastKV.TableBlocks
