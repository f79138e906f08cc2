import Hurd.Framework.Run
import Hurd.Libfshelp.RecordLock
import Hurd.Libfshelp.RecordLockEdit
import Hurd.Libfshelp.RecordLockExclusion
import Hurd.Libfshelp.FileLock
import Hurd.Libfshelp.RecordLockWakeup
import Hurd.Libfshelp.FileLockInvariant
import Hurd.Framework.Count
import Hurd.Framework.LinearProbe
import Hurd.Libihash.Table
import Hurd.Libihash.Accounting
import Hurd.Libihash.FiniteMap
import Hurd.Framework.Loop
import Hurd.Libbpf.Filter
import Hurd.Libbpf.Interpreter
import Hurd.Libbpf.Validated
import Hurd.Libbpf.Safety
import Hurd.Libbpf.Loads
import Hurd.Libbpf.FilterQueue
import Hurd.Ext2fs.Bitmap
import Hurd.Ext2fs.Balloc
import Hurd.Ext2fs.BallocEffect
import Hurd.Ext2fs.BallocConsistent
import Hurd.Libports.PortDeref
import Hurd.Libports.DerefDeferred
import Hurd.Ext2fs.Ialloc
import Hurd.Ext2fs.IallocSearch
import Hurd.Ext2fs.NextZeroBit
import Hurd.Libpipe.Pipe
import Hurd.Ext2fs.DiskCache
import Hurd.Ext2fs.FreeList
import Hurd.Ext2fs.Pokel
import Hurd.Ext2fs.BlockMap
import Hurd.Ext2fs.Getblk
import Hurd.Ext2fs.Truncate
import Hurd.Framework.ByteMemory
import Hurd.Ext2fs.Xattr
import Hurd.Ext2fs.XattrTable
import Hurd.Ext2fs.XattrBlock
import Hurd.Ext2fs.XattrMap
import Hurd.Ext2fs.XattrInPlace
import Hurd.Ext2fs.XattrList
import Hurd.Ext2fs.XattrOrder
import Hurd.Ext2fs.Dir
import Hurd.Ext2fs.DirRecords
import Hurd.Ext2fs.DirScan
import Hurd.Ext2fs.DirLookup
import Hurd.Ext2fs.DirEdit
import Hurd.Framework.AssocMap
import Hurd.Ext2fs.DirMap
import Hurd.Ext2fs.DirCorrupt
import Hurd.Ext2fs.GetDirects
import Hurd.Libpipe.Packet
import Hurd.Libpipe.Stream
import Hurd.Libpipe.Select
import Hurd.Framework.Outcome
import Hurd.Libstore.Store
import Hurd.Libstore.Interleave
import Hurd.Libstore.Encode
import Hurd.Libstore.Decode
import Hurd.Libstore.LeafRoundTrip
import Hurd.Libstore.Rebuild
import Hurd.Libstore.CompositeRoundTrip
import Hurd.Libstore.DecodeBounds
import Hurd.Framework.SlotCache
import Hurd.Libdiskfs.NameCache
import Hurd.Libdiskfs.NameCacheCoherent
import Hurd.Libdiskfs.DirOps
import Hurd.Libdiskfs.DirEntries
import Hurd.Libdiskfs.DirOutcomes
import Hurd.Libdiskfs.LinkCounts
import Hurd.Framework.Climb
import Hurd.Libdiskfs.Hierarchy
import Hurd.Libdiskfs.DirMoves
import Hurd.Framework.Holding
import Hurd.Libdiskfs.NodeLocks
import Hurd.Libdiskfs.LinkLocks
import Hurd.Libdiskfs.RenameDirLocks
import Hurd.Libdiskfs.RenameLocks
import Hurd.Libpager.Demuxer
import Hurd.Libpager.DemuxerOrder
import Hurd.Libpager.Pager
import Hurd.Libpager.PageIn
import Hurd.Libpager.PagemapBounds
import Hurd.Libpager.Memcpy
import Hurd.Libpager.MemcpyFaults
import Hurd.Libpager.LockRequests
import Hurd.Framework.Linked
import Hurd.Fatfs.Fat
import Hurd.Fatfs.FatImage
import Hurd.Fatfs.Sblock
import Hurd.Fatfs.ClusterChain
import Hurd.Fatfs.ClusterExtend
import Hurd.Fatfs.ClusterTruncate
import Hurd.Fatfs.Dir
import Hurd.Fatfs.DirName
import Hurd.Fatfs.DirListing
import Hurd.Fatfs.DirMap
import Hurd.Fatfs.VirtInode
import Hurd.Libihash.LocpMap
import Hurd.Auth.Makeauth
import Hurd.Auth.MergeIds
import Hurd.Auth.Setid
import Hurd.Auth.Rendezvous
import Hurd.Auth.RendezvousMatch
import Hurd.Framework.BackLinked
import Hurd.Proc.Mgt
import Hurd.Proc.ChildLists
import Hurd.Proc.ProcessTree
import Hurd.Framework.Roster
import Hurd.Framework.Indexed
import Hurd.Framework.Ledger
import Hurd.Framework.Replies
import Hurd.Proc.Pgrp
import Hurd.Proc.Groups
import Hurd.Proc.SessionNumbers
import Hurd.Proc.SetpgrpSessions
import Hurd.Proc.Orphans
import Hurd.Proc.Rusage
import Hurd.Proc.Wait
import Hurd.Proc.WaitSteps
import Hurd.Proc.WaitWakeup
import Hurd.Proc.WaitLog
import Hurd.Proc.WaitMarks
import Hurd.Proc.WaitReports
import Hurd.Proc.Usage
import Hurd.Term.Queue
import Hurd.Term.QueueList
import Hurd.Term.Termios
import Hurd.Term.Echo
import Hurd.Term.Munge
import Hurd.Term.EchoColumns
import Hurd.Term.EraseSafe
import Hurd.Term.EraseWatch
import Hurd.Tmpfs.Node
import Hurd.Tmpfs.Space
import Hurd.Tmpfs.GetDirects
import Hurd.Libfshelp.LockUpgrade
import Hurd.Libfshelp.RecordLockRange
import Hurd.Libfshelp.RecordList
import Hurd.Libfshelp.RecordTurns
import Hurd.Libfshelp.RecordOrder
import Hurd.Libfshelp.RecordLockMerge
import Hurd.Libfshelp.RecordLockUnlock
import Hurd.Libfshelp.RecordLockAtomic
import Hurd.Libihash.OutOfMemory
import Hurd.Libihash.Cleanup
import Hurd.Framework.LittleEndian
import Hurd.Lib9p.Wire
import Hurd.Lib9p.Strings
import Hurd.Lib9p.Client
import Hurd.Lib9p.Requests
import Hurd.Lib9p.Exchange
import Hurd.Lib9p.MessageSize
import Hurd.Lib9p.Matching
import Hurd.Lib9p.FidTable
import Hurd.Framework.NameTree
import Hurd.Tensorfs.Paths
import Hurd.Tensorfs.Node
import Hurd.Tensorfs.NameTree
import Hurd.Tensorfs.NameSpace
import Hurd.Tensorfs.FileContent
import Hurd.Framework.CyclicInterval
import Hurd.Console.Screen
import Hurd.Console.Display
import Hurd.Console.Changes
import Hurd.Console.Regions
import Hurd.Console.Output
import Hurd.Console.Characters
import Hurd.Console.Runs
import Hurd.Console.OutputChunks
import Hurd.Console.CursorErase
import Hurd.Libports.Refcounts
import Hurd.Libports.ThreadOffline
import Hurd.Libpipe.Broadcast
import Hurd.Libpipe.Records
import Hurd.Libpipe.Send
import Hurd.Libpipe.SendFailure
import Hurd.Libpipe.WriteLimit
import Hurd.Libshouldbeinlibc.Timefmt
import Hurd.Libshouldbeinlibc.FixedFormat
import Hurd.Libstore.ChildNames
import Hurd.Libstore.ChildFlags
import Hurd.Libstore.RemapRuns
import Hurd.Libstore.Rdwr
import Hurd.Libstore.ReadRuns
import Hurd.Libstore.ReadBlocks
