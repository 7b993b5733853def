import Shaunos.Common.BoundaryTag
import Shaunos.Common.Bytes
import Shaunos.Common.Chain
import Shaunos.Common.Count
import Shaunos.Common.Early
import Shaunos.Common.ErrorTerm
import Shaunos.Common.FirstLeast
import Shaunos.Common.FlipBit
import Shaunos.Common.Intervals
import Shaunos.Common.LoggedMem
import Shaunos.Common.OnesComplement
import Shaunos.Common.PtrTree
import Shaunos.Common.RecordScan
import Shaunos.Common.RecordWalk
import Shaunos.Common.RefCount
import Shaunos.Common.Ring
import Shaunos.Common.RingBuf
import Shaunos.Common.RingLists
import Shaunos.Common.Row
import Shaunos.Common.Run
import Shaunos.Common.Serial
import Shaunos.Common.SplitCount
import Shaunos.Common.StringInsns
import Shaunos.Common.Tiling
import Shaunos.Ext2.Alloc
import Shaunos.Ext2.AllocErrors
import Shaunos.Ext2.AllocRun
import Shaunos.Ext2.BlockMap
import Shaunos.Ext2.Delete
import Shaunos.Ext2.Dir
import Shaunos.Ext2.DirEmpty
import Shaunos.Ext2.DirScan
import Shaunos.Ext2.File
import Shaunos.Ext2.FreeInode
import Shaunos.Ext2.InodeTable
import Shaunos.Ext2.MapLaw
import Shaunos.Ext2.Read
import Shaunos.Ext2.Sectors
import Shaunos.Ext2.Supply
import Shaunos.Ext2.Volume
import Shaunos.Ext2.Write
import Shaunos.Ext2.WriteLaw
import Shaunos.Fs.FdBounds
import Shaunos.Fs.FdTable
import Shaunos.Fs.FileRefs
import Shaunos.Fs.FileRuns
import Shaunos.Fs.Inherit
import Shaunos.Fs.OpenFile
import Shaunos.Fs.PathLookup
import Shaunos.Fs.PathTree
import Shaunos.Fs.Readv
import Shaunos.Fs.VfsOpen
import Shaunos.Gfx.DrawLine
import Shaunos.Kernel.AvlMap
import Shaunos.Kernel.AvlTree
import Shaunos.Kernel.Bitops
import Shaunos.Kernel.Clock
import Shaunos.Kernel.Console
import Shaunos.Kernel.ElfDepends
import Shaunos.Kernel.ElfSymbols
import Shaunos.Kernel.IdRuns
import Shaunos.Kernel.IdSearch
import Shaunos.Kernel.Memmove
import Shaunos.Kernel.Pid
import Shaunos.Kernel.PrintfC99
import Shaunos.Kernel.ProcTree
import Shaunos.Kernel.Sched
import Shaunos.Kernel.SchedRun
import Shaunos.Kernel.StringFns
import Shaunos.Kernel.StringWords
import Shaunos.Kernel.TimerList
import Shaunos.Kernel.Tty
import Shaunos.Kernel.Vsnprintf
import Shaunos.Mm.AllocPages
import Shaunos.Mm.ArgEnv
import Shaunos.Mm.Bget
import Shaunos.Mm.BgetHeap
import Shaunos.Mm.BgetOps
import Shaunos.Mm.BgetRun
import Shaunos.Mm.Buddy
import Shaunos.Mm.BuddyOps
import Shaunos.Mm.BuddyRun
import Shaunos.Mm.CopyIn
import Shaunos.Mm.FreeLists
import Shaunos.Mm.Lowmem
import Shaunos.Mm.Malloc
import Shaunos.Mm.MapPages
import Shaunos.Mm.PageMap
import Shaunos.Mm.PageOrder
import Shaunos.Mm.Sbrk
import Shaunos.Mm.Uiomove
import Shaunos.Mm.UserCopy
import Shaunos.Net.Cksum
import Shaunos.Net.Errno
import Shaunos.Net.IpFrag
import Shaunos.Net.IpOptcopy
import Shaunos.Net.IpOptions
import Shaunos.Net.IpOutput
import Shaunos.Net.IpPcbopts
import Shaunos.Net.IpReass
import Shaunos.Net.IpReassRun
import Shaunos.Net.ListenQueue
import Shaunos.Net.Mbuf
import Shaunos.Net.MbufAdj
import Shaunos.Net.MbufCluster
import Shaunos.Net.MbufCopy
import Shaunos.Net.MbufCopydata
import Shaunos.Net.MbufPullup
import Shaunos.Net.MbufStore
import Shaunos.Net.PcbBind
import Shaunos.Net.PcbCache
import Shaunos.Net.PcbConnect
import Shaunos.Net.PcbLookup
import Shaunos.Net.SbLock
import Shaunos.Net.SoSend
import Shaunos.Net.SockBuf
import Shaunos.Net.SockCalls
import Shaunos.Net.SockError
import Shaunos.Net.Tcp
import Shaunos.Net.TcpCwnd
import Shaunos.Net.TcpFin
import Shaunos.Net.TcpInput
import Shaunos.Net.TcpMss
import Shaunos.Net.TcpOpen
import Shaunos.Net.TcpOptions
import Shaunos.Net.TcpOutput
import Shaunos.Net.TcpReass
import Shaunos.Net.TcpStall
import Shaunos.Net.TcpTrim
import Shaunos.Net.TcpTrimLaw
import Shaunos.Net.TcpWindow
import Shaunos.Net.TcpXmitTimer
import Shaunos.Net.UdpDeliver
import Shaunos.Net.UdpInput
import Shaunos.Net.UdpOutput
