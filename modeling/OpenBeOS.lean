import OpenBeOS.Kernel.RegionSlot
import OpenBeOS.Kernel.TimerRun
import OpenBeOS.Kernel.SemUnits
import OpenBeOS.Kernel.CopyOnWrite
import OpenBeOS.Kernel.CommitRun
import OpenBeOS.Kernel.HeapRun
import OpenBeOS.Kernel.PageClear
import OpenBeOS.Kernel.ResizeRegion
import OpenBeOS.Kernel.CbufPoolRun
import OpenBeOS.Kernel.CbufSum
import OpenBeOS.Kernel.CbufTail
import OpenBeOS.Kernel.PortReuse
import OpenBeOS.Kernel.PortSize
import OpenBeOS.Kernel.FdRun
import OpenBeOS.Kernel.MountList
import OpenBeOS.Kernel.MountAtomic
import OpenBeOS.Kernel.ModuleLife
import OpenBeOS.Kernel.SchedKill
import OpenBeOS.Kernel.Lock
import OpenBeOS.Kernel.Rootfs
import OpenBeOS.Kernel.SmpRun
import OpenBeOS.Kernel.ElfRun
import OpenBeOS.Net.PppFrame
import OpenBeOS.Net.PppAnswer
import OpenBeOS.Storage.QueryMeaning
import OpenBeOS.Lib.Reachable
import OpenBeOS.Lib.RefCount
import OpenBeOS.Lib.Bytes
import OpenBeOS.Lib.Bitmap
import OpenBeOS.Lib.Bisect
import OpenBeOS.Lib.LinkedList
import OpenBeOS.BFS.Summaries
import OpenBeOS.BFS.ReadAfterWrite
import OpenBeOS.BFS.FindKey
import OpenBeOS.BFS.SplitConserves
import OpenBeOS.BFS.QueryExpression
import OpenBeOS.BFS.JournalReplay
import OpenBeOS.BFS.LogBlocks
import OpenBeOS.BFS.AttributeIterator
import OpenBeOS.BFS.RenameIndex
import OpenBeOS.Lib.Walk
import OpenBeOS.BFS.TreeWalks
import OpenBeOS.BFS.AllocatorFinds
import OpenBeOS.BFS.KeyOrder
import OpenBeOS.BFS.NodeEdit
import OpenBeOS.BFS.FreesTail
import OpenBeOS.BFS.QueryMatch
import OpenBeOS.BFS.PatternMatch
import OpenBeOS.BFS.BlockAddress
import OpenBeOS.BFS.SortedArray
import OpenBeOS.Lib.Pieces
import OpenBeOS.Net.Ip
import OpenBeOS.Net.IpReassRun
import OpenBeOS.Net.IpHostile
import OpenBeOS.Net.PoolRun
import OpenBeOS.Net.MbufPullup
import OpenBeOS.Net.PppConsume
import OpenBeOS.Net.PppCrc
import OpenBeOS.Net.ArpQueueRun
import OpenBeOS.Print.IppRoundTrip
