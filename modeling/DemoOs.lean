import DemoOs.Lib.BoundedQueue
import DemoOs.Lib.Calendar
import DemoOs.Lib.Carving
import DemoOs.Lib.Chain
import DemoOs.Lib.Circular
import DemoOs.Lib.Cursor
import DemoOs.Lib.Family
import DemoOs.Lib.Filling
import DemoOs.Lib.Loop
import DemoOs.Lib.Footprint
import DemoOs.Lib.Numeral
import DemoOs.Lib.Ring
import DemoOs.Lib.Run
import DemoOs.Lib.RoundRobin
import DemoOs.Lib.Reservation
import DemoOs.Lib.Search
import DemoOs.Lib.Components
import DemoOs.Lib.Tiling
import DemoOs.Lib.Rearrange
import DemoOs.Lib.PairCode
import DemoOs.Types
import DemoOs.Bytes
import DemoOs.Libc.Memset
import DemoOs.Mm.DoubleList
import DemoOs.Mm.RingLists
import DemoOs.Mm.Heap
import DemoOs.Mm.HeapInv
import DemoOs.Mm.HeapRep
import DemoOs.Mm.HeapRun
import DemoOs.Mm.HeapAligned
import DemoOs.Mm.HeapFailure
import DemoOs.Mm.HeapBytes
import DemoOs.Mm.HeapSeparate
import DemoOs.Mm.HeapFootprint
import DemoOs.Mm.HeapCarved
import DemoOs.Mm.HeapFrees
import DemoOs.Arch.Powerpc
import DemoOs.Arch.HashTable
import DemoOs.Arch.PageWalk
import DemoOs.Arch.Translation
import DemoOs.Arch.Locate
import DemoOs.Arch.Tlb
import DemoOs.Arch.FindBit
import DemoOs.Arch.BitSearch
import DemoOs.Arch.ZeroBlock
import DemoOs.Arch.Atomic
import DemoOs.Mm.Vmm
import DemoOs.Mm.VmmPages
import DemoOs.Mm.VmmMapping
import DemoOs.Mm.VmmBlocks
import DemoOs.Task.Kernel
import DemoOs.Task.Schedule
import DemoOs.Task.Rings
import DemoOs.Task.Ticks
import DemoOs.Task.Boot
import DemoOs.Task.Dispatch
import DemoOs.Task.Running
import DemoOs.Task.Membership
import DemoOs.Task.RoundRobin
import DemoOs.Task.Removal
import DemoOs.Task.ProcManager
import DemoOs.Task.ThreadManager
import DemoOs.Ipc.Semaphore
import DemoOs.Ipc.Waiters
import DemoOs.Ipc.Blocking
import DemoOs.Ipc.Accounting
import DemoOs.Ipc.Clearing
import DemoOs.Ipc.Mutex
import DemoOs.Ipc.MsgQueue
import DemoOs.Ipc.MsgCursors
import DemoOs.Ipc.MsgDeque
import DemoOs.Ipc.MsgSlots
import DemoOs.Ipc.MsgQueueManager
import DemoOs.Ipc.Signal
import DemoOs.Ipc.SignalStack
import DemoOs.Ipc.SemManager
import DemoOs.Vfs.Strings
import DemoOs.Vfs.Node
import DemoOs.Vfs.Calls
import DemoOs.Vfs.Pool
import DemoOs.Vfs.Names
import DemoOs.Vfs.Paths
import DemoOs.Vfs.PathNames
import DemoOs.Vfs.AbsolutePath
import DemoOs.Vfs.Compact
import DemoOs.Vfs.Rename
import DemoOs.Vfs.Rmdir
import DemoOs.Vfs.Unlink
import DemoOs.Vfs.Counting
import DemoOs.Vfs.Devices
import DemoOs.Libc.Search
import DemoOs.Libc.Qsort
import DemoOs.Libc.Strstr
import DemoOs.Libc.Inttypes
import DemoOs.Libc.IntegerForm
import DemoOs.Stdio.Printk
import DemoOs.Stdio.LongHex
import DemoOs.Stdio.Formats
import DemoOs.Stdio.Directives
import DemoOs.Buffer.Block
import DemoOs.Buffer.Serial
import DemoOs.Buffer.Move
import DemoOs.Buffer.Reset
import DemoOs.Buffer.Counted
import DemoOs.Tty.Tty
import DemoOs.Tty.Flow
import DemoOs.Tty.Transmit
import DemoOs.Tty.LineDiscipline
import DemoOs.Tty.Steps
import DemoOs.Tty.Interrupt
import DemoOs.Tty.Resize
import DemoOs.Tty.Echo
import DemoOs.Tty.Hysteresis
import DemoOs.Tty.Flush
import DemoOs.Tty.Locking
import DemoOs.Time.TmTime
import DemoOs.Time.Strftime
import DemoOs.Time.FieldText
import DemoOs.Time.Fitting
import DemoOs.Time.SysTick
import DemoOs.Time.TimeStamp
import DemoOs.Time.Timespec
import DemoOs.Driver.Rtc
import DemoOs.Driver.InterruptTable
import DemoOs.Driver.Uart
import DemoOs.Fs.YaffsFile
import DemoOs.Fs.FileSize
import DemoOs.Fs.Endian
import DemoOs.Fs.Ecc
import DemoOs.Fs.NandEcc
import DemoOs.Fs.NandPage
import DemoOs.Fs.PackedTags2
import DemoOs.Fs.Nameval
import DemoOs.Lib.Radix
import DemoOs.Fs.TnodeMap
import DemoOs.Fs.Tnode
import DemoOs.Fs.TnodePrune
import DemoOs.Fs.SoftDel
import DemoOs.Fs.TnodeCheckpt
import DemoOs.Fs.FileChunks
import DemoOs.System
