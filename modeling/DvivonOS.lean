import DvivonOS.Lib.Bytes
import DvivonOS.Lib.Wp
import DvivonOS.Lib.Trace
import DvivonOS.Lib.Links
import DvivonOS.Lib.Forest
import DvivonOS.Lib.X86
import DvivonOS.Lib.Paging
import DvivonOS.Lib.Objects
import DvivonOS.Lib.Ring
import DvivonOS.Lib.Circle
import DvivonOS.Memory.Pmm
import DvivonOS.Memory.PmmRuns
import DvivonOS.Memory.PmmInit
import DvivonOS.Memory.E820
import DvivonOS.Memory.Boot
import DvivonOS.Memory.Space
import DvivonOS.Memory.Vmm
import DvivonOS.Memory.UserSpace
import DvivonOS.Heap.Model
import DvivonOS.Heap.Shape
import DvivonOS.Heap.Arena
import DvivonOS.Heap.FreeList
import DvivonOS.Heap.Ops
import DvivonOS.Heap.Alloc
import DvivonOS.Heap.Runs
import DvivonOS.Heap.Refine
import DvivonOS.Heap.Merging
import DvivonOS.Heap.Limits
import DvivonOS.Heap.Generic
import DvivonOS.Heap.Accesses
import DvivonOS.Memory.Windows
import DvivonOS.Memory.Isolation
import DvivonOS.Memory.SpaceCalls
import DvivonOS.Memory.SpaceRuns
import DvivonOS.Memory.Destroy
import DvivonOS.Memory.Tlb
import DvivonOS.Memory.KernelPages
import DvivonOS.Memory.PagedHeap
import DvivonOS.Memory.SharedKernel
import DvivonOS.Memory.Pool
import DvivonOS.Memory.PoolPages
import DvivonOS.Memory.PoolList
import DvivonOS.Memory.PoolCalls
import DvivonOS.Memory.PoolRuns
import DvivonOS.Memory.PoolReuse
import DvivonOS.Memory.PoolApart
import DvivonOS.Memory.NewDirectory
import DvivonOS.Memory.Mapping
import DvivonOS.Memory.UserPages
import DvivonOS.Ext2.Volume
import DvivonOS.Ext2.Block
import DvivonOS.Ext2.Inode
import DvivonOS.Ext2.Directory
import DvivonOS.Ext2.Ops
import DvivonOS.Vfs.Model
import DvivonOS.Ext2.Layout
import DvivonOS.Ext2.Bitmap
import DvivonOS.Ext2.Counts
import DvivonOS.Ext2.BlockMap
import DvivonOS.Ext2.Assign
import DvivonOS.Ext2.Scan
import DvivonOS.Ext2.Delete
import DvivonOS.Ext2.InodeTable
import DvivonOS.Ext2.FullMap
import DvivonOS.Ext2.AssignMap
import DvivonOS.Ext2.Room
import DvivonOS.Ext2.Recorded
import DvivonOS.Ext2.Pointers
import DvivonOS.Ext2.File
import DvivonOS.Vfs.ReadWrite
import DvivonOS.Vfs.Ranges
import DvivonOS.Vfs.NoProgress
import DvivonOS.Ext2.Truncate
import DvivonOS.Ext2.Records
import DvivonOS.Vfs.Paths
import DvivonOS.Ext2.DirEntries
import DvivonOS.Ext2.DirCalls
import DvivonOS.Ext2.DirMap
import DvivonOS.Vfs.OpenFiles
import DvivonOS.Vfs.Refs
import DvivonOS.Vfs.Mount
import DvivonOS.Vfs.Sync
import DvivonOS.Vfs.Accepted
import DvivonOS.Ext2.Tracked
import DvivonOS.Ext2.Balance
import DvivonOS.Vfs.Tracked
import DvivonOS.Vfs.Balance
import DvivonOS.Disk.Ata
import DvivonOS.Disk.ErrorBit
import DvivonOS.Disk.Errors
import DvivonOS.Disk.Irq
import DvivonOS.Disk.IrqRuns
import DvivonOS.Disk.Pio
import DvivonOS.Disk.Transfer
import DvivonOS.Disk.Blocks
import DvivonOS.Disk.Device
import DvivonOS.Kernel.Elf
import DvivonOS.Kernel.Segments
import DvivonOS.Kernel.Loader
import DvivonOS.Kernel.Safety
import DvivonOS.Kernel.Contents
import DvivonOS.Kernel.Failures
import DvivonOS.Kernel.Rounds
import DvivonOS.Kernel.Switch
import DvivonOS.Kernel.Frames
import DvivonOS.Kernel.InService
import DvivonOS.Drivers.Keyboard
import DvivonOS.Drivers.Modifiers
import DvivonOS.Drivers.Vga
import DvivonOS.Drivers.Stdio
import DvivonOS.Prog.Shell
import DvivonOS.Kernel.Handlers
import DvivonOS.Kernel.Scheduler
