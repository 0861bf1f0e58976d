import Levos.Framework.Run
import Levos.Framework.Cyclic
import Levos.Framework.ByteMemory
import Levos.Framework.Bitmap
import Levos.Framework.Stack
import Levos.Framework.Heap
import Levos.Framework.Buffer
import Levos.Framework.Segments
import Levos.Framework.Fifo
import Levos.Framework.Terminal
import Levos.Framework.Scan
import Levos.Framework.Task
import Levos.Framework.Stretch
import Levos.Framework.Numeral
import Levos.Memory.Mm
import Levos.Memory.Frame
import Levos.Memory.Page
import Levos.Memory.Layout
import Levos.Memory.Search
import Levos.Memory.FrameAllocation
import Levos.Memory.PageRun
import Levos.Memory.FrameScans
import Levos.Memory.FreePages
import Levos.Memory.FrameOwners
import Levos.Memory.FrameSet
import Levos.Memory.Boot
import Levos.Memory.PagingFini
import Levos.Memory.KernelMemory
import Levos.Arch.Multiboot
import Levos.Arch.Context
import Levos.Arch.Resume
import Levos.Lib.String
import Levos.Lib.Tokens
import Levos.Lib.Strtok
import Levos.Lib.Strcmp
import Levos.Lib.Itoa
import Levos.Lib.ItoaLoops
import Levos.Ext2.Volume
import Levos.Ext2.Directory
import Levos.Ext2.Lookup
import Levos.Ext2.File
import Levos.Ext2.ReadFile
import Levos.Ext2.Super
import Levos.Ext2.Division
import Levos.Ext2.ReadNamed
import Levos.Ext2.FileBlock
import Levos.Ext2.EndOfFile
import Levos.Ext2.InodeTable
import Levos.Drivers.Ata
import Levos.Ext2.BlockSectors
import Levos.Ext2.Records
import Levos.Ext2.Entries
import Levos.Vfs.Mount
import Levos.Vfs.FindMount
import Levos.Kernel.Syscall
import Levos.Kernel.SyscallHub
import Levos.Kernel.FileTable
import Levos.Kernel.FileSystem
import Levos.Kernel.MountPath
import Levos.Kernel.PathBuffer
import Levos.Kernel.Elf
import Levos.Kernel.Printk
import Levos.Kernel.Shell
import Levos.Scheduler.Sched
import Levos.Scheduler.Select
import Levos.Scheduler.Step
import Levos.Scheduler.Invariant
import Levos.Scheduler.StepCases
import Levos.Scheduler.Safety
import Levos.Scheduler.Fairness
import Levos.Scheduler.Removal
import Levos.Scheduler.Exit
import Levos.Memory.Spaces
import Levos.Memory.Translation
import Levos.Memory.AddressSpace
import Levos.Liballoc.Malloc
import Levos.Liballoc.Lock
import Levos.Liballoc.Blocks
import Levos.Liballoc.Chunks
import Levos.Liballoc.Placement
import Levos.Liballoc.Process
import Levos.Liballoc.Granted
import Levos.Liballoc.ZeroFill
import Levos.Liballoc.Live
import Levos.Liballoc.MakeProcess
import Levos.Liballoc.Processes
import Levos.Liballoc.AddressSpace
import Levos.Drivers.Tty
import Levos.Drivers.TtyOutput
import Levos.Drivers.TtyQueue
import Levos.Drivers.TtyBounds
import Levos.Drivers.Keyboard
import Levos.Drivers.KeyQueue
import Levos.Drivers.Modifiers
import Levos.Kernel.GrabInput
import Levos.Arch.Textmode
import Levos.Arch.TextmodeScreen
import Levos.Lib.Memcpy
import Levos.Liballoc.FirstFit
import Levos.Arch.Interrupts
import Levos.Kernel.StoredFiles
import Levos.Kernel.Output
import Levos.Kernel.TypedLines
import Levos.Kernel.BootDrive
import Levos.Scheduler.Waiting
import Levos.Arch.Timer
