import Vulcanos.AddressSpace
import Vulcanos.Boot
import Vulcanos.Clock
import Vulcanos.CommandLine
import Vulcanos.Commands
import Vulcanos.Console
import Vulcanos.Descriptors
import Vulcanos.Directory
import Vulcanos.FileSystem
import Vulcanos.FrameAlloc
import Vulcanos.FramePool
import Vulcanos.Handlers
import Vulcanos.HeapAlign
import Vulcanos.HeapAlloc
import Vulcanos.HeapAnswer
import Vulcanos.HeapArray
import Vulcanos.HeapCoalesce
import Vulcanos.HeapDepth
import Vulcanos.HeapGrowth
import Vulcanos.HeapObjects
import Vulcanos.HeapOrder
import Vulcanos.HeapPaging
import Vulcanos.HeapReclaim
import Vulcanos.HeapReuse
import Vulcanos.HeapSafety
import Vulcanos.HeapShrink
import Vulcanos.HeapStack
import Vulcanos.HeapSystem
import Vulcanos.IndexCapacity
import Vulcanos.Interrupts
import Vulcanos.Kernel.Commands
import Vulcanos.Kernel.Cpuid
import Vulcanos.Kernel.Frames
import Vulcanos.Kernel.Fs
import Vulcanos.Kernel.Gdt
import Vulcanos.Kernel.Initrd
import Vulcanos.Kernel.Interrupts
import Vulcanos.Kernel.Isr
import Vulcanos.Kernel.Itoa
import Vulcanos.Kernel.KernelMain
import Vulcanos.Kernel.Keyboard
import Vulcanos.Kernel.Kheap
import Vulcanos.Kernel.LibcString
import Vulcanos.Kernel.OrderedArray
import Vulcanos.Kernel.PageFault
import Vulcanos.Kernel.Paging
import Vulcanos.Kernel.Panic
import Vulcanos.Kernel.Pic
import Vulcanos.Kernel.Shell
import Vulcanos.Kernel.State
import Vulcanos.Kernel.Stdio
import Vulcanos.Kernel.Time
import Vulcanos.Kernel.Timer
import Vulcanos.Kernel.Tty
import Vulcanos.Library.Bitmap
import Vulcanos.Library.CString
import Vulcanos.Library.Canvas
import Vulcanos.Library.Descriptor
import Vulcanos.Library.Fuel
import Vulcanos.Library.KeyOrder
import Vulcanos.Library.Layout
import Vulcanos.Library.Memory
import Vulcanos.Library.Numeral
import Vulcanos.Library.ObjectStore
import Vulcanos.Library.Run
import Vulcanos.Library.Simulation
import Vulcanos.Library.SlotArray
import Vulcanos.Library.Trace
import Vulcanos.Library.Volume
import Vulcanos.Library.WeakOrder
import Vulcanos.Library.Word
import Vulcanos.Library.X86
import Vulcanos.Numbers
import Vulcanos.PageAlign
import Vulcanos.PageTables
import Vulcanos.Placement
import Vulcanos.Printf
import Vulcanos.Proof.Alloc
import Vulcanos.Proof.Carve
import Vulcanos.Proof.Chunks
import Vulcanos.Proof.Depth
import Vulcanos.Proof.FileNodes
import Vulcanos.Proof.Frames
import Vulcanos.Proof.Free
import Vulcanos.Proof.Grow
import Vulcanos.Proof.Handlers
import Vulcanos.Proof.HeapPages
import Vulcanos.Proof.HeapRun
import Vulcanos.Proof.HeapUses
import Vulcanos.Proof.IndexOrder
import Vulcanos.Proof.IndexUses
import Vulcanos.Proof.InitPaging
import Vulcanos.Proof.Initrd
import Vulcanos.Proof.Itoa
import Vulcanos.Proof.Keyboard
import Vulcanos.Proof.LibcString
import Vulcanos.Proof.Merge
import Vulcanos.Proof.OrderedArray
import Vulcanos.Proof.PageMap
import Vulcanos.Proof.PageOwners
import Vulcanos.Proof.Sound
import Vulcanos.Proof.Stdio
import Vulcanos.Proof.Tidy
import Vulcanos.Proof.Tty
import Vulcanos.Ramdisk
import Vulcanos.Reading
import Vulcanos.SortedArray
import Vulcanos.StartUp
import Vulcanos.StringEdits
import Vulcanos.Strings
import Vulcanos.Terminal
import Vulcanos.Typing
