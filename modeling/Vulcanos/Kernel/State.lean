import Vulcanos.Library.Memory
import Vulcanos.Library.Word
import Vulcanos.Kernel.OrderedArray
import Vulcanos.Kernel.Panic

/-!
# The memory manager's state

The globals of `kheap.c` and `paging.c`. The heap's chunks and its index live in one byte memory,
since the heap's behaviour depends on how they overlap. The page directory, the page tables and the
frame bitmap are kept as the C objects they are, page entries by their address.
-/

namespace Vulcanos

open Memory

/-- `page_t`, the four fields the code reads or writes. -/
structure Page where
  pr : Nat
  rw : Nat
  us : Nat
  fr : Nat
deriving Repr, DecidableEq

/-- A page entry after `memset(.., 0, ..)`. -/
def Page.zero : Page := ⟨0, 0, 0, 0⟩

/-- `page_directory_t`: the tables' virtual addresses, null as zero, and the physical words. -/
structure PageDirectory where
  pageTablesVirtual : Nat → Nat
  pageTablesPhysical : Nat → Nat

/-- The frame bitmap: `frame_allocations` as an array of 32-bit words, and `nframes`. -/
structure Frames where
  frameAllocations : Nat → Nat
  nframes : Nat

/-- `heap_t`. -/
structure Heap where
  index : OrderedArray
  startAddress : Nat
  endAddress : Nat
  maxAddress : Nat
  supervisor : Nat
  readonly : Nat

/-- The globals. `kheap` and `kernelDirectory` are the pointers, `heap` and `directory` what they
point to; `frameAllocationsAddr` is where the bitmap lies. -/
structure Kernel where
  mem : Mem
  placementAddr : Nat
  kheap : Nat
  heap : Heap
  kernelDirectory : Nat
  directory : PageDirectory
  pages : Nat → Page
  frameAllocationsAddr : Nat
  frames : Frames

end Vulcanos
