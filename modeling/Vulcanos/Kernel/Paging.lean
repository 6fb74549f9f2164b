import Vulcanos.Kernel.Kheap

/-!
# `paging.c`: `init_paging`

Setting up the frames, the page directory and the heap. The store to `current_directory`, the
registration of the page-fault handler and the loads of `cr3` and `cr0` change nothing that is
modelled. A page loop is given a number of iterations, and a loop that would need more does not
return.
-/

namespace Vulcanos

open Memory Word

namespace Kernel

def sizeofPageDirectory : Nat := 0x2000

/-- The first step of `init_paging`: the bitmap. The bytes that `memset` clears are as many as there
are sections. From here on the bitmap is read and written as an array of words. -/
def setupFrames (k : Kernel) : Except Stop Kernel := do
  let nframes := Frames.physicalMemSize / Frames.frameSize
  let (addr, _, k) ← kmalloc (alloc 0) (nframes / Frames.sectionSize) k
  let mem := memset addr 0 (nframes / Frames.sectionSize) k.mem
  .ok { k with
    mem := mem
    frameAllocationsAddr := addr
    frames := ⟨fun sec => read32 mem (addr + 4 * sec), nframes⟩ }

/-- The second step: the page directory. -/
def setupDirectory (k : Kernel) : Except Stop Kernel := do
  let (addr, _, k) ← kmallocA (alloc 0) sizeofPageDirectory k
  .ok { k with
    mem := memset addr 0 sizeofPageDirectory k.mem
    kernelDirectory := addr
    directory := ⟨fun _ => 0, fun _ => 0⟩ }

/-- `for(uint32_t i = start; i < bound; i += FRAME_SIZE)`. -/
def pageLoop (bound : Kernel → Nat) (body : Nat → Kernel → Except Stop Kernel) :
    Nat → Nat → Kernel → Except Stop Kernel
  | 0, _, _ => .error .outOfFuel
  | n + 1, i, k =>
      if i < bound k then do
        let k ← body i k
        pageLoop bound body n (add32 i Frames.frameSize) k
      else .ok k

/-- `get_page(i, 1, kernel_directory)`. -/
def touchPage (i : Nat) (k : Kernel) : Except Stop Kernel := do
  let (_, k) ← getPage (alloc 0) i 1 k
  .ok k

/-- `alloc_frame(get_page(i, 1, kernel_directory), 0, 0)`. -/
def mapPage (i : Nat) (k : Kernel) : Except Stop Kernel := do
  let (page, k) ← getPage (alloc 0) i 1 k
  allocFrameAt page 0 0 k

/-- The last step: `create_heap`, and the store to `kheap`. -/
def createKernelHeap (k : Kernel) : Except Stop Kernel := do
  let (heap, k) ← createHeap (alloc 0) kheapStart (kheapStart + kheapInitialSize) 0xCFFFF000 0 0 k
  .ok { k with kheap := heap }

/-- `init_paging`, each loop with at most `fuel` iterations. -/
def initPaging (fuel : Nat) (k : Kernel) : Except Stop Kernel := do
  let k ← setupFrames k
  let k ← setupDirectory k
  let k ← pageLoop (fun _ => kheapStart + kheapInitialSize) touchPage fuel kheapStart k
  let k ← pageLoop (fun k => add32 k.placementAddr Frames.frameSize) mapPage fuel 0 k
  let k ← pageLoop (fun _ => kheapStart + kheapInitialSize) mapPage fuel kheapStart k
  createKernelHeap k

end Kernel

end Vulcanos
