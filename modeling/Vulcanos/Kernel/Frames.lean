import Vulcanos.Kernel.State

/-!
# `paging.c`: frames

The bitmap of physical frames, and giving a frame to a page and taking it back. A page entry is
passed as a value and returned, where the C code passes its address.
-/

namespace Vulcanos

namespace Frames

def frameSize : Nat := 4096

def physicalMemSize : Nat := 0x10000000

/-- `FRAME_ALLOCATIONS_SECTION_SIZE`. -/
def sectionSize : Nat := 32

def frame (addr : Nat) : Nat := addr / frameSize

def frameSection (frame : Nat) : Nat := frame / sectionSize

def frameOffset (frame : Nat) : Nat := frame % sectionSize

def setFrame (addr : Nat) (f : Frames) : Frames :=
  let s := frameSection (frame addr)
  let o := frameOffset (frame addr)
  { f with
    frameAllocations :=
      Function.update f.frameAllocations s (f.frameAllocations s ||| (1 <<< o)) }

def clearFrame (addr : Nat) (f : Frames) : Frames :=
  let s := frameSection (frame addr)
  let o := frameOffset (frame addr)
  { f with
    frameAllocations :=
      Function.update f.frameAllocations s
        (f.frameAllocations s &&& (0xFFFFFFFF ^^^ (1 <<< o))) }

/-- The inner loop of `first_frame`, over the bits of one section. -/
def firstClear (w : Nat) : Nat → Nat → Option Nat
  | 0, _ => none
  | n + 1, idx => if w &&& (1 <<< idx) = 0 then some idx else firstClear w n (idx + 1)

def firstFrameFrom (f : Frames) : Nat → Nat → Option Nat
  | 0, _ => none
  | n + 1, sec =>
      if f.frameAllocations sec ≠ 0xFFFFFFFF then
        match firstClear (f.frameAllocations sec) sectionSize 0 with
        | some idx => some (sec * sectionSize + idx)
        | none => firstFrameFrom f n (sec + 1)
      else firstFrameFrom f n (sec + 1)

def firstFrame (f : Frames) : Nat :=
  (firstFrameFrom f (f.nframes / sectionSize) 0).getD (f.nframes / sectionSize * sectionSize)

/-- `alloc_frame`. Both `PAGE_SUPERVISOR` and `PAGE_USER` are 0, and `fr` is a 20-bit field. -/
def allocFrame (page : Page) (isSuper isWrite : Nat) (f : Frames) : Except Stop (Page × Frames) :=
  if page.fr ≠ 0 then .ok (page, f)
  else
    let fframe := f.firstFrame
    if fframe = 0xFFFFFFFF then .error (.panic "No free frames availables!")
    else
      .ok ({ page with
              pr := 1
              rw := if isWrite ≠ 0 then 1 else 0
              us := if isSuper ≠ 0 then 0 else 0
              fr := fframe % 2 ^ 20 },
        f.setFrame (fframe * frameSize % 4294967296))

def freeFrame (page : Page) (f : Frames) : Page × Frames :=
  if page.fr = 0 then (page, f) else ({ page with fr := 0 }, f.clearFrame page.fr)

end Frames

end Vulcanos
