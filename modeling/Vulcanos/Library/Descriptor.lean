import Vulcanos.Library.Memory

/-!
# Descriptor tables

The segment descriptors and the interrupt gates of a 32-bit x86 processor, as the processor reads
them out of memory: eight bytes an entry, the base and the limit of a table in a register of its
own. Segments are those of code and data; the gates are those that end in the same privilege ring.
-/

namespace Vulcanos.Descriptor

open Memory

structure Segment where
  base : Nat
  /-- In units of a byte or, with the granularity bit, of 4 KiB. -/
  limit : Nat
  type : Nat
  /-- Code or data, and not a system segment. -/
  s : Nat
  dpl : Nat
  p : Nat
  /-- 32-bit operands. -/
  db : Nat
  g : Nat
deriving Repr, DecidableEq

/-- A gate of the interrupt table. -/
structure Gate where
  offset : Nat
  selector : Nat
  type : Nat
  dpl : Nat
  p : Nat
deriving Repr, DecidableEq

/-- The register that holds a table's base and its limit, the last byte's place. -/
structure TableRegister where
  base : Nat
  limit : Nat
deriving Repr, DecidableEq

/-- The segment descriptor at an address. -/
def readSegment (m : Mem) (a : Nat) : Segment :=
  { base := read8 m (a + 2) + 256 * read8 m (a + 3) + 65536 * read8 m (a + 4) +
      16777216 * read8 m (a + 7)
    limit := read8 m a + 256 * read8 m (a + 1) + 65536 * (read8 m (a + 6) % 16)
    type := read8 m (a + 5) % 16
    s := read8 m (a + 5) / 16 % 2
    dpl := read8 m (a + 5) / 32 % 4
    p := read8 m (a + 5) / 128
    db := read8 m (a + 6) / 64 % 2
    g := read8 m (a + 6) / 128 }

def readGate (m : Mem) (a : Nat) : Gate :=
  { offset := read8 m a + 256 * read8 m (a + 1) + 65536 * read8 m (a + 6) +
      16777216 * read8 m (a + 7)
    selector := read8 m (a + 2) + 256 * read8 m (a + 3)
    type := read8 m (a + 5) % 32
    dpl := read8 m (a + 5) / 32 % 4
    p := read8 m (a + 5) / 128 }

namespace Segment

variable (d : Segment)

/-- The highest offset. -/
def lastByte : Nat := if d.g = 1 then 4096 * d.limit + 4095 else d.limit

/-- The segment can be executed. -/
def IsCode : Prop := d.s = 1 ∧ 8 ≤ d.type

instance : Decidable d.IsCode := inferInstanceAs (Decidable (_ ∧ _))

/-- The linear address of an offset. -/
def linear (offset : Nat) : Option Nat :=
  if offset ≤ d.lastByte then some ((d.base + offset) % 4294967296) else none

/-- The segment does not translate. -/
def Flat : Prop := ∀ offset, offset < 4294967296 → d.linear offset = some offset

theorem flat_of_eq {d : Segment} (hbase : d.base = 0) (hlimit : d.limit = 0xFFFFF) (hg : d.g = 1) :
    d.Flat := by
  intro offset hlt
  have hin : offset ≤ d.lastByte := by
    rw [lastByte, if_pos hg, hlimit]
    omega
  rw [linear, if_pos hin, hbase, Nat.zero_add, Nat.mod_eq_of_lt hlt]

end Segment

/-- The segment that a selector of the global table stands for. -/
def segmentOf (gdtr : TableRegister) (m : Mem) (selector : Nat) : Option Segment :=
  if selector / 4 = 0 ∨ selector / 4 % 2 = 1 then none
  else if gdtr.limit < 8 * (selector / 8) + 7 then none
  else some (readSegment m (gdtr.base + 8 * (selector / 8)))

/-- Where the processor goes for a vector, in ring 0, with interrupts masked: through a present
32-bit interrupt gate and a present code segment of that ring. -/
def deliver (gdtr idtr : TableRegister) (m : Mem) (vector : Nat) : Option Nat :=
  if idtr.limit < 8 * vector + 7 then none
  else
    let gate := readGate m (idtr.base + 8 * vector)
    if gate.p ≠ 1 ∨ gate.type ≠ 0x0E then none
    else
      match segmentOf gdtr m gate.selector with
      | none => none
      | some d =>
          if d.IsCode ∧ d.dpl = 0 ∧ d.p = 1 then d.linear gate.offset else none

/-- `n` entries of eight bytes lie from an address on. -/
def TableAt (m : Mem) (a n : Nat) (entries : Nat → List UInt8) : Prop :=
  ∀ i, i < n → ∀ j, j < 8 → m (a + 8 * i + j) = (entries i).getD j 0

section Entries

variable {m : Mem} {a n i : Nat} {entries : Nat → List UInt8}

theorem TableAt.readSegment (h : TableAt m a n entries) (hi : i < n) :
    readSegment m (a + 8 * i) = Descriptor.readSegment (fun x => (entries i).getD x 0) 0 := by
  have h0 := h i hi 0 (by decide)
  have h1 := h i hi 1 (by decide)
  have h2 := h i hi 2 (by decide)
  have h3 := h i hi 3 (by decide)
  have h4 := h i hi 4 (by decide)
  have h5 := h i hi 5 (by decide)
  have h6 := h i hi 6 (by decide)
  have h7 := h i hi 7 (by decide)
  rw [Nat.add_zero] at h0
  simp only [Descriptor.readSegment, h0, h1, h2, h3, h4, h5, h6, h7, Memory.read8, Nat.zero_add]

theorem TableAt.readGate (h : TableAt m a n entries) (hi : i < n) :
    readGate m (a + 8 * i) = Descriptor.readGate (fun x => (entries i).getD x 0) 0 := by
  have h0 := h i hi 0 (by decide)
  have h1 := h i hi 1 (by decide)
  have h2 := h i hi 2 (by decide)
  have h3 := h i hi 3 (by decide)
  have h5 := h i hi 5 (by decide)
  have h6 := h i hi 6 (by decide)
  have h7 := h i hi 7 (by decide)
  rw [Nat.add_zero] at h0
  simp only [Descriptor.readGate, h0, h1, h2, h3, h5, h6, h7, Memory.read8, Nat.zero_add]

end Entries

end Vulcanos.Descriptor
