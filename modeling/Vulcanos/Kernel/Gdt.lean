import Vulcanos.Kernel.Interrupts

/-!
# `gdt.c`, and the layout of the two tables

The five segment descriptors, and the bytes that the packed structures of `gdt.h` and `idt.h`
occupy: members in their order, the low byte of a member first, bit fields from the low bit on.
-/

namespace Vulcanos

def gdtBase : Nat := 0x00000000
def gdtLimit : Nat := 0xFFFFFFFF
def gdtSegmentLength : Nat := 0xF
def gdtOperandSize32 : Nat := 1
def gdtGranularity4K : Nat := 1
def gdtDataTypeReadWrite : Nat := 0x2
def gdtCodeTypeExecRead : Nat := 0xA
def gdtCodeAndDataDescriptor : Nat := 1
def gdtRing0 : Nat := 0
def gdtRing3 : Nat := 3
def gdtSegmentPresent : Nat := 1

/-- `gdt_access_t`. -/
structure GdtAccess where
  type : Nat
  dt : Nat
  dpl : Nat
  p : Nat
deriving Repr, DecidableEq

/-- `gdt_gran_t`. -/
structure GdtGran where
  seglen : Nat
  zero : Nat
  d : Nat
  g : Nat
deriving Repr, DecidableEq

/-- `gdt_entry_t`. -/
structure GdtEntry where
  limitLow : Nat
  baseLow : Nat
  baseMiddle : Nat
  access : GdtAccess
  granularity : GdtGran
  baseHigh : Nat
deriving Repr, DecidableEq

def constructEntry (access : GdtAccess) : GdtEntry :=
  { baseLow := gdtBase &&& 0xFFFF
    baseMiddle := (gdtBase >>> 16) &&& 0xFF
    baseHigh := (gdtBase >>> 24) &&& 0xFF
    limitLow := gdtLimit &&& 0xFFFF
    access := access
    granularity := ⟨gdtSegmentLength, 0, gdtOperandSize32, gdtGranularity4K⟩ }

def constructNullEntry : GdtEntry := ⟨0, 0, 0, ⟨0, 0, 0, 0⟩, ⟨0, 0, 0, 0⟩, 0⟩

/-- The accesses of the four segments, kernel code, kernel data, user code and user data. -/
def gdtAccesses : List GdtAccess :=
  [⟨gdtCodeTypeExecRead, gdtCodeAndDataDescriptor, gdtRing0, gdtSegmentPresent⟩,
    ⟨gdtDataTypeReadWrite, gdtCodeAndDataDescriptor, gdtRing0, gdtSegmentPresent⟩,
    ⟨gdtCodeTypeExecRead, gdtCodeAndDataDescriptor, gdtRing3, gdtSegmentPresent⟩,
    ⟨gdtDataTypeReadWrite, gdtCodeAndDataDescriptor, gdtRing3, gdtSegmentPresent⟩]

/-- `init_gdt`, as the table it leaves. -/
def initGdt : List GdtEntry := constructNullEntry :: gdtAccesses.map constructEntry

def gdtPtrLimit : Nat := 8 * 5 - 1

def idtPtrLimit : Nat := 8 * 256 - 1

/-! ### The bytes -/

def GdtAccess.byte (a : GdtAccess) : UInt8 :=
  UInt8.ofNat (a.type % 16 + 16 * (a.dt % 2) + 32 * (a.dpl % 4) + 128 * (a.p % 2))

def GdtGran.byte (g : GdtGran) : UInt8 :=
  UInt8.ofNat (g.seglen % 16 + 16 * (g.zero % 4) + 64 * (g.d % 2) + 128 * (g.g % 2))

def GdtEntry.bytes (e : GdtEntry) : List UInt8 :=
  [UInt8.ofNat e.limitLow, UInt8.ofNat (e.limitLow / 256), UInt8.ofNat e.baseLow,
    UInt8.ofNat (e.baseLow / 256), UInt8.ofNat e.baseMiddle, e.access.byte, e.granularity.byte,
    UInt8.ofNat e.baseHigh]

def IdtFlags.byte (f : IdtFlags) : UInt8 :=
  UInt8.ofNat (f.reserved % 32 + 32 * (f.dpl % 4) + 128 * (f.p % 2))

def IdtEntry.bytes (e : IdtEntry) : List UInt8 :=
  [UInt8.ofNat e.baseLow.toNat, UInt8.ofNat (e.baseLow.toNat / 256), UInt8.ofNat e.segSel.toNat,
    UInt8.ofNat (e.segSel.toNat / 256), UInt8.ofNat e.reserved, e.flags.byte,
    UInt8.ofNat e.baseHigh.toNat, UInt8.ofNat (e.baseHigh.toNat / 256)]

end Vulcanos
