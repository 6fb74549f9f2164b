import Vulcanos.Kernel.LibcString

/-!
# `cpuid.c`

What the kernel makes of the answers of the `cpuid` instruction. A field that no statement assigns
is `none`. The model name of an AMD processor, which is built with `strcat` from a number taken for
a pointer, is left out: nothing reads it.
-/

namespace Vulcanos

/-- The registers `eax` and `ebx` after `cpuid`, by the leaf that was asked for. -/
structure Cpu where
  eax : Nat → Nat
  ebx : Nat → Nat

def intelMagicNumber : Nat := 0x756e6547
def amdMagicNumber : Nat := 0x68747541
def unrecognizedCpu : Nat := 0xBADFF

/-- `icpuid_t`. -/
structure Icpuid where
  model : Option Nat
  family : Option Nat
  type : Option Nat
  brand : Nat
  stepping : Option Nat
  reserved : Option Nat
deriving Repr, DecidableEq

/-- The two fields of `cpuid_t` that are read. -/
structure CpuidT where
  family : Option (List UInt8)
  type : Option (List UInt8)
deriving Repr, DecidableEq

namespace Cpu

variable (c : Cpu)

def intelCpu : Icpuid :=
  { model := some ((c.eax 1 >>> 4) &&& 0xF)
    family := some ((c.eax 1 >>> 8) &&& 0xF)
    type := some ((c.eax 1 >>> 12) &&& 0xF)
    brand := intelMagicNumber
    stepping := some (c.eax 1 &&& 0xF)
    reserved := some (c.eax 1 >>> 14) }

/-- `amd_cpu`, which does not assign `type`. -/
def amdCpu : Icpuid :=
  { model := some ((c.eax 1 >>> 4) &&& 0xF)
    family := some ((c.eax 1 >>> 8) &&& 0xF)
    type := none
    brand := amdMagicNumber
    stepping := some (c.eax 1 &&& 0xF)
    reserved := some (c.eax 1 >>> 12) }

def genericCpu : Icpuid :=
  { model := none, family := none, type := none, brand := unrecognizedCpu, stepping := none
    reserved := none }

def detectCpu : Icpuid :=
  if c.ebx 0 = intelMagicNumber then c.intelCpu
  else if c.ebx 0 = amdMagicNumber then c.amdCpu
  else genericCpu

end Cpu

def intelTypes : List (Nat × String) :=
  [(0, "Original OEM"), (1, "Overdrive"), (2, "Dual-capable"), (3, "Reserved")]

def intelFamilies : List (Nat × String) :=
  [(3, "i386"), (4, "i486"), (5, "Pentium II Model 5/Xeon/Celeron"), (6, "Pentium Pro"),
    (15, "Pentium 4")]

/-- A `switch` without a `default`. -/
def switchOn (cases : List (Nat × String)) (n : Option Nat) : Option (List UInt8) :=
  (n.bind fun n => cases.lookup n).map bytesOf

def getCpuid (cpu : Icpuid) : CpuidT :=
  if cpu.brand = amdMagicNumber then { family := none, type := none }
  else if cpu.brand = intelMagicNumber then
    { family := switchOn intelFamilies cpu.family, type := switchOn intelTypes cpu.type }
  else if cpu.brand = unrecognizedCpu then
    { family := some (bytesOf "Generic (x86) CPU"), type := none }
  else { family := none, type := none }

def Cpu.getCpuType (c : Cpu) : Option (List UInt8) := (getCpuid c.detectCpu).type

def Cpu.getCpuFamily (c : Cpu) : Option (List UInt8) := (getCpuid c.detectCpu).family

end Vulcanos
