import Mathlib.Order.Monotone.Basic

/-!
# `time.c`

The real-time clock. Its registers change on their own, at instants that are numbered; the `n`-th
port access of the processor happens at one of them, later than the one before.
-/

namespace Vulcanos

/-- What the registers hold at every instant, and when the port accesses happen. -/
structure Rtc where
  held : Nat → Nat → UInt8
  instant : Nat → Nat
  forward : StrictMono instant

/-- The port accesses so far, and the register that the address port has selected. -/
structure Cmos where
  accesses : Nat
  selected : Nat
deriving Repr, DecidableEq

def cmosAddress : Nat := 0x70
def cmosData : Nat := 0x71

def timeRYear : Nat := 0x09
def timeRMonth : Nat := 0x08
def timeRDay : Nat := 0x07
def timeRHour : Nat := 0x06
def timeRMinute : Nat := 0x05
def timeRSecond : Nat := 0x04

/-- `outb`, which sends the low byte. -/
def Cmos.outb (port value : Nat) (s : Cmos) : Cmos :=
  { accesses := s.accesses + 1
    selected := if port = cmosAddress then value % 256 else s.selected }

structure TimeT where
  second : Nat
  minute : Nat
  hour : Nat
  day : Nat
  month : Nat
  year : Nat
deriving Repr, DecidableEq

namespace Rtc

variable (r : Rtc)

def inb (port : Nat) (s : Cmos) : UInt8 × Cmos :=
  (if port = cmosData then r.held (r.instant s.accesses) s.selected else 0,
    { s with accesses := s.accesses + 1 })

def isCmosUpdated (s : Cmos) : UInt8 × Cmos :=
  let (status, s) := r.inb cmosData (s.outb cmosAddress 0x0A)
  (status &&& 0x80, s)

def regStatus (reg : Nat) (s : Cmos) : UInt8 × Cmos := r.inb cmosData (s.outb cmosAddress reg)

/-- `BCD_CONVERTER`, with a call for its argument, which the macro makes twice. Which operand of the
sum a compiler evaluates first is its choice. -/
def bcdConverter (rightFirst : Bool) (n : Cmos → UInt8 × Cmos) (s : Cmos) : Nat × Cmos :=
  if rightFirst then
    let (low, s) := n s
    let (high, s) := n s
    (high.toNat / 16 * 10 + (low.toNat &&& 0xF), s)
  else
    let (high, s) := n s
    let (low, s) := n s
    (high.toNat / 16 * 10 + (low.toNat &&& 0xF), s)

/-- The loop that waits for the end of an update, for at most `fuel` rounds. -/
def waitUpdated : Nat → Cmos → Option Cmos
  | 0, _ => none
  | fuel + 1, s =>
      let (updating, s) := r.isCmosUpdated s
      if updating ≠ 0 then waitUpdated fuel s else some s

/-- `cmos_reader`. The fields are bytes. -/
def cmosReader (rightFirst : Nat → Bool) (fuel : Nat) (s : Cmos) : Option (TimeT × Cmos) := do
  let s ← r.waitUpdated fuel s
  let (second, s) := bcdConverter (rightFirst timeRSecond) (r.regStatus timeRSecond) s
  let (minute, s) := bcdConverter (rightFirst timeRMinute) (r.regStatus timeRMinute) s
  let (hour, s) := bcdConverter (rightFirst timeRHour) (r.regStatus timeRHour) s
  let (day, s) := bcdConverter (rightFirst timeRDay) (r.regStatus timeRDay) s
  let (month, s) := bcdConverter (rightFirst timeRMonth) (r.regStatus timeRMonth) s
  let (year, s) := bcdConverter (rightFirst timeRYear) (r.regStatus timeRYear) s
  some (⟨second % 256, minute % 256, hour % 256, day % 256, month % 256, year % 256⟩, s)

def getTime (rightFirst : Bool) (fuel field : Nat) (s : Cmos) : Option (Nat × Cmos) := do
  let s ← r.waitUpdated fuel s
  some (bcdConverter rightFirst (r.regStatus field) s)

end Rtc

end Vulcanos
