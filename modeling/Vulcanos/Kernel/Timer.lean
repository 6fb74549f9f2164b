import Mathlib.Data.UInt

/-!
# `timer.c`

The first channel of the interval timer. A command says how its count is going to be sent, in one
byte or in two, and what the channel does with it.
-/

namespace Vulcanos

/-- The first channel of an 8254. -/
structure Pit where
  /-- Which bytes of a count are sent: 1 the low one, 2 the high one, 3 the low and then the high.
  -/
  access : Nat
  mode : Nat
  bcd : Bool
  /-- The low byte of a count whose high byte has not been sent yet. -/
  low : Option UInt8
  count : Nat
deriving Repr, DecidableEq

namespace Pit

/-- A byte on the command port. Two bits choose a channel, and an access of 0 only latches. -/
def command (data : UInt8) (p : Pit) : Pit :=
  if data.toNat / 64 = 0 ∧ data.toNat / 16 % 4 ≠ 0 then
    { p with
      access := data.toNat / 16 % 4
      mode := data.toNat / 2 % 8
      bcd := data.toNat % 2 = 1
      low := none }
  else p

/-- A byte on the channel's port. -/
def data (data : UInt8) (p : Pit) : Pit :=
  if p.access = 1 then { p with count := data.toNat }
  else if p.access = 2 then { p with count := 256 * data.toNat }
  else
    match p.low with
    | none => { p with low := some data }
    | some low => { p with low := none, count := low.toNat + 256 * data.toNat }

/-- `outb`, as far as the channel listens. -/
def outb (port : Nat) (data : UInt8) (p : Pit) : Pit :=
  if port = 0x43 then p.command data else if port = 0x40 then p.data data else p

/-- How many ticks of its clock the channel counts. -/
def divisor (p : Pit) : Nat := if p.count = 0 then 65536 else p.count

/-- What `init_timer` sends. A frequency of 0 is divided by. -/
def initTimer (frequency : Nat) (p : Pit) : Option Pit :=
  if frequency = 0 then none
  else
    let divisor := 1193180 / frequency
    let p := p.outb 0x43 0x36
    let low := UInt8.ofNat (divisor &&& 0xFF)
    let high := UInt8.ofNat ((divisor >>> 8) &&& 0xFF)
    some ((p.outb 0x40 low).outb 0x40 high)

end Pit

end Vulcanos
