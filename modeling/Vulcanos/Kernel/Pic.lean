import Mathlib.Data.UInt

/-!
# `pic_remap`

The two interrupt controllers, as far as `idt.c` programs them. A chip takes what comes in on its
data port by what it has been told before: a command word with bit 4 set starts its initialisation,
the next three bytes are ICW2, ICW3 and ICW4, and every later one is its mask.
-/

namespace Vulcanos

/-- What a chip takes the next byte on its data port for. -/
inductive PicStage where
  | icw2
  | icw3
  | icw4
  | ready
deriving Repr, DecidableEq

/-- An 8259A. -/
structure Pic where
  stage : PicStage
  icw2 : UInt8
  icw3 : UInt8
  icw4 : UInt8
  mask : UInt8
deriving Repr, DecidableEq

/-- A byte on the command port. -/
def Pic.command (c : UInt8) (p : Pic) : Pic :=
  if c &&& 0x10 ≠ 0 then { p with stage := .icw2 } else p

/-- A byte on the data port. -/
def Pic.data (d : UInt8) (p : Pic) : Pic :=
  match p.stage with
  | .icw2 => { p with icw2 := d, stage := .icw3 }
  | .icw3 => { p with icw3 := d, stage := .icw4 }
  | .icw4 => { p with icw4 := d, stage := .ready }
  | .ready => { p with mask := d }

/-- The master and the slave. -/
structure Pics where
  master : Pic
  slave : Pic
deriving Repr, DecidableEq

def pic1Command : Nat := 0x20
def pic1Data : Nat := pic1Command + 1
def pic2Command : Nat := 0xA0
def pic2Data : Nat := pic2Command + 1
def icw1Icw4 : UInt8 := 0x01
def icw1Init : UInt8 := 0x10
def icw4Mode8086 : UInt8 := 0x01

namespace Pics

/-- `outb`, as far as the two chips listen. -/
def outb (port : Nat) (data : UInt8) (p : Pics) : Pics :=
  if port = pic1Command then { p with master := p.master.command data }
  else if port = pic1Data then { p with master := p.master.data data }
  else if port = pic2Command then { p with slave := p.slave.command data }
  else if port = pic2Data then { p with slave := p.slave.data data }
  else p

/-- `inb` on a data port. -/
def inb (port : Nat) (p : Pics) : UInt8 :=
  if port = pic1Data then p.master.mask else if port = pic2Data then p.slave.mask else 0

def picRemap (offset1 offset2 : UInt8) (p : Pics) : Pics :=
  let a1 := p.inb pic1Data
  let a2 := p.inb pic2Data
  let p := p.outb pic1Command (icw1Init + icw1Icw4)
  let p := p.outb pic2Command (icw1Init + icw1Icw4)
  let p := p.outb pic1Data offset1
  let p := p.outb pic2Data offset2
  let p := p.outb pic1Data 4
  -- meant for the slave
  let p := p.outb pic1Data 2
  let p := p.outb pic1Data icw4Mode8086
  let p := p.outb pic2Data icw4Mode8086
  let p := p.outb pic1Data a1
  p.outb pic2Data a2

end Pics

end Vulcanos
