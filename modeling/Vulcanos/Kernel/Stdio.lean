import Vulcanos.Kernel.Itoa
import Vulcanos.Kernel.Keyboard

/-!
# `stdio.c`

`printf`, and the functions of `tty.c` that print strings and numbers. Each call of `kprint_c` is a
`Print`. What they print is not in video memory, so that printing leaves it as it is. A local array
is seen as the memory from its start on.
-/

namespace Vulcanos

open Memory Word

/-! ### `tty.c` -/

def kprint (buf : Nat) (m : Mem) : Except Stop Print := do
  let len ← strlen buf m
  .ok { buf := fun i => m (add32 buf i), len := len,
        fg := TtyColors.white.code, bg := TtyColors.black.code }

/-- The loop of `kprint_dec` that stores the digits of `acc`, lowest first. It leaves `i`. -/
def decLoop : Nat → Int → Nat → Buffer → Except Stop (Nat × Buffer)
  | 0, _, _, _ => .error .outOfFuel
  | fuel + 1, acc, i, c =>
      if acc > 0 then
        decLoop fuel (acc.tdiv 10) (i + 1) (c.store i (UInt8.ofNat (0x30 + (acc.tmod 10).toNat)))
      else .ok (i, c)

/-- The loop of `kprint_dec` that copies `c` to `c2` from its end, with `i` one less than the rounds
that are left. -/
def decCopy (c : Buffer) : Nat → Nat → Buffer → Buffer
  | 0, _, c2 => c2
  | i + 1, j, c2 => decCopy c i (j + 1) (c2.store i (c.bytes j))

/-- `kprint_dec`, with its two arrays. The string for zero is the one at address `'0'`. A number
that an `int32_t` can hold has at most 10 digits. -/
def kprintDec (num : Nat) (m : Mem) (c c2 : Buffer) : Except Stop Print :=
  if num = 0 then kprint 0x30 m
  else do
    let (i, c) ← decLoop 11 (int32 num) 0 c
    let c := c.store i 0
    let c2 := decCopy c i 0 (c2.store i 0)
    kprint 0 c2.bytes

/-! ### `printf` -/

/-- `strlen`, on the bytes from the pointer on. `none`: it reads behind the bytes it is given. -/
def strlenOf : List UInt8 → Option Nat
  | [] => none
  | c :: s => if c ≠ 0 then (strlenOf s).map (· + 1) else some 0

/-- The call of `kprint_c` for one byte. -/
def printByte (c : UInt8) : Print :=
  { buf := fun _ => c, len := 1, fg := TtyColors.white.code, bg := TtyColors.black.code }

/-- The variables of `printf`: `i`, the arguments that `ap` has not taken and the array `buf`; and
the calls of `kprint_c` so far. -/
structure Printf where
  i : Nat
  ap : List Nat
  buf : Buffer
  prints : List Print

namespace Printf

/-- `va_arg`, of a type of one word. -/
def vaArg (p : Printf) : Option (Nat × Printf) :=
  match p.ap with
  | [] => none
  | w :: ap => some (w, { p with ap := ap })

def print (x : Print) (p : Printf) : Printf := { p with prints := p.prints ++ [x] }

/-- `kprint(buf)` after a formatter has returned. -/
def printBuf (r : Except Stop Buffer) (p : Printf) : Option Printf := do
  let buf ← r.toOption
  let x ← (kprint 0 buf.bytes).toOption
  some ({ p with buf := buf }.print x)

end Printf

section Format

-- the bytes of the format, and memory
variable (format : List UInt8) (m : Mem)

/-- `while(format[i] == ' ') i++`. -/
def skipSpaces : Nat → Nat → Option Nat
  | 0, _ => none
  | fuel + 1, i => do
      let c ← format[i]?
      if c = 0x20 then skipSpaces fuel (i + 1) else some i

/-- The `switch` on `format[i]`. -/
def convert (p : Printf) : Option Printf := do
  let c ← format[p.i]?
  if c = 0x69 then do
    let (val, p) ← p.vaArg
    p.printBuf (itoa (int32 val) p.buf 10)
  else if c = 0x78 then do
    let (uval, p) ← p.vaArg
    p.printBuf (uitoa uval p.buf 16)
  else if c = 0x64 then do
    let (uval, p) ← p.vaArg
    p.printBuf (uitoa uval p.buf 10)
  else if c = 0x63 then do
    let (c, p) ← p.vaArg
    some (p.print (printByte (UInt8.ofNat c)))
  else if c = 0x73 then do
    let (s, p) ← p.vaArg
    let x ← (kprint s m).toOption
    some (p.print x)
  else some (p.print (printByte c))

def printfLoop : Nat → Printf → Option Printf
  | 0, _ => none
  | fuel + 1, p => do
      let len ← strlenOf format
      if p.i < len then do
        let c ← format[p.i]?
        if c = 0x25 then do
          let i ← skipSpaces format (format.length + 1) (p.i + 1)
          let p ← convert format m { p with i := i }
          printfLoop fuel { p with i := p.i + 1 }
        else
          let p := p.print (printByte c)
          printfLoop fuel { p with i := p.i + 1 }
      else some p

/-- `printf`. `none`: it reads behind the bytes of the format, or takes an argument that it has not
been given, or prints a string that does not end. Each round goes on by at least one byte. -/
def printf (ap : List Nat) (buf : Buffer) : Option Printf :=
  printfLoop format m (format.length + 1) { i := 0, ap := ap, buf := buf, prints := [] }

end Format

def printfColor (format : Nat) (fg bg : Nat) (m : Mem) : Except Stop Print := do
  let len ← strlen format m
  .ok { buf := fun i => m (add32 format i), len := len, fg := fg, bg := bg }

end Vulcanos
