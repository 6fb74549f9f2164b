import Mathlib.Logic.Function.Basic
import Vulcanos.Kernel.Panic

/-!
# `itoa` and `uitoa`

The two number formatters of `string.c`. They store into an array of their caller, whose length they
do not know. `stored` is no variable of the source: it lists the places that were stored to, latest
first.
-/

namespace Vulcanos

/-- An array of bytes, from its start on. -/
structure Buffer where
  bytes : Nat → UInt8
  stored : List Nat

namespace Buffer

def store (i : Nat) (c : UInt8) (b : Buffer) : Buffer :=
  { bytes := Function.update b.bytes i c, stored := i :: b.stored }

/-- `t = *s; *s = *e; *e = t`. -/
def swap (s e : Nat) (b : Buffer) : Buffer :=
  let t := b.bytes s
  (b.store s (b.bytes e)).store e t

end Buffer

/-- `a + '0'` or `a + 'a' - 10`. -/
def digitByte (a : Nat) : UInt8 :=
  if a < 10 then UInt8.ofNat (a + 0x30) else UInt8.ofNat (a + 0x61 - 10)

/-- The loop that stores the digits of `x`, lowest first, from place `i` on. It leaves `i`. -/
def digitsLoop (radix : Nat) : Nat → Nat → Nat → Buffer → Except Stop (Nat × Buffer)
  | 0, _, _, _ => .error .outOfFuel
  | fuel + 1, x, i, b =>
      let b := b.store i (digitByte (x % radix))
      let x := x / radix
      if x ≠ 0 then digitsLoop radix fuel x (i + 1) b else .ok (i + 1, b)

/-- The loop of `uitoa` that swaps the bytes from both ends; `e` and `s` are places. -/
def swapLoop : Nat → Nat → Buffer → Buffer
  | 0, _, b => b
  | e + 1, s, b => if s < e + 1 then swapLoop e (s + 1) (b.swap s (e + 1)) else b

/-- The same loop of `itoa`, where `i` goes up instead of `s`. It leaves `i`. -/
def swapLoopItoa (s : Nat) : Nat → Nat → Buffer → Nat × Buffer
  | 0, i, b => (i, b)
  | e + 1, i, b => if s < e + 1 then swapLoopItoa s e (i + 1) (b.swap s (e + 1)) else (i, b)

/-- `uitoa`. A loop that divides by two or more has at most 32 rounds. -/
def uitoa (val : Nat) (buf : Buffer) (radix : Nat) : Except Stop Buffer := do
  let (start, buf) := if radix = 16 then (2, (buf.store 0 0x30).store 1 0x78) else (0, buf)
  let (i, buf) ← digitsLoop radix 32 val start buf
  let buf := swapLoop (i - 1) start buf
  .ok (buf.store i 0)

/-- `itoa`, for a radix that is positive as an `int`. The division is one of `uint32_t`, so it is
the pattern of `val` whose digits are stored. -/
def itoa (val : Int) (buf : Buffer) (radix : Nat) : Except Stop Buffer := do
  let (start, buf) := if val < 0 ∧ radix = 10 then (1, buf.store 0 0x2D) else (0, buf)
  let (start, buf) :=
    if radix = 10 then (start + 2, (buf.store start 0x30).store (start + 1) 0x78) else (start, buf)
  let (i, buf) ← digitsLoop radix 32 (val % 4294967296).toNat start buf
  let (i, buf) := swapLoopItoa start (i - 1) i buf
  .ok (buf.store i 0)

end Vulcanos
