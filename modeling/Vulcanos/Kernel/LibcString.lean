import Vulcanos.Kernel.Panic
import Vulcanos.Library.CString
import Vulcanos.Library.Word

/-!
# `string.c`

The byte loops the kernel fills and moves memory with.
-/

namespace Vulcanos

open Memory Word

/-- The loop of `memset`, `n` bytes from `i` on. -/
def memsetLoop (s c : Nat) : Nat → Nat → Mem → Mem
  | 0, _, m => m
  | n + 1, i, m => memsetLoop s c n (i + 1) (write8 m (s + i) c)

/-- `memset`, as the memory its loop leaves. -/
def memset (s c n : Nat) (m : Mem) : Mem :=
  fun x => if s ≤ x ∧ x < s + n then UInt8.ofNat c else m x

theorem memsetLoop_apply (s c n i : Nat) (m : Mem) (x : Nat) :
    memsetLoop s c n i m x = if s + i ≤ x ∧ x < s + i + n then UInt8.ofNat c else m x := by
  induction n generalizing i m with
  | zero => rw [memsetLoop, if_neg (by omega)]
  | succ n ih =>
      rw [memsetLoop, ih]
      by_cases hx : x = s + i
      · rw [if_neg (by omega), if_pos (by omega), write8, if_pos hx]
      · rw [write8_apply_of_ne hx]
        exact if_congr (by omega) rfl rfl

theorem memset_eq_loop (s c n : Nat) (m : Mem) : memset s c n m = memsetLoop s c n 0 m := by
  funext x
  rw [memsetLoop_apply, memset, Nat.add_zero]

/-- `strcmp`, on the bytes from the two pointers on. `none`: it reads behind the bytes it is given.
-/
def strcmp : List UInt8 → List UInt8 → Option Int
  | a :: s1, b :: s2 =>
      if a ≠ 0 ∧ a = b then strcmp s1 s2 else some ((a.toNat : Int) - (b.toNat : Int))
  | _, _ => none

/-- The bytes of a text of the source. -/
def bytesOf (s : String) : List UInt8 := s.toList.map fun c => UInt8.ofNat c.toNat

/-- A string literal, with its NUL. -/
def literal (s : String) : List UInt8 := bytesOf s ++ [0]

/-- The string that begins with these bytes: up to the first NUL. -/
def cString (bytes : List UInt8) : List UInt8 := bytes.takeWhile (· ≠ 0)

/-- The loop of `memmove`, `n` bytes from `i` on, always upwards. -/
def memmoveLoop (dst src : Nat) : Nat → Nat → Mem → Mem
  | 0, _, m => m
  | n + 1, i, m => memmoveLoop dst src n (i + 1) (write8 m (dst + i) (read8 m (src + i)))

def memmove (dst src len : Nat) (m : Mem) : Mem := memmoveLoop dst src len 0 m

theorem memmoveLoop_apply {dst src : Nat} (hdown : dst ≤ src) (n i : Nat) (m : Mem) (x : Nat) :
    memmoveLoop dst src n i m x =
      if dst + i ≤ x ∧ x < dst + i + n then m (src + (x - dst)) else m x := by
  induction n generalizing i m with
  | zero => rw [memmoveLoop, if_neg (by omega)]
  | succ n ih =>
      rw [memmoveLoop, ih]
      by_cases hx : x = dst + i
      · rw [if_neg (by omega), if_pos (by omega), write8, if_pos hx, read8, UInt8.ofNat_toNat]
        exact congrArg m (by omega)
      · rw [write8_apply_of_ne hx]
        by_cases hin : dst + (i + 1) ≤ x ∧ x < dst + (i + 1) + n
        · rw [if_pos hin, if_pos (by omega), write8_apply_of_ne (by omega)]
        · rw [if_neg hin, if_neg (by omega)]

theorem memmove_apply {dst src : Nat} (hdown : dst ≤ src) (len : Nat) (m : Mem) (x : Nat) :
    memmove dst src len m x = if dst ≤ x ∧ x < dst + len then m (src + (x - dst)) else m x :=
  memmoveLoop_apply hdown len 0 m x

/-! ### Strings in memory

The loops that run to a NUL get as many rounds as there are addresses. A loop that has not ended by
then has come round to where it began, and never does.
-/

def addressSpace : Nat := 4294967296

/-- The loop of `memcpy`, `n` bytes from `i` on, always upwards. -/
def memcpyLoop (dst src : Nat) : Nat → Nat → Mem → Mem
  | 0, _, m => m
  | n + 1, i, m => memcpyLoop dst src n (i + 1) (write8 m (add32 dst i) (read8 m (add32 src i)))

def memcpy (dst src n : Nat) (m : Mem) : Mem := memcpyLoop dst src n 0 m

def strlenLoop (buf : Nat) (m : Mem) : Nat → Nat → Except Stop Nat
  | 0, _ => .error .outOfFuel
  | fuel + 1, i => if read8 m (add32 buf i) ≠ 0 then strlenLoop buf m fuel (i + 1) else .ok i

def strlen (buf : Nat) (m : Mem) : Except Stop Nat := strlenLoop buf m addressSpace 0

/-- The loop of `strcpy`, from the `i`-th byte on. -/
def strcpyLoop (dst src : Nat) : Nat → Nat → Mem → Except Stop (Nat × Mem)
  | 0, _, _ => .error .outOfFuel
  | fuel + 1, i, m =>
      let c := read8 m (add32 src i)
      let m := write8 m (add32 dst i) c
      if c ≠ 0 then strcpyLoop dst src fuel (i + 1) m else .ok (i + 1, m)

/-- `strcpy`, with the number of bytes it has copied, which the C function does not return. -/
def strcpy (dst src : Nat) (m : Mem) : Except Stop (Nat × Mem) :=
  strcpyLoop dst src addressSpace 0 m

/-- `strcat`. The length of the source is computed again behind the copy. -/
def strcat (dest src : Nat) (m : Mem) : Except Stop Mem := do
  let len ← strlen dest m
  let e := add32 dest len
  let n ← strlen src m
  let m := memcpy e src n m
  let n ← strlen src m
  .ok (write8 m (add32 e n) 0)

/-- The loop of `strupper` and `strlower`, from the `i`-th byte on. The length is computed again in
each round. -/
def caseLoop (letter last : Nat) (change : Nat → Nat) (str : Nat) :
    Nat → Nat → Mem → Except Stop Mem
  | 0, _, _ => .error .outOfFuel
  | fuel + 1, i, m => do
      let len ← strlen str m
      if i < len then
        let c := read8 m (add32 str i)
        let m := if c = letter ∧ c < last then write8 m (add32 str i) (change c) else m
        caseLoop letter last change str fuel (i + 1) m
      else .ok m

def strupper (str : Nat) (m : Mem) : Except Stop Mem :=
  caseLoop 'a'.toNat 'z'.toNat (· &&& 0x4F) str addressSpace 0 m

def strlower (str : Nat) (m : Mem) : Except Stop Mem :=
  caseLoop 'A'.toNat 'Z'.toNat (· ||| 0x60) str addressSpace 0 m

/-- The loop of `strcmp` on two strings in memory. -/
def strcmpLoop (s1 s2 : Nat) (m : Mem) : Nat → Nat → Except Stop Int
  | 0, _ => .error .outOfFuel
  | fuel + 1, i =>
      let a := read8 m (add32 s1 i)
      let b := read8 m (add32 s2 i)
      if a ≠ 0 ∧ a = b then strcmpLoop s1 s2 m fuel (i + 1) else .ok ((a : Int) - (b : Int))

/-- `strcmp` on two strings in memory. -/
def strcmpAt (s1 s2 : Nat) (m : Mem) : Except Stop Int := strcmpLoop s1 s2 m addressSpace 0

end Vulcanos
