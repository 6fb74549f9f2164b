import Mathlib.Tactic.Ring
import Mathlib.Data.List.Basic

/-!
# Byte memory

A memory is a function from addresses to bytes. Words are stored little-endian over four bytes, so
two accesses commute exactly when their byte ranges are apart, and every frame fact below is stated
as such a separation of ranges.
-/

namespace Vulcanos.Memory

/-- The contents of an address space. -/
abbrev Mem := Nat → UInt8

/-- The byte at an address. -/
def read8 (m : Mem) (a : Nat) : Nat := (m a).toNat

/-- The little-endian word at an address. -/
def read32 (m : Mem) (a : Nat) : Nat :=
  (m a).toNat + 256 * (m (a + 1)).toNat + 65536 * (m (a + 2)).toNat
    + 16777216 * (m (a + 3)).toNat

/-- Store the low byte of `v`. -/
def write8 (m : Mem) (a v : Nat) : Mem :=
  fun x => if x = a then UInt8.ofNat v else m x

/-- Store the low four bytes of `v`, little-endian. -/
def write32 (m : Mem) (a v : Nat) : Mem :=
  fun x => if a ≤ x ∧ x < a + 4 then UInt8.ofNat (v / 256 ^ (x - a)) else m x

section Accesses

variable {m : Mem} {a b v : Nat}

theorem read32_lt (m : Mem) (a : Nat) : read32 m a < 4294967296 := by
  have h0 := (m a).toNat_lt
  have h1 := (m (a + 1)).toNat_lt
  have h2 := (m (a + 2)).toNat_lt
  have h3 := (m (a + 3)).toNat_lt
  unfold read32
  omega

theorem write32_apply_of_lt (h : b < a) : write32 m a v b = m b := by
  unfold write32
  rw [if_neg (by omega)]

theorem write32_apply_of_ge (h : a + 4 ≤ b) : write32 m a v b = m b := by
  unfold write32
  rw [if_neg (by omega)]

theorem write8_apply_of_ne (h : b ≠ a) : write8 m a v b = m b := if_neg h

@[simp]
theorem read32_write32_self (m : Mem) (a : Nat) (h : v < 4294967296) :
    read32 (write32 m a v) a = v := by
  have h1 : a + 1 - a = 1 := by omega
  have h2 : a + 2 - a = 2 := by omega
  have h3 : a + 3 - a = 3 := by omega
  simp only [read32, write32, le_refl, Nat.sub_self, pow_zero, Nat.div_one,
    h1, h2, h3]
  rw [if_pos ⟨trivial, by omega⟩, if_pos (by omega), if_pos (by omega), if_pos (by omega)]
  simp only [UInt8.toNat_ofNat']
  norm_num
  omega

theorem read32_write32_of_apart (h : b + 4 ≤ a ∨ a + 4 ≤ b) :
    read32 (write32 m a v) b = read32 m b := by
  unfold read32 write32
  rw [if_neg (by omega), if_neg (by omega), if_neg (by omega), if_neg (by omega)]

theorem read8_write32_of_apart (h : b < a ∨ a + 4 ≤ b) :
    read8 (write32 m a v) b = read8 m b := by
  unfold read8 write32
  rw [if_neg (by omega)]

theorem read32_write8_of_apart (h : b + 4 ≤ a ∨ a < b) :
    read32 (write8 m a v) b = read32 m b := by
  unfold read32 write8
  rw [if_neg (by omega), if_neg (by omega), if_neg (by omega), if_neg (by omega)]

theorem read8_write8_self (m : Mem) (a v : Nat) : read8 (write8 m a v) a = v % 256 := by
  simp [read8, write8]

/-! ### The bytes of a word -/

theorem write32_byte (m : Mem) {x : Nat} (hlo : a ≤ x) (hhi : x < a + 4) :
    (write32 m a v x).toNat = v / 256 ^ (x - a) % 256 := by
  unfold write32
  rw [if_pos ⟨hlo, hhi⟩, UInt8.toNat_ofNat']

theorem read32_top_le (m : Mem) (x : Nat) : 16777216 * (m (x + 3)).toNat ≤ read32 m x := by
  unfold read32
  omega

theorem bytes_of_read32 {x : Nat} (h : read32 m x = v) (hv : v < 256) :
    (m x).toNat = v ∧ (m (x + 1)).toNat = 0 ∧ (m (x + 2)).toNat = 0 ∧ (m (x + 3)).toNat = 0 := by
  unfold read32 at h
  omega

end Accesses

/-! ### Frames

`SameOutside lo hi` says which bytes an operation may have touched, `SameOn lo hi` which it has
certainly left alone. Separation of two ranges turns the first into the second.
-/

/-- The two memories agree at every address outside `[lo, hi)`. -/
def SameOutside (lo hi : Nat) (m m' : Mem) : Prop := ∀ x, x < lo ∨ hi ≤ x → m' x = m x

/-- The two memories agree at every address in `[lo, hi)`. -/
def SameOn (lo hi : Nat) (m m' : Mem) : Prop := ∀ x, lo ≤ x → x < hi → m' x = m x

section Frames

variable {m m' m'' : Mem} {lo hi lo' hi' a v : Nat}

theorem SameOutside.refl (lo hi : Nat) (m : Mem) : SameOutside lo hi m m := fun _ _ => rfl

theorem SameOutside.trans (h : SameOutside lo hi m m') (h' : SameOutside lo hi m' m'') :
    SameOutside lo hi m m'' := fun x hx => (h' x hx).trans (h x hx)

theorem SameOutside.mono (h : SameOutside lo hi m m') (hlo : lo' ≤ lo) (hhi : hi ≤ hi') :
    SameOutside lo' hi' m m' := fun x hx => h x (by omega)

theorem SameOutside.sameOn (h : SameOutside lo hi m m') (hapart : hi' ≤ lo ∨ hi ≤ lo') :
    SameOn lo' hi' m m' := fun x hlo hhi => h x (by omega)

theorem SameOutside.write32 (hlo : lo ≤ a) (hhi : a + 4 ≤ hi) (h : SameOutside lo hi m m') :
    SameOutside lo hi m (write32 m' a v) := by
  intro x hx
  rw [← h x hx]
  rcases Nat.lt_or_ge x a with hlt | hge
  · exact write32_apply_of_lt hlt
  · exact write32_apply_of_ge (by omega)

theorem SameOutside.write8 (hlo : lo ≤ a) (hhi : a < hi) (h : SameOutside lo hi m m') :
    SameOutside lo hi m (write8 m' a v) := by
  intro x hx
  rw [← h x hx]
  exact write8_apply_of_ne (by omega)

theorem SameOn.mono (h : SameOn lo hi m m') (hlo : lo ≤ lo') (hhi : hi' ≤ hi) :
    SameOn lo' hi' m m' := fun x hx hx' => h x (by omega) (by omega)

theorem SameOn.trans (h : SameOn lo hi m m') (h' : SameOn lo hi m' m'') : SameOn lo hi m m'' :=
  fun x hlo hhi => (h' x hlo hhi).trans (h x hlo hhi)

theorem SameOn.read32 (h : SameOn lo hi m m') (hlo : lo ≤ a) (hhi : a + 4 ≤ hi) :
    read32 m' a = read32 m a := by
  unfold Memory.read32
  rw [h a (by omega) (by omega), h (a + 1) (by omega) (by omega), h (a + 2) (by omega) (by omega),
    h (a + 3) (by omega) (by omega)]

theorem SameOn.read8 (h : SameOn lo hi m m') (hlo : lo ≤ a) (hhi : a < hi) :
    read8 m' a = read8 m a := by
  unfold Memory.read8
  rw [h a hlo hhi]

end Frames

end Vulcanos.Memory
