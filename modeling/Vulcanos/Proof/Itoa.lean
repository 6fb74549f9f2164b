import Vulcanos.Kernel.Itoa
import Vulcanos.Kernel.LibcString
import Vulcanos.Library.Numeral

/-!
# What the number formatters store

The digits are stored lowest first, as many as the numeral has, and turned round in place. Only the
first place and the number of digits decide where the NUL is stored.
-/

namespace Vulcanos

open Memory Numeral

namespace Buffer

def storeAll : Nat → List UInt8 → Buffer → Buffer
  | _, [], b => b
  | i, c :: cs, b => storeAll (i + 1) cs (b.store i c)

/-- From one array to the other, no place behind `n` has been stored to. -/
def StoresUpTo (n : Nat) (b b' : Buffer) : Prop := ∀ k ∈ b'.stored, k ≤ n ∨ k ∈ b.stored

section Stores

variable {b b' b'' : Buffer} {i n n' s e : Nat}

theorem bytes_store (i : Nat) (c : UInt8) (b : Buffer) :
    (b.store i c).bytes = Function.update b.bytes i c := rfl

theorem bytes_storeAll (i : Nat) (cs : List UInt8) (b : Buffer) :
    (b.storeAll i cs).bytes = writeBytes i cs b.bytes := by
  induction cs generalizing i b with
  | nil =>
      funext x
      exact (if_neg (by rw [List.length_nil]; omega)).symm
  | cons c cs ih =>
      calc (b.storeAll i (c :: cs)).bytes = writeBytes (i + 1) cs (b.store i c).bytes := ih _ _
        _ = writeBytes (i + [c].length) cs (writeBytes i [c] b.bytes) := by
          rw [writeBytes_singleton]
          rfl
        _ = writeBytes i (c :: cs) b.bytes := (writeBytes_append i [c] cs b.bytes).symm

theorem bytes_swap (s e : Nat) (b : Buffer) (k : Nat) :
    (b.swap s e).bytes k = if k = e then b.bytes s else if k = s then b.bytes e else b.bytes k := by
  unfold swap
  rw [bytes_store, bytes_store, Function.update_apply, Function.update_apply]

theorem StoresUpTo.refl (n : Nat) (b : Buffer) : StoresUpTo n b b := fun _ => Or.inr

theorem StoresUpTo.trans (h : StoresUpTo n b b') (h' : StoresUpTo n b' b'') :
    StoresUpTo n b b'' := fun k hk => (h' k hk).elim Or.inl (h k)

theorem StoresUpTo.mono (h : StoresUpTo n b b') (hle : n ≤ n') : StoresUpTo n' b b' :=
  fun k hk => (h k hk).imp_left fun hin => Nat.le_trans hin hle

theorem storesUpTo_store (hi : i ≤ n) (c : UInt8) (b : Buffer) : StoresUpTo n b (b.store i c) := by
  intro k hk
  rcases List.mem_cons.mp hk with rfl | hin
  · exact Or.inl hi
  · exact Or.inr hin

theorem storesUpTo_storeAll {cs : List UInt8} (hend : i + cs.length ≤ n) (b : Buffer) :
    StoresUpTo n b (b.storeAll i cs) := by
  induction cs generalizing i b with
  | nil => exact StoresUpTo.refl n b
  | cons c cs ih =>
      rw [List.length_cons] at hend
      apply (storesUpTo_store (show i ≤ n by omega) c b).trans
      exact ih (by omega) (b.store i c)

theorem storesUpTo_swap (hs : s ≤ n) (he : e ≤ n) (b : Buffer) : StoresUpTo n b (b.swap s e) :=
  (storesUpTo_store hs _ b).trans (storesUpTo_store he _ _)

end Stores

end Buffer

section Loops

variable {radix x fuel i s e k : Nat} {b : Buffer}

theorem digitsLoop_eq (hradix : 1 < radix) (hfuel : (lowFirst radix x).length ≤ fuel) (i : Nat)
    (b : Buffer) :
    digitsLoop radix fuel x i b =
      .ok (i + (lowFirst radix x).length,
        b.storeAll i ((lowFirst radix x).map digitByte)) := by
  induction fuel generalizing x i b with
  | zero => exact absurd (length_lowFirst_pos radix x) (by omega)
  | succ fuel ih =>
      rw [digitsLoop]
      have heq := lowFirst_eq hradix x
      split
      · rename_i hrest
        rw [if_pos hrest] at heq
        rw [heq, List.length_cons] at hfuel
        rw [ih (by omega), heq, List.length_cons, List.map_cons, Buffer.storeAll, Nat.add_assoc,
          Nat.add_comm 1]
      · rename_i hrest
        rw [if_neg hrest] at heq
        rw [heq]
        rfl

/-- **The loop of `uitoa` turns the bytes from `s` to `e` round.** -/
theorem bytes_swapLoop (e s : Nat) (b : Buffer) (k : Nat) :
    (swapLoop e s b).bytes k = if s ≤ k ∧ k ≤ e then b.bytes (s + e - k) else b.bytes k := by
  induction e generalizing s b with
  | zero =>
      rw [swapLoop]
      split
      · exact congrArg b.bytes (by omega)
      · rfl
  | succ e ih =>
      rw [swapLoop]
      by_cases hlt : s < e + 1
      · rw [if_pos hlt, ih]
        by_cases hk : s + 1 ≤ k ∧ k ≤ e
        · rw [if_pos hk, if_pos (by omega), Buffer.bytes_swap, if_neg (by omega),
            if_neg (by omega)]
          exact congrArg b.bytes (by omega)
        · rw [if_neg hk, Buffer.bytes_swap]
          by_cases hlast : k = e + 1
          · rw [if_pos hlast, if_pos (by omega)]
            exact congrArg b.bytes (by omega)
          · rw [if_neg hlast]
            by_cases hfirst : k = s
            · rw [if_pos hfirst, if_pos (by omega)]
              exact congrArg b.bytes (by omega)
            · rw [if_neg hfirst, if_neg (by omega)]
      · rw [if_neg hlt]
        split
        · exact congrArg b.bytes (by omega)
        · rfl

theorem storesUpTo_swapLoop (e s : Nat) (b : Buffer) : b.StoresUpTo e (swapLoop e s b) := by
  induction e generalizing s b with
  | zero => exact Buffer.StoresUpTo.refl 0 b
  | succ e ih =>
      rw [swapLoop]
      split
      · apply (Buffer.storesUpTo_swap (show s ≤ e + 1 by omega) (Nat.le_refl _) b).trans
        exact (ih (s + 1) (b.swap s (e + 1))).mono (Nat.le_succ e)
      · exact Buffer.StoresUpTo.refl _ b

/-- **The loop of `itoa`** has a round for every place behind `s`, and counts them in `i`. -/
theorem swapLoopItoa_fst (s e i : Nat) (b : Buffer) : (swapLoopItoa s e i b).1 = i + (e - s) := by
  induction e generalizing i b with
  | zero => exact (congrArg (i + ·) (Nat.zero_sub s)).symm
  | succ e ih =>
      rw [swapLoopItoa]
      split
      · rw [ih]
        omega
      · exact (congrArg (i + ·) (Nat.sub_eq_zero_of_le (by omega))).symm

theorem bytes_swapLoopItoa (hk : k < s) :
    (swapLoopItoa s e i b).2.bytes k = b.bytes k := by
  induction e generalizing i b with
  | zero => rfl
  | succ e ih =>
      rw [swapLoopItoa]
      split
      · rw [ih, Buffer.bytes_swap, if_neg (by omega), if_neg (by omega)]
      · rfl

theorem storesUpTo_swapLoopItoa (s e i : Nat) (b : Buffer) :
    b.StoresUpTo e (swapLoopItoa s e i b).2 := by
  induction e generalizing i b with
  | zero => exact Buffer.StoresUpTo.refl 0 b
  | succ e ih =>
      rw [swapLoopItoa]
      split
      · apply (Buffer.storesUpTo_swap (show s ≤ e + 1 by omega) (Nat.le_refl _) b).trans
        exact (ih (i + 1) (b.swap s (e + 1))).mono (Nat.le_succ e)
      · exact Buffer.StoresUpTo.refl _ b

end Loops

/-! ### `uitoa` -/

/-- What a hexadecimal number begins with. -/
def uitoaPrefix (radix : Nat) : List UInt8 := if radix = 16 then bytesOf "0x" else []

def uitoaText (val radix : Nat) : List UInt8 :=
  uitoaPrefix radix ++ (numeral radix val).map digitByte

section Uitoa

variable {val radix : Nat} {b b' : Buffer} {k : Nat}

theorem length_lowFirst_word (hradix : 1 < radix) (hval : val < 4294967296) :
    (lowFirst radix val).length ≤ 32 := by
  refine (length_lowFirst_le_iff hradix (by decide)).mpr (lt_of_lt_of_le hval ?_)
  calc (4294967296 : Nat) = 2 ^ 32 := rfl
    _ ≤ radix ^ 32 := Nat.pow_le_pow_left hradix 32

theorem digitByte_ne_zero {d : Nat} (hd : d < 36) : digitByte d ≠ 0 := by
  have hall : ∀ d < 36, digitByte d ≠ 0 := by decide
  exact hall d hd

theorem zero_notMem_uitoaText (hlo : 1 < radix) (hhi : radix ≤ 36) (val : Nat) :
    0 ∉ uitoaText val radix := by
  intro hzero
  rcases List.mem_append.mp hzero with hpre | hdigit
  · unfold uitoaPrefix at hpre
    split at hpre
    · exact absurd hpre (by decide)
    · exact List.not_mem_nil hpre
  · obtain ⟨d, hd, hbyte⟩ := List.mem_map.mp hdigit
    have hlt := (isNumeral_numeral hlo val).digit_lt d hd
    exact digitByte_ne_zero (by omega) hbyte

/-- What a formatter has done to an array: it holds the text and its NUL, which is the last place
that has been stored to. -/
structure Formatted (text : List UInt8) (b b' : Buffer) : Prop where
  bytes : b'.bytes = writeBytes 0 (text ++ [0]) b.bytes
  nul_stored : text.length ∈ b'.stored
  within : b.StoresUpTo text.length b'

theorem length_uitoaText (val radix : Nat) :
    (uitoaText val radix).length = (uitoaPrefix radix).length + (lowFirst radix val).length := by
  rw [uitoaText, List.length_append, List.length_map, length_numeral]

/-- The digits behind the prefix, as the first loop leaves them. -/
def digitsStored (val radix : Nat) (b : Buffer) : Buffer :=
  (b.storeAll 0 (uitoaPrefix radix)).storeAll (uitoaPrefix radix).length
    ((lowFirst radix val).map digitByte)

theorem bytes_digitsStored (val radix : Nat) (b : Buffer) :
    (digitsStored val radix b).bytes =
      writeBytes (uitoaPrefix radix).length ((lowFirst radix val).map digitByte)
        (writeBytes 0 (uitoaPrefix radix) b.bytes) := by
  rw [digitsStored, Buffer.bytes_storeAll, Buffer.bytes_storeAll]

theorem storesUpTo_digitsStored (val radix : Nat) (b : Buffer) :
    b.StoresUpTo (uitoaText val radix).length (digitsStored val radix b) := by
  have hlength := length_uitoaText val radix
  apply (Buffer.storesUpTo_storeAll (show 0 + (uitoaPrefix radix).length ≤ _ by omega) b).trans
  apply Buffer.storesUpTo_storeAll
  rw [List.length_map, hlength]

theorem writeBytes_uitoaText (val radix : Nat) (m : Mem) :
    writeBytes 0 (uitoaText val radix) m =
      writeBytes (uitoaPrefix radix).length ((lowFirst radix val).map digitByte).reverse
        (writeBytes 0 (uitoaPrefix radix) m) := by
  rw [uitoaText, writeBytes_append, numeral, List.map_reverse, Nat.zero_add]

theorem uitoa_eq (hradix : 1 < radix) (hval : val < 4294967296) (b : Buffer) :
    uitoa val b radix =
      .ok ((swapLoop ((uitoaText val radix).length - 1) (uitoaPrefix radix).length
        (digitsStored val radix b)).store (uitoaText val radix).length 0) := by
  have hstart : (if radix = 16 then (2, (b.store 0 0x30).store 1 0x78) else (0, b)) =
      ((uitoaPrefix radix).length, b.storeAll 0 (uitoaPrefix radix)) := by
    unfold uitoaPrefix
    split
    · rfl
    · rfl
  unfold uitoa
  rw [hstart, length_uitoaText]
  dsimp only
  rw [digitsLoop_eq hradix (length_lowFirst_word hradix hval), ok_bind]
  rfl

/-- **`uitoa`.** -/
theorem uitoa_formatted (hradix : 1 < radix) (hval : val < 4294967296) (b : Buffer) :
    ∃ b', uitoa val b radix = .ok b' ∧ Formatted (uitoaText val radix) b b' := by
  have hlength := length_uitoaText val radix
  have hpos := length_lowFirst_pos radix val
  refine ⟨_, uitoa_eq hradix hval b, ?_, ?_, ?_⟩
  · rw [Buffer.bytes_store, ← writeBytes_singleton, writeBytes_append, Nat.zero_add]
    refine congrArg (writeBytes _ [0]) (funext fun k => ?_)
    rw [bytes_swapLoop, writeBytes_uitoaText, writeBytes_reverse, List.length_map,
      bytes_digitsStored]
    exact if_congr (by omega) (congrArg _ (by omega)) rfl
  · exact List.mem_cons_self
  · apply Buffer.StoresUpTo.trans _ (Buffer.storesUpTo_store (Nat.le_refl _) 0 _)
    apply Buffer.StoresUpTo.trans _ ((storesUpTo_swapLoop _ _ _).mono (Nat.sub_le _ 1))
    exact storesUpTo_digitsStored val radix b

theorem Formatted.stringAt {text : List UInt8} (h : Formatted text b b') (hnul : 0 ∉ text) :
    StringAt b'.bytes 0 text := by
  rw [h.bytes]
  exact stringAt_writeBytes hnul

theorem Formatted.behind {text : List UInt8} (h : Formatted text b b') (hk : text.length < k) :
    b'.bytes k = b.bytes k := by
  rw [h.bytes, writeBytes, List.length_append, List.length_singleton]
  exact if_neg (by omega)

end Uitoa

/-! ### `itoa` with radix 10 -/

/-- What `itoa` begins a decimal number with. -/
def itoaPrefix (val : Int) : List UInt8 := (if val < 0 then [0x2D] else []) ++ [0x30, 0x78]

/-- The number whose digits `itoa` stores. -/
def itoaBits (val : Int) : Nat := (val % 4294967296).toNat

/-- How many they are. -/
def itoaDigits (val : Int) : Nat := (lowFirst 10 (itoaBits val)).length

/-- The place of the NUL: the second loop has moved it on by its rounds. -/
def itoaEnd (val : Int) : Nat := (itoaPrefix val).length + 2 * itoaDigits val - 1

section Itoa

variable {val : Int} {b : Buffer} {k : Nat}

theorem itoaBits_lt (val : Int) : itoaBits val < 4294967296 := by
  unfold itoaBits
  omega

theorem itoaDigits_pos (val : Int) : 0 < itoaDigits val := length_lowFirst_pos _ _

theorem itoa_eq (val : Int) (b : Buffer) :
    itoa val b 10 =
      .ok ((swapLoopItoa (itoaPrefix val).length ((itoaPrefix val).length + itoaDigits val - 1)
        ((itoaPrefix val).length + itoaDigits val)
        ((b.storeAll 0 (itoaPrefix val)).storeAll (itoaPrefix val).length
          ((lowFirst 10 (itoaBits val)).map digitByte))).2.store (itoaEnd val) 0) := by
  have hradix : 1 < 10 := by decide
  have hloop := digitsLoop_eq hradix (length_lowFirst_word hradix (itoaBits_lt val))
    (itoaPrefix val).length (b.storeAll 0 (itoaPrefix val))
  have hend : (itoaPrefix val).length + itoaDigits val +
      ((itoaPrefix val).length + itoaDigits val - 1 - (itoaPrefix val).length) = itoaEnd val := by
    have hpos := itoaDigits_pos val
    unfold itoaEnd
    omega
  unfold itoa
  by_cases hneg : val < 0
  · have hpre : itoaPrefix val = [0x2D, 0x30, 0x78] := by
      rw [itoaPrefix, if_pos hneg]
      rfl
    rw [if_pos ⟨hneg, rfl⟩]
    dsimp only
    rw [if_pos rfl]
    dsimp only
    rw [hpre] at hloop hend ⊢
    rw [← hend, ← swapLoopItoa_fst]
    exact congrArg (· >>= _) hloop
  · have hpre : itoaPrefix val = [0x30, 0x78] := by
      rw [itoaPrefix, if_neg hneg]
      rfl
    rw [if_neg fun h => hneg h.1]
    dsimp only
    rw [if_pos rfl]
    dsimp only
    rw [hpre] at hloop hend ⊢
    rw [← hend, ← swapLoopItoa_fst]
    exact congrArg (· >>= _) hloop

/-- **`itoa` with radix 10.** The prefix stands before the digits, and the NUL is the last place
that has been stored to. -/
theorem itoa_stores (val : Int) (b : Buffer) :
    ∃ b', itoa val b 10 = .ok b' ∧
      (∀ k, k < (itoaPrefix val).length → b'.bytes k = (itoaPrefix val).getD k 0) ∧
      itoaEnd val ∈ b'.stored ∧ b.StoresUpTo (itoaEnd val) b' := by
  have hpos := itoaDigits_pos val
  have hend : (itoaPrefix val).length + itoaDigits val ≤ itoaEnd val := by
    unfold itoaEnd
    omega
  refine ⟨_, itoa_eq val b, fun k hk => ?_, List.mem_cons_self, ?_⟩
  · rw [Buffer.bytes_store, Function.update_of_ne (by omega), bytes_swapLoopItoa hk,
      Buffer.bytes_storeAll, Buffer.bytes_storeAll, writeBytes, if_neg (by omega), writeBytes,
      if_pos (by omega), Nat.sub_zero]
  · apply Buffer.StoresUpTo.trans _ (Buffer.storesUpTo_store (Nat.le_refl _) 0 _)
    apply Buffer.StoresUpTo.trans _ ((storesUpTo_swapLoopItoa _ _ _ _).mono (by omega))
    apply (Buffer.storesUpTo_storeAll (show 0 + (itoaPrefix val).length ≤ _ by omega) b).trans
    apply Buffer.storesUpTo_storeAll
    rwa [List.length_map]

end Itoa

end Vulcanos
