import Vulcanos.Kernel.Shell
import Vulcanos.Proof.Itoa
import Vulcanos.Proof.LibcString

/-!
# The number formatters

`uitoa` writes the numeral of its argument. `itoa` puts the prefix of radix 16 before a decimal
number, divides a negative one as if it had no sign, and moves the end of the text where it should
move the start, so that it needs two bytes a digit.
-/

namespace Vulcanos

open Memory Numeral Word

/-! ### What `uitoa` writes -/

def digitTable : List UInt8 := bytesOf "0123456789abcdefghijklmnopqrstuvwxyz"

theorem digitByte_eq {d : Nat} (hd : d < 36) : digitByte d = digitTable.getD d 0 := by
  have hall : ∀ d < 36, digitByte d = digitTable.getD d 0 := by decide
  exact hall d hd

/-- An array holds `0x`, if the radix is 16, and a numeral of the number; nothing has been stored
behind its NUL, and no byte there has changed. -/
def HoldsNumeral (val radix : Nat) (b b' : Buffer) : Prop :=
  ∃ digits text, IsNumeral radix val digits ∧
    text = (if radix = 16 then bytesOf "0x" else []) ++ digits.map (digitTable.getD · 0) ∧
    StringAt b'.bytes 0 text ∧ (∀ k ∈ b'.stored, k ≤ text.length ∨ k ∈ b.stored) ∧
    ∀ k, text.length < k → b'.bytes k = b.bytes k

section Uitoa

variable {val radix : Nat}

/-- **`uitoa` writes the numeral of its argument**, in every radix. -/
theorem uitoa_holdsNumeral (hval : val < 4294967296) (hlo : 2 ≤ radix) (hhi : radix ≤ 36)
    (b : Buffer) : ∃ b', uitoa val b radix = .ok b' ∧ HoldsNumeral val radix b b' := by
  obtain ⟨b', hcall, hformatted⟩ := uitoa_formatted hlo hval b
  have hnumeral := isNumeral_numeral hlo val
  have htable : (numeral radix val).map (digitTable.getD · 0) =
      (numeral radix val).map digitByte := by
    refine List.map_congr_left fun d hd => (digitByte_eq ?_).symm
    exact Nat.lt_of_lt_of_le (hnumeral.digit_lt d hd) hhi
  refine ⟨b', hcall, numeral radix val, uitoaText val radix, hnumeral, ?_,
    hformatted.stringAt (zero_notMem_uitoaText hlo hhi val), hformatted.within,
    fun k hk => hformatted.behind hk⟩
  rw [htable]
  rfl

/-- The number 48879 in radix 16. -/
theorem uitoa_holdsNumeral_hex :
    ∃ b', uitoa 48879 ⟨fun _ => 0, []⟩ 16 = .ok b' ∧
      HoldsNumeral 48879 16 ⟨fun _ => 0, []⟩ b' :=
  uitoa_holdsNumeral (by decide) (by decide) (by decide) _

end Uitoa

/-! ### What `itoa` writes -/

/-- A number with its sign, in decimal. -/
def decimalText (val : Int) : List UInt8 :=
  (if val < 0 then [0x2D] else []) ++ (numeral 10 val.natAbs).map digitByte

/-- `itoa` writes that, a NUL and nothing behind it. -/
def WritesDecimal (val : Int) (b : Buffer) : Prop :=
  ∃ b', itoa val b 10 = .ok b' ∧ StringAt b'.bytes 0 (decimalText val) ∧
    ∀ k ∈ b'.stored, k ≤ (decimalText val).length ∨ k ∈ b.stored

theorem x_notMem_decimalText (val : Int) : 0x78 ∉ decimalText val := by
  intro hx
  rcases List.mem_append.mp hx with hsign | hdigit
  · split at hsign
    · exact absurd hsign (by decide)
    · exact List.not_mem_nil hsign
  · obtain ⟨d, hd, hbyte⟩ := List.mem_map.mp hdigit
    have hall : ∀ d < 10, digitByte d ≠ 0x78 := by decide
    exact hall d ((isNumeral_numeral (by decide) _).digit_lt d hd) hbyte

/-- **`itoa` never writes a decimal number**: there is an `x` before the digits. -/
theorem not_writesDecimal (val : Int) (b : Buffer) : ¬ WritesDecimal val b := by
  rintro ⟨b', hcall, htext, -⟩
  obtain ⟨b'', hcall', hpre, -⟩ := itoa_stores val b
  obtain rfl := Except.ok.inj (hcall'.symm.trans hcall)
  -- the place of the `x` is that of the first digit
  obtain ⟨k, hk, hbyte, hplace⟩ : ∃ k, k < (itoaPrefix val).length ∧
      (itoaPrefix val).getD k 0 = 0x78 ∧ k ≤ (decimalText val).length := by
    have hradix : 1 < 10 := by decide
    have hpos := List.length_pos_iff.mpr (isNumeral_numeral hradix val.natAbs).ne_nil
    unfold itoaPrefix decimalText
    rw [List.length_append, List.length_append, List.length_map]
    by_cases hneg : val < 0
    · rw [if_pos hneg]
      exact ⟨2, by decide, rfl, by rw [List.length_singleton]; omega⟩
    · rw [if_neg hneg]
      exact ⟨1, by decide, rfl, by rw [List.length_nil]; omega⟩
  have hx : b''.bytes (0 + k) = 0x78 := by rw [Nat.zero_add, hpre k hk, hbyte]
  rcases htext.byte hplace with hin | hnul
  · exact x_notMem_decimalText val (hx ▸ hin)
  · exact absurd (hx.symm.trans hnul) (by decide)

/-- The number 7. -/
theorem not_writesDecimal_seven :
    ∃ b', itoa 7 ⟨fun _ => 0, []⟩ 10 = .ok b' ∧ StringAt b'.bytes 0 (bytesOf "0x7") ∧
      ¬ WritesDecimal 7 ⟨fun _ => 0, []⟩ := by
  have hcall : ∃ b', itoa 7 ⟨fun _ => 0, []⟩ 10 = .ok b' ∧
      StringAt b'.bytes 0 (bytesOf "0x7") :=
    ⟨_, rfl, rfl, by decide, rfl, by decide, rfl, by decide, rfl⟩
  obtain ⟨b', hok, htext⟩ := hcall
  refine ⟨b', hok, htext, ?_⟩
  rintro ⟨b'', hok', htext', -⟩
  obtain rfl := Except.ok.inj (hok.symm.trans hok')
  exact absurd (htext.unique htext') (by decide)

/-! ### How much room they take -/

/-- A call has returned, and has stored to the first `n` places only. -/
def StaysWithin (n : Nat) (r : Except Stop Buffer) : Prop :=
  ∃ b, r = .ok b ∧ ∀ k ∈ b.stored, k < n

section Room

variable {val : Int} {w radix n : Nat} {bytes : Nat → UInt8}

theorem ticks_eq (n : Nat) : ticks n = n % 4294967296 := by
  unfold ticks
  induction n with
  | zero => rfl
  | succ n ih =>
      rw [Function.iterate_succ_apply', ih]
      unfold timerCallback add32
      omega

theorem itoaEnd_lt_iff (hlo : -2147483648 ≤ val) (hhi : val < 2147483648) :
    itoaEnd val < 20 ↔ 0 ≤ val ∧ val < 1000000000 := by
  have hdigits : itoaDigits val ≤ 9 ↔ itoaBits val < 10 ^ 9 :=
    length_lowFirst_le_iff (by decide) (by decide)
  unfold itoaEnd itoaPrefix
  unfold itoaBits at hdigits
  by_cases hneg : val < 0
  · rw [if_pos hneg, List.length_append, List.length_singleton, List.length_cons,
      List.length_singleton]
    omega
  · rw [if_neg hneg, List.nil_append, List.length_cons, List.length_singleton]
    omega

/-- A call stays within the places in front of a last one that it stores to. -/
theorem staysWithin_iff {r : Except Stop Buffer} {b : Buffer} {last : Nat} (hcall : r = .ok b)
    (hlast : last ∈ b.stored) (hstores : Buffer.StoresUpTo last ⟨bytes, []⟩ b) :
    StaysWithin n r ↔ last < n := by
  constructor
  · rintro ⟨b', hcall', hwithin⟩
    obtain rfl := Except.ok.inj (hcall.symm.trans hcall')
    exact hwithin last hlast
  · intro hroom
    refine ⟨b, hcall, fun k hk => ?_⟩
    rcases hstores k hk with hle | hin
    · exact Nat.lt_of_le_of_lt hle hroom
    · exact absurd hin List.not_mem_nil

theorem itoa_staysWithin_iff (hlo : -2147483648 ≤ val) (hhi : val < 2147483648) :
    StaysWithin 20 (itoa val ⟨bytes, []⟩ 10) ↔ 0 ≤ val ∧ val < 1000000000 := by
  obtain ⟨b, hcall, -, hend, hstores⟩ := itoa_stores val ⟨bytes, []⟩
  exact (staysWithin_iff hcall hend hstores).trans (itoaEnd_lt_iff hlo hhi)

theorem uitoa_staysWithin_iff (hradix : 1 < radix) (hw : w < 4294967296) :
    StaysWithin n (uitoa w ⟨bytes, []⟩ radix) ↔ (uitoaText w radix).length < n := by
  obtain ⟨b, hcall, hformatted⟩ := uitoa_formatted hradix hw ⟨bytes, []⟩
  exact staysWithin_iff hcall hformatted.nul_stored hformatted.within

theorem length_uitoaText_ten_le_iff (hn : 0 < n) :
    (uitoaText w 10).length ≤ n ↔ w < 10 ^ n := by
  have hradix : 1 < 10 := by decide
  rw [length_uitoaText, ← length_lowFirst_le_iff hradix hn]
  exact Iff.of_eq (congrArg (· ≤ n) (Nat.zero_add _))

theorem length_uitoaText_hex_le (hw : w < 4294967296) : (uitoaText w 16).length ≤ 10 := by
  have hdigits : (lowFirst 16 w).length ≤ 8 :=
    (length_lowFirst_le_iff (by decide) (by decide)).mpr hw
  rw [length_uitoaText]
  exact Nat.add_le_add_left hdigits 2

theorem timerDump_eq (hw : w < 4294967296) (buf : Buffer) :
    (timerDump w buf).map Prod.fst = uitoa w buf 10 := by
  have hradix : 1 < 10 := by decide
  obtain ⟨b, hcall, hformatted⟩ := uitoa_formatted hradix hw buf
  have htitle : StringAt (writeBytes 0 (literal "\nTicks since boot: ") fun _ => 0) 0
      (bytesOf "\nTicks since boot: ") := stringAt_writeBytes (by decide)
  have hnumber := hformatted.stringAt (zero_notMem_uitoaText hradix (by decide) w)
  have hlength : (uitoaText w 10).length ≤ 10 :=
    (length_uitoaText_ten_le_iff (by decide)).mpr (Nat.lt_trans hw (by decide))
  unfold timerDump printfColor
  rw [hcall, ok_bind, strlen_of_stringAt htitle (by decide), ok_bind,
    strlen_of_stringAt hnumber (by omega)]
  rfl

/-- **Which numbers the callers have room for.** `uitoa` stays within the array of `printf`; `itoa`
does for what has no sign and at most nine digits, and `timer_dump` for at most seven digits, so
until the timer has called back ten million times. -/
theorem formatters_staysWithin_iff (hlo : -2147483648 ≤ val) (hhi : val < 2147483648)
    (hw : w < 4294967296) (n : Nat) (bytes : Nat → UInt8) :
    (StaysWithin 20 (itoa val ⟨bytes, []⟩ 10) ↔ 0 ≤ val ∧ val < 1000000000) ∧
      StaysWithin 20 (uitoa w ⟨bytes, []⟩ 10) ∧ StaysWithin 20 (uitoa w ⟨bytes, []⟩ 16) ∧
      (StaysWithin 8 ((timerDump (ticks n) ⟨bytes, []⟩).map Prod.fst) ↔
        n % 4294967296 < 10000000) := by
  have hticks : ticks n < 4294967296 := by
    rw [ticks_eq]
    exact Nat.mod_lt n (by decide)
  refine ⟨itoa_staysWithin_iff hlo hhi, ?_, ?_, ?_⟩
  · have hlength : (uitoaText w 10).length ≤ 10 :=
      (length_uitoaText_ten_le_iff (by decide)).mpr (Nat.lt_trans hw (by decide))
    exact (uitoa_staysWithin_iff (by decide) hw).mpr (by omega)
  · have hlength := length_uitoaText_hex_le hw
    exact (uitoa_staysWithin_iff (by decide) hw).mpr (by omega)
  · rw [timerDump_eq hticks, uitoa_staysWithin_iff (by decide) hticks, ← ticks_eq]
    exact Nat.lt_succ_iff.trans (length_uitoaText_ten_le_iff (by decide))

/-- The number 5, and a counter of 180000. -/
theorem formatters_staysWithin_five :
    StaysWithin 20 (itoa 5 ⟨fun _ => 0, []⟩ 10) ∧
      StaysWithin 8 ((timerDump (ticks 180000) ⟨fun _ => 0, []⟩).map Prod.fst) :=
  have h := formatters_staysWithin_iff (show (-2147483648 : Int) ≤ 5 by decide) (by decide)
    (show 5 < 4294967296 by decide) 180000 fun _ => 0
  ⟨h.1.mpr (by decide), h.2.2.2.mpr (by decide)⟩

/-- The number -1, and ten million ticks. -/
theorem not_staysWithin_negative :
    ¬ StaysWithin 20 (itoa (-1) ⟨fun _ => 0, []⟩ 10) ∧
      ¬ StaysWithin 8 ((timerDump (ticks 10000000) ⟨fun _ => 0, []⟩).map Prod.fst) := by
  constructor
  · intro hroom
    exact absurd ((itoa_staysWithin_iff (by decide) (by decide)).mp hroom) (by decide)
  · have hticks : ticks 10000000 = 10000000 := ticks_eq 10000000
    rw [hticks, timerDump_eq (by decide), uitoa_staysWithin_iff (by decide) (by decide)]
    intro hroom
    exact absurd ((length_uitoaText_ten_le_iff (by decide)).mp (Nat.le_of_lt_succ hroom))
      (by decide)

end Room

end Vulcanos
