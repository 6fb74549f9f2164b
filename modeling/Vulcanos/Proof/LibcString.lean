import Vulcanos.Kernel.LibcString

/-!
# What the loops of `string.c` do

On strings that lie in memory each loop ends, and does what its name says. The bounds say that no
pointer passes the end of the address space.
-/

namespace Vulcanos

open Memory Word

section Strings

variable {m m' : Mem} {dst src a b i n fuel len : Nat} {s t : List UInt8}

theorem read8_eq_zero_iff : read8 m a = 0 ↔ m a = 0 := by
  unfold read8
  rw [← UInt8.toNat_zero]
  exact UInt8.toNat_inj

theorem copied_write8 (hapart : dst < src ∨ src + n < dst) :
    copied (dst + 1) (src + 1) n (write8 m dst (read8 m src)) = copied dst src (n + 1) m := by
  funext x
  unfold copied
  by_cases hx : x = dst
  · subst hx
    rw [if_neg (by omega), if_pos (by omega), Nat.sub_self]
    exact (if_pos rfl).trans (UInt8.ofNat_toNat ..)
  · by_cases hin : dst + 1 ≤ x ∧ x < dst + 1 + n
    · rw [if_pos hin, if_pos (by omega), write8_apply_of_ne (by omega)]
      exact congrArg m (by omega)
    · rw [if_neg hin, if_neg (by omega), write8_apply_of_ne hx]

theorem strcpyLoop_of_stringAt (h : StringAt m (src + i) s) (hdst : dst + i + s.length < 4294967296)
    (hsrc : src + i + s.length < 4294967296)
    (hapart : dst + s.length < src ∨ src + s.length < dst) (hfuel : s.length < fuel) :
    strcpyLoop dst src fuel i m =
      .ok (i + s.length + 1, copied (dst + i) (src + i) (s.length + 1) m) := by
  induction s generalizing fuel i m with
  | nil =>
      obtain ⟨fuel, rfl⟩ : ∃ f, fuel = f + 1 := ⟨fuel - 1, by omega⟩
      rw [List.length_nil] at hdst hsrc hapart ⊢
      have hnul : ¬ read8 m (src + i) ≠ 0 := not_not.mpr (read8_eq_zero_iff.mpr h)
      rw [strcpyLoop, add32_eq (by omega), add32_eq (by omega)]
      rw [if_neg hnul, ← copied_write8 (by omega)]
      congr 2
      funext x
      exact (if_neg (by omega)).symm
  | cons c s ih =>
      obtain ⟨fuel, rfl⟩ : ∃ f, fuel = f + 1 := ⟨fuel - 1, by omega⟩
      obtain ⟨hc, hne, hrest⟩ := h
      rw [List.length_cons] at hdst hsrc hapart hfuel ⊢
      have hbyte : read8 m (src + i) ≠ 0 := fun hzero =>
        hne (hc.symm.trans (read8_eq_zero_iff.mp hzero))
      rw [strcpyLoop, add32_eq (by omega), add32_eq (by omega)]
      have hkept : StringAt (write8 m (dst + i) (read8 m (src + i))) (src + (i + 1)) s := by
        refine hrest.congr fun x hlo hhi => write8_apply_of_ne (by omega)
      have hcopy : copied (dst + (i + 1)) (src + (i + 1)) (s.length + 1)
          (write8 m (dst + i) (read8 m (src + i))) =
            copied (dst + i) (src + i) (s.length + 1 + 1) m :=
        copied_write8 (show dst + i < src + i ∨ src + i + (s.length + 1) < dst + i by omega)
      rw [if_pos hbyte, ih hkept (by omega) (by omega) (by omega) (by omega), hcopy]
      congr 2
      omega

/-- **`strcpy`** copies a string and its NUL. -/
theorem strcpy_of_stringAt (h : StringAt m src s) (hdst : dst + s.length < 4294967296)
    (hsrc : src + s.length < 4294967296) (hapart : dst + s.length < src ∨ src + s.length < dst) :
    strcpy dst src m = .ok (s.length + 1, copied dst src (s.length + 1) m) := by
  have hloop := strcpyLoop_of_stringAt (i := 0) h hdst hsrc hapart
    (show s.length < addressSpace by unfold addressSpace; omega)
  rwa [Nat.zero_add] at hloop

theorem lt_of_strcpyLoop (h : strcpyLoop dst src fuel i m = .ok (len, m')) : i < len := by
  induction fuel generalizing i m with
  | zero => cases h
  | succ fuel ih =>
      rw [strcpyLoop] at h
      split at h
      · exact Nat.lt_of_succ_lt (ih h)
      · obtain ⟨rfl, -⟩ := Prod.mk.inj (Except.ok.inj h)
        exact Nat.lt_succ_self i

theorem strcpyLoop_long (hbytes : ∀ j, i ≤ j → j < n → m (src + j) ≠ 0)
    (hin : i ≤ n) (hdst : dst + n ≤ 4294967296) (hsrc : src + n ≤ 4294967296)
    (hapart : dst + n ≤ src ∨ src + n ≤ dst) (h : strcpyLoop dst src fuel i m = .ok (len, m')) :
    n < len := by
  induction fuel generalizing i m with
  | zero => cases h
  | succ fuel ih =>
      by_cases hlast : i = n
      · subst hlast
        exact lt_of_strcpyLoop h
      · have hbyte : read8 m (src + i) ≠ 0 := fun hzero =>
          hbytes i (Nat.le_refl i) (by omega) (read8_eq_zero_iff.mp hzero)
        rw [strcpyLoop, add32_eq (by omega), add32_eq (by omega)] at h
        rw [if_pos hbyte] at h
        refine ih (fun j hlo hhi => ?_) (by omega) h
        rw [write8_apply_of_ne (by omega)]
        exact hbytes j (by omega) hhi

/-- Bytes without a NUL are copied all, and more behind them. -/
theorem lt_of_strcpy (hbytes : ∀ j, j < n → m (src + j) ≠ 0) (hdst : dst + n ≤ 4294967296)
    (hsrc : src + n ≤ 4294967296) (hapart : dst + n ≤ src ∨ src + n ≤ dst)
    (h : strcpy dst src m = .ok (len, m')) : n < len :=
  strcpyLoop_long (fun j _ hj => hbytes j hj) (Nat.zero_le n) hdst hsrc hapart h

theorem strlenLoop_of_stringAt (h : StringAt m (a + i) s) (hend : a + i + s.length < 4294967296)
    (hfuel : s.length < fuel) : strlenLoop a m fuel i = .ok (i + s.length) := by
  induction s generalizing fuel i with
  | nil =>
      obtain ⟨fuel, rfl⟩ : ∃ f, fuel = f + 1 := ⟨fuel - 1, by omega⟩
      rw [List.length_nil] at hend
      rw [strlenLoop, add32_eq (by omega), if_neg (not_not.mpr (read8_eq_zero_iff.mpr h))]
      rfl
  | cons c s ih =>
      obtain ⟨fuel, rfl⟩ : ∃ f, fuel = f + 1 := ⟨fuel - 1, by omega⟩
      obtain ⟨hc, hne, hrest⟩ := h
      rw [List.length_cons] at hend hfuel ⊢
      have hbyte : read8 m (a + i) ≠ 0 := fun hzero =>
        hne (hc.symm.trans (read8_eq_zero_iff.mp hzero))
      rw [strlenLoop, add32_eq (by omega), if_pos hbyte, ih hrest (by omega) (by omega)]
      congr 1
      omega

/-- **`strlen`.** -/
theorem strlen_of_stringAt (h : StringAt m a s) (hend : a + s.length < 4294967296) :
    strlen a m = .ok s.length := by
  have hloop := strlenLoop_of_stringAt (i := 0) h hend
    (show s.length < addressSpace by unfold addressSpace; omega)
  rwa [Nat.zero_add] at hloop

/-- The sign of a number says how two strings compare, byte by byte and without sign. -/
def Compares (d : Int) (s t : List UInt8) : Prop :=
  (d < 0 ↔ s < t) ∧ (d = 0 ↔ s = t) ∧ (0 < d ↔ t < s)

theorem Compares.nil : Compares 0 [] [] :=
  ⟨iff_of_false (lt_irrefl 0) (List.not_lt_nil []), iff_of_true rfl rfl,
    iff_of_false (lt_irrefl 0) (List.not_lt_nil [])⟩

theorem Compares.end_left {d : Int} (hd : d < 0) (c : UInt8) (t : List UInt8) :
    Compares d [] (c :: t) :=
  ⟨iff_of_true hd (List.nil_lt_cons c t), iff_of_false (ne_of_lt hd) (List.cons_ne_nil c t).symm,
    iff_of_false (not_lt_of_gt hd) (List.not_lt_nil _)⟩

theorem Compares.end_right {d : Int} (hd : 0 < d) (c : UInt8) (s : List UInt8) :
    Compares d (c :: s) [] :=
  ⟨iff_of_false (not_lt_of_gt hd) (List.not_lt_nil _),
    iff_of_false (ne_of_gt hd) (List.cons_ne_nil c s), iff_of_true hd (List.nil_lt_cons c s)⟩

theorem Compares.cons {d : Int} (h : Compares d s t) (c : UInt8) :
    Compares d (c :: s) (c :: t) := by
  obtain ⟨hlt, heq, hgt⟩ := h
  exact ⟨hlt.trans List.cons_lt_cons_self.symm, heq.trans (List.cons_inj_right c).symm,
    hgt.trans List.cons_lt_cons_self.symm⟩

theorem Compares.differ {c d : UInt8} (hne : c ≠ d) (s t : List UInt8) :
    Compares ((c.toNat : Int) - (d.toNat : Int)) (c :: s) (d :: t) := by
  have hnat : c.toNat ≠ d.toNat := fun h => hne (UInt8.toNat_inj.mp h)
  have hlt : ∀ {x y : UInt8}, x ≠ y → ∀ u v : List UInt8, x :: u < y :: v ↔ x.toNat < y.toNat := by
    intro x y hxy u v
    rw [List.cons_lt_cons_iff, UInt8.lt_iff_toNat_lt]
    exact or_iff_left fun h => hxy h.1
  refine ⟨?_, iff_of_false (by omega) fun h => hne (List.cons.inj h).1, ?_⟩
  · rw [hlt hne]
    omega
  · rw [hlt hne.symm]
    omega

/-- **The loop of `strcmp`.** It stops at the first difference, or at the two NULs, and reads
nothing behind them. -/
theorem strcmp_nul (hs : 0 ∉ s) (ht : 0 ∉ t) :
    ∃ d, Compares d s t ∧ ∀ u v, strcmp (s ++ 0 :: u) (t ++ 0 :: v) = some d := by
  induction s generalizing t with
  | nil =>
      have hnul : ∀ (u v : List UInt8) (b : UInt8),
          strcmp (0 :: u) (b :: v) = some (0 - (b.toNat : Int)) := fun u v b => by
        rw [strcmp, if_neg fun h => h.1 rfl]
        rfl
      cases t with
      | nil => exact ⟨0, Compares.nil, fun u v => hnul u v 0⟩
      | cons c t =>
          have hc : c.toNat ≠ 0 := fun h =>
            (List.ne_of_not_mem_cons ht) (UInt8.toNat_inj.mp h).symm
          exact ⟨_, Compares.end_left (by omega) c t, fun u v => hnul u _ c⟩
  | cons c s ih =>
      have hc : c ≠ 0 := (List.ne_of_not_mem_cons hs).symm
      have hstop : ∀ (u v : List UInt8) {b : UInt8}, c ≠ b →
          strcmp (c :: u) (b :: v) = some ((c.toNat : Int) - (b.toNat : Int)) := fun u v b hb => by
        rw [strcmp, if_neg fun h => hb h.2]
      cases t with
      | nil =>
          have hnat : c.toNat ≠ 0 := fun h => hc (UInt8.toNat_inj.mp h)
          refine ⟨_, Compares.end_right ?_ c s, fun u v => hstop _ v hc⟩
          rw [UInt8.toNat_zero]
          omega
      | cons d t =>
          by_cases hsame : c = d
          · subst hsame
            obtain ⟨diff, hcmp, hloop⟩ :=
              ih (List.not_mem_of_not_mem_cons hs) (List.not_mem_of_not_mem_cons ht)
            refine ⟨diff, hcmp.cons c, fun u v => ?_⟩
            rw [List.cons_append, List.cons_append, strcmp, if_pos ⟨hc, rfl⟩]
            exact hloop u v
          · exact ⟨_, Compares.differ hsame s t, fun u v => hstop _ _ hsame⟩

theorem strcmpLoop_of_stringAt (hs : StringAt m (a + i) s) (ht : StringAt m (b + i) t)
    (ha : a + i + s.length < 4294967296) (hb : b + i + t.length < 4294967296)
    (hfuel : s.length < fuel) :
    ∃ diff, strcmpLoop a b m fuel i = .ok diff ∧ strcmp (s ++ [0]) (t ++ [0]) = some diff := by
  induction s generalizing t fuel i with
  | nil =>
      obtain ⟨fuel, rfl⟩ : ∃ f, fuel = f + 1 := ⟨fuel - 1, by omega⟩
      rw [List.length_nil] at ha
      have hnul : read8 m (a + i) = 0 := read8_eq_zero_iff.mpr hs
      obtain ⟨v, hv⟩ := ht.head
      refine ⟨(0 : Int) - (read8 m (b + i) : Int), ?_, ?_⟩
      · rw [strcmpLoop, add32_eq (by omega), add32_eq (by omega), hnul]
        rfl
      · rw [hv, List.nil_append, strcmp, if_neg fun h => h.1 rfl]
        rfl
  | cons c s ih =>
      obtain ⟨fuel, rfl⟩ : ∃ f, fuel = f + 1 := ⟨fuel - 1, by omega⟩
      obtain ⟨hc, hne, hrest⟩ := hs
      rw [List.length_cons] at ha hfuel
      have hbyte : read8 m (a + i) ≠ 0 := fun hzero =>
        hne (hc.symm.trans (read8_eq_zero_iff.mp hzero))
      rw [strcmpLoop, add32_eq (by omega), add32_eq (by omega)]
      by_cases hsame : read8 m (a + i) = read8 m (b + i)
      · rw [if_pos ⟨hbyte, hsame⟩]
        cases t with
        | nil => exact absurd (hsame.trans (read8_eq_zero_iff.mpr ht)) hbyte
        | cons d t =>
            rw [List.length_cons] at hb
            obtain ⟨diff, hloop, hdiff⟩ := ih hrest ht.2.2
              (show a + (i + 1) + s.length < 4294967296 by omega)
              (show b + (i + 1) + t.length < 4294967296 by omega) (show s.length < fuel by omega)
            have hcd : c = d := by
              rw [← hc, ← ht.1]
              exact UInt8.toNat_inj.mp hsame
            refine ⟨diff, hloop, ?_⟩
            rw [List.cons_append, List.cons_append, strcmp, if_pos ⟨hne, hcd⟩]
            exact hdiff
      · rw [if_neg fun hboth => hsame hboth.2]
        obtain ⟨v, hv⟩ := ht.head
        refine ⟨_, rfl, ?_⟩
        rw [hv, List.cons_append, strcmp, ← hc, if_neg fun h => hsame (congrArg UInt8.toNat h.2)]
        rfl

/-- **`strcmp`** on two strings in memory. -/
theorem strcmpAt_of_stringAt (hs : StringAt m a s) (ht : StringAt m b t)
    (ha : a + s.length < 4294967296) (hb : b + t.length < 4294967296) :
    ∃ diff, strcmpAt a b m = .ok diff ∧ Compares diff s t := by
  obtain ⟨diff, hloop, hdiff⟩ := strcmpLoop_of_stringAt (i := 0) hs ht ha hb
    (show s.length < addressSpace by unfold addressSpace; omega)
  obtain ⟨d, hcmp, hsome⟩ := strcmp_nul hs.zero_notMem ht.zero_notMem
  obtain rfl := Option.some.inj (hdiff.symm.trans (hsome [] []))
  exact ⟨diff, hloop, hcmp⟩

/-! ### `memcpy` -/

theorem memcpyLoop_succ (dst src n i : Nat) (m : Mem) :
    memcpyLoop dst src (n + 1) i m =
      write8 (memcpyLoop dst src n i m) (add32 dst (i + n))
        (read8 (memcpyLoop dst src n i m) (add32 src (i + n))) := by
  induction n generalizing i m with
  | zero => rfl
  | succ n ih =>
      rw [memcpyLoop, ih, show i + 1 + n = i + (n + 1) by omega]
      rfl

theorem memcpy_succ (hdst : dst + n < 4294967296) (hsrc : src + n < 4294967296) :
    memcpy dst src (n + 1) m =
      write8 (memcpy dst src n m) (dst + n) (read8 (memcpy dst src n m) (src + n)) := by
  unfold memcpy
  rw [memcpyLoop_succ, Nat.zero_add, add32_eq hdst, add32_eq hsrc]

/-- **`memcpy`.** Where the destination begins inside the source, the bytes in between are repeated.
-/
theorem memcpy_apply (hdst : dst + n ≤ 4294967296) (hsrc : src + n ≤ 4294967296) (x : Nat) :
    memcpy dst src n m x =
      if dst ≤ x ∧ x < dst + n then
        m (src + if src < dst then (x - dst) % (dst - src) else x - dst)
      else m x := by
  induction n generalizing x with
  | zero => exact (if_neg (by omega)).symm
  | succ n ih =>
      rw [memcpy_succ (by omega) (by omega)]
      by_cases hx : x = dst + n
      · rw [if_pos (by omega), write8, if_pos hx, read8, UInt8.ofNat_toNat,
          ih (by omega) (by omega), hx, Nat.add_sub_cancel_left]
        split
        · -- the byte to copy has been stored by the loop itself
          rename_i hin
          have hlt : src < dst ∨ src = dst := by omega
          by_cases hover : src < dst
          · rw [if_pos hover, if_pos hover]
            have hmod : n % (dst - src) = (src + n - dst) % (dst - src) := by
              calc
                n % (dst - src) = (src + n - dst + (dst - src)) % (dst - src) := by
                  rw [show src + n - dst + (dst - src) = n by omega]
                _ = (src + n - dst) % (dst - src) := Nat.add_mod_right _ _
            rw [hmod]
          · rw [if_neg hover, if_neg hover]
            exact congrArg m (by omega)
        · split
          · rw [Nat.mod_eq_of_lt (by omega)]
          · rfl
      · rw [write8_apply_of_ne hx, ih (by omega) (by omega)]
        exact if_congr (by omega) rfl rfl

/-! ### `memmove` -/

theorem memmoveLoop_eq_memcpyLoop (hdst : dst + i + n ≤ 4294967296)
    (hsrc : src + i + n ≤ 4294967296) : memmoveLoop dst src n i m = memcpyLoop dst src n i m := by
  induction n generalizing i m with
  | zero => rfl
  | succ n ih =>
      rw [memmoveLoop, memcpyLoop, add32_eq (by omega), add32_eq (by omega)]
      exact ih (by omega) (by omega)

/-- **`memmove` is `memcpy`**: both go upwards, whichever way the bytes are moved. -/
theorem memmove_eq_memcpy (hdst : dst + n ≤ 4294967296) (hsrc : src + n ≤ 4294967296) :
    memmove dst src n m = memcpy dst src n m :=
  memmoveLoop_eq_memcpyLoop (i := 0) hdst hsrc

end Strings

end Vulcanos
