import Vulcanos.Proof.LibcString

/-!
# Changing strings in place

`strcat` writes behind the string it is given, and `strupper` and `strlower` into it. The first one
looks for the end of its source again when it has copied it, and the last two compare with `==`
where a range is meant, so that each of them changes one letter only.
-/

namespace Vulcanos

open Memory Word

/-! ### Appending -/

section Append

variable {m : Mem} {dest src : Nat} {s t : List UInt8}

/-- `strcat` returns with the source behind the other string, and has written nowhere else. -/
def Appends (dest src : Nat) (t s : List UInt8) (m : Mem) : Prop :=
  ∃ m', strcat dest src m = .ok m' ∧ StringAt m' dest (t ++ s) ∧
    SameOutside (dest + t.length) (dest + t.length + s.length + 1) m m'

theorem strcat_eq (ht : StringAt m dest t) (hs : StringAt m src s)
    (hdest : dest + t.length < 4294967296) (hsrc : src + s.length < 4294967296) :
    strcat dest src m = (do
      let n ← strlen src (memcpy (dest + t.length) src s.length m)
      .ok (write8 (memcpy (dest + t.length) src s.length m) (add32 (dest + t.length) n) 0)) := by
  unfold strcat
  rw [strlen_of_stringAt ht hdest, ok_bind, add32_eq hdest, strlen_of_stringAt hs hsrc, ok_bind]

theorem strlen_of_bytes {a n : Nat} (hne : ∀ j, j < n → m (a + j) ≠ 0) (hnul : m (a + n) = 0)
    (hend : a + n < 4294967296) : strlen a m = .ok n := by
  have hlen : ((List.range n).map fun j => m (a + j)).length = n := by
    rw [List.length_map, List.length_range]
  have hstring : StringAt m a ((List.range n).map fun j => m (a + j)) := by
    refine stringAt_iff.mpr ⟨fun hzero => ?_, fun j hj => ?_, ?_⟩
    · obtain ⟨j, hj, hbyte⟩ := List.mem_map.mp hzero
      exact hne j (List.mem_range.mp hj) hbyte
    · rw [List.getElem_map, List.getElem_range]
    · rwa [hlen]
  have hcount := strlen_of_stringAt hstring (by rwa [hlen])
  rwa [hlen] at hcount

theorem strlenLoop_spec {a fuel i l : Nat} (h : strlenLoop a m fuel i = .ok l) :
    i ≤ l ∧ l < i + fuel ∧ m (add32 a l) = 0 ∧ ∀ j, i ≤ j → j < l → m (add32 a j) ≠ 0 := by
  induction fuel generalizing i with
  | zero => cases h
  | succ fuel ih =>
      rw [strlenLoop] at h
      split at h
      · rename_i hbyte
        obtain ⟨hle, hlt, hnul, hne⟩ := ih h
        refine ⟨by omega, by omega, hnul, fun j hij hjl => ?_⟩
        rcases Nat.eq_or_lt_of_le hij with rfl | hlt'
        · exact fun hzero => hbyte (read8_eq_zero_iff.mpr hzero)
        · exact hne j hlt' hjl
      · rename_i hbyte
        obtain rfl := Except.ok.inj h
        refine ⟨Nat.le_refl _, by omega, read8_eq_zero_iff.mp (not_not.mp hbyte), ?_⟩
        exact fun j hij hji => absurd hij (Nat.not_le_of_lt hji)

/-- The bytes are copied as they are, wherever the source is. -/
theorem memcpy_behind (ht : StringAt m dest t) (hs : StringAt m src s)
    (hfits : dest + t.length + s.length < 4294967296) (hsrc : src + s.length < 4294967296)
    {j : Nat} (hj : j < s.length) :
    memcpy (dest + t.length) src s.length m (dest + t.length + j) = s[j] := by
  obtain ⟨-, hbytes, -⟩ := stringAt_iff.mp hs
  rw [memcpy_apply (by omega) (by omega), if_pos (by omega), Nat.add_sub_cancel_left]
  split
  · rename_i hlt
    have hend := hs.end_le ht hlt
    rw [Nat.mod_eq_of_lt (by omega)]
    exact hbytes j hj
  · exact hbytes j hj

theorem memcpy_elsewhere {e n x : Nat} (hdest : e + n ≤ 4294967296) (hsrc : src + n ≤ 4294967296)
    (hx : x < e ∨ e + n ≤ x) : memcpy e src n m x = m x := by
  rw [memcpy_apply hdest hsrc, if_neg (by omega)]

/-- With a NUL behind the copy there are both strings, one behind the other. -/
theorem stringAt_memcpy {m' : Mem} (ht : StringAt m dest t) (hs : StringAt m src s)
    (hfits : dest + t.length + s.length < 4294967296) (hsrc : src + s.length < 4294967296)
    (hsame : ∀ x, x < dest + t.length + s.length →
      m' x = memcpy (dest + t.length) src s.length m x)
    (hnul : m' (dest + t.length + s.length) = 0) : StringAt m' dest (t ++ s) := by
  obtain ⟨hne, hbytes, -⟩ := stringAt_iff.mp ht
  refine stringAt_iff.mpr ⟨fun hzero => ?_, fun j hj => ?_, ?_⟩
  · exact (List.mem_append.mp hzero).elim hne hs.zero_notMem
  · rw [List.length_append] at hj
    rw [hsame (dest + j) (by omega)]
    by_cases hlt : j < t.length
    · rw [List.getElem_append_left hlt, memcpy_elsewhere (by omega) (by omega) (by omega)]
      exact hbytes j hlt
    · rw [List.getElem_append_right (Nat.le_of_not_lt hlt),
        ← memcpy_behind ht hs hfits hsrc (show j - t.length < s.length by omega)]
      exact congrArg _ (by omega)
  · rwa [List.length_append, ← Nat.add_assoc]

theorem appends_of_ne (ht : StringAt m dest t) (hs : StringAt m src s)
    (hfits : dest + t.length + s.length < 4294967296) (hsrc : src + s.length < 4294967296)
    (hends : s = [] ∨ src + s.length ≠ dest + t.length) : Appends dest src t s m := by
  obtain ⟨hne, hbytes, hnul⟩ := stringAt_iff.mp hs
  -- the source lies before the copy or begins behind where the copy begins
  have hplaces : s.length = 0 ∨ src + s.length < dest + t.length ∨ dest + t.length < src := by
    rcases hends with rfl | hends
    · exact Or.inl rfl
    · rcases Nat.lt_trichotomy src (dest + t.length) with hlt | heq | hgt
      · have hend := hs.end_le ht hlt
        omega
      · refine Or.inl ?_
        by_contra hpos
        have hzero := hbytes 0 (by omega)
        rw [Nat.add_zero, heq, ht.nul] at hzero
        exact hne (hzero ▸ List.getElem_mem _)
      · exact Or.inr (Or.inr hgt)
  have hlen : strlen src (memcpy (dest + t.length) src s.length m) = .ok s.length := by
    refine strlen_of_bytes (fun j hj => ?_) ?_ hsrc
    · by_cases hin : dest + t.length ≤ src + j ∧ src + j < dest + t.length + s.length
      · have hcopied := memcpy_behind ht hs hfits hsrc
          (show src + j - (dest + t.length) < s.length by omega)
        rw [Nat.add_sub_cancel' hin.1] at hcopied
        rw [hcopied]
        exact fun hzero => hne (hzero ▸ List.getElem_mem _)
      · rw [memcpy_elsewhere (by omega) (by omega) (by omega), hbytes j hj]
        exact fun hzero => hne (hzero ▸ List.getElem_mem _)
    · rw [memcpy_elsewhere (by omega) (by omega) (by omega)]
      exact hnul
  refine ⟨write8 (memcpy (dest + t.length) src s.length m) (dest + t.length + s.length) 0,
    ?_, ?_, ?_⟩
  · rw [strcat_eq ht hs (by omega) hsrc, hlen, ok_bind, add32_eq hfits]
  · refine stringAt_memcpy ht hs hfits hsrc (fun x hx => write8_apply_of_ne (by omega)) ?_
    rw [write8, if_pos rfl]
    rfl
  · refine SameOutside.write8 (by omega) (by omega) fun x hx => ?_
    exact memcpy_elsewhere (by omega) (by omega) (by omega)

/-- **When `strcat` appends**: the two strings do not end at the same NUL, unless the bytes that it
writes to behind the result are 0 already. -/
theorem strcat_iff (ht : StringAt m dest t) (hs : StringAt m src s)
    (hfits : dest + t.length + 2 * s.length < 4294967296) (hsrc : src + s.length < 4294967296) :
    Appends dest src t s m ↔ s = [] ∨ src + s.length ≠ dest + t.length ∨
      (m (dest + t.length + s.length) = 0 ∧ m (dest + t.length + 2 * s.length) = 0) := by
  by_cases hends : s = [] ∨ src + s.length ≠ dest + t.length
  · refine iff_of_true (appends_of_ne ht hs (by omega) hsrc hends) ?_
    exact hends.imp_right Or.inl
  · obtain ⟨hsome, hsame⟩ := not_or.mp hends
    have hsame : src + s.length = dest + t.length := not_not.mp hsame
    have hpos : 0 < s.length := List.length_pos_iff.mpr hsome
    obtain ⟨hne, hbytes, -⟩ := stringAt_iff.mp hs
    -- the source is there twice, with what was behind the strings behind it
    have htwice : ∀ j, j < 2 * s.length →
        memcpy (dest + t.length) src s.length m (src + j) ≠ 0 := by
      intro j hj
      by_cases hlt : j < s.length
      · rw [memcpy_elsewhere (by omega) (by omega) (by omega), hbytes j hlt]
        exact fun hzero => hne (hzero ▸ List.getElem_mem _)
      · have hcopied := memcpy_behind ht hs (by omega) hsrc (show j - s.length < s.length by omega)
        rw [show dest + t.length + (j - s.length) = src + j by omega] at hcopied
        rw [hcopied]
        exact fun hzero => hne (hzero ▸ List.getElem_mem _)
    have hbehind : ∀ x, dest + t.length + s.length ≤ x →
        memcpy (dest + t.length) src s.length m x = m x :=
      fun x hx => memcpy_elsewhere (by omega) (by omega) (Or.inr hx)
    have hdouble : src + 2 * s.length = dest + t.length + s.length := by omega
    constructor
    · rintro ⟨m', hok, hstring, hframe⟩
      rw [strcat_eq ht hs (by omega) hsrc, bind_eq_ok] at hok
      obtain ⟨l, hlen, hret⟩ := hok
      obtain rfl := Except.ok.inj hret
      obtain ⟨-, hl, hnul, hbefore⟩ := strlenLoop_spec hlen
      unfold addressSpace at hl
      have hend := hstring.nul
      rw [List.length_append, ← Nat.add_assoc] at hend
      have hlong : 2 * s.length ≤ l := by
        by_contra hlt
        rw [add32_eq (by omega)] at hnul
        exact htwice l (by omega) hnul
      have hzero : m (dest + t.length + s.length) = 0 := by
        -- the NUL is not stored there, so it was there before
        have hfar : dest + t.length + s.length ≠ add32 (dest + t.length) l := by
          unfold add32
          omega
        rwa [write8_apply_of_ne hfar, hbehind _ (Nat.le_refl _)] at hend
      have hexact : l = 2 * s.length := by
        by_contra hmore
        refine hbefore (2 * s.length) (Nat.zero_le _) (by omega) ?_
        rw [add32_eq (by omega), hdouble, hbehind _ (Nat.le_refl _)]
        exact hzero
      have hstray := hframe (dest + t.length + 2 * s.length) (Or.inr (by omega))
      rw [hexact, add32_eq hfits, write8, if_pos rfl] at hstray
      exact Or.inr (Or.inr ⟨hzero, hstray.symm⟩)
    · rintro (hnone | hne' | ⟨hzero, hstray⟩)
      · exact absurd hnone hsome
      · exact absurd hsame hne'
      · have hlen : strlen src (memcpy (dest + t.length) src s.length m) = .ok (2 * s.length) := by
          refine strlen_of_bytes htwice ?_ (by omega)
          rw [hdouble, hbehind _ (Nat.le_refl _)]
          exact hzero
        refine ⟨write8 (memcpy (dest + t.length) src s.length m)
          (dest + t.length + 2 * s.length) 0, ?_, ?_, ?_⟩
        · rw [strcat_eq ht hs (by omega) hsrc, hlen, ok_bind, add32_eq hfits]
        · refine stringAt_memcpy ht hs (by omega) hsrc
            (fun x hx => write8_apply_of_ne (by omega)) ?_
          rw [write8_apply_of_ne (by omega), hbehind _ (Nat.le_refl _)]
          exact hzero
        · intro x hx
          by_cases hat : x = dest + t.length + 2 * s.length
          · rw [hat, hstray, write8, if_pos rfl]
            rfl
          · rw [write8_apply_of_ne hat]
            exact memcpy_elsewhere (by omega) (by omega) (by omega)

/-- Two strings in memory, with other bytes behind the first one. -/
def twoStrings : Mem :=
  writeBytes 0x1000 (literal "ab" ++ [7, 7]) (writeBytes 0x2000 (literal "cd") fun _ => 0)

theorem stringAt_twoStrings :
    StringAt twoStrings 0x1000 (bytesOf "ab") ∧ StringAt twoStrings 0x2000 (bytesOf "cd") := by
  exact ⟨stringAt_iff.mpr (by decide), stringAt_iff.mpr (by decide)⟩

/-- One string behind another, and a string behind itself. -/
theorem strcat_iff_twoStrings :
    Appends 0x1000 0x2000 (bytesOf "ab") (bytesOf "cd") twoStrings ∧
      ¬ Appends 0x1000 0x1000 (bytesOf "ab") (bytesOf "ab") twoStrings := by
  obtain ⟨hab, hcd⟩ := stringAt_twoStrings
  refine ⟨(strcat_iff hab hcd (by decide) (by decide)).mpr (Or.inr (Or.inl (by decide))), ?_⟩
  intro happends
  rcases (strcat_iff hab hab (by decide) (by decide)).mp happends with hnone | hends | ⟨hbehind, -⟩
  · cases hnone
  · exact hends rfl
  · exact absurd hbehind (by decide)

end Append

/-! ### Upper and lower case -/

section Case

variable {letter last a i n fuel v : Nat} {change : Nat → Nat} {m : Mem} {s : List UInt8}

/-- What the loop makes of a byte. -/
def caseByte (letter last : Nat) (change : Nat → Nat) (c : UInt8) : UInt8 :=
  if c.toNat = letter ∧ c.toNat < last then UInt8.ofNat (change c.toNat) else c

theorem take_set_map {α : Type} (f : α → α) {s : List α} (hi : i < s.length) :
    (s.set i (f s[i])).take (i + 1) ++ ((s.set i (f s[i])).drop (i + 1)).map f =
      s.take i ++ (s.drop i).map f := by
  rw [List.drop_eq_getElem_cons hi, List.map_cons, List.drop_set_of_lt (Nat.lt_succ_self i),
    List.take_set, List.take_succ_eq_append_getElem hi, List.set_append_right _ _ (by simp),
    List.append_assoc]
  simp [Nat.min_eq_left (Nat.le_of_lt hi)]

theorem caseLoop_of_stringAt (hne : ∀ c, c ≠ 0 → caseByte letter last change c ≠ 0)
    (h : StringAt m a s) (hend : a + s.length < 4294967296) (hleft : i + n = s.length)
    (hfuel : n < fuel) :
    ∃ m', caseLoop letter last change a fuel i m = .ok m' ∧
      StringAt m' a (s.take i ++ (s.drop i).map (caseByte letter last change)) ∧
      SameOutside a (a + s.length) m m' := by
  induction n generalizing i fuel m s with
  | zero =>
      obtain ⟨fuel, rfl⟩ : ∃ f, fuel = f + 1 := ⟨fuel - 1, by omega⟩
      refine ⟨m, ?_, ?_, SameOutside.refl _ _ m⟩
      · rw [caseLoop, strlen_of_stringAt h hend, ok_bind, if_neg (by omega)]
      · rwa [List.drop_of_length_le (by omega), List.take_of_length_le (by omega), List.map_nil,
          List.append_nil]
  | succ n ih =>
      obtain ⟨fuel, rfl⟩ : ∃ f, fuel = f + 1 := ⟨fuel - 1, by omega⟩
      have hi : i < s.length := by omega
      obtain ⟨hs, hbytes, -⟩ := stringAt_iff.mp h
      have hbyte : read8 m (a + i) = s[i].toNat := congrArg UInt8.toNat (hbytes i hi)
      -- the byte of this round
      obtain ⟨m1, hm1, hstring, hframe⟩ : ∃ m1,
          (if read8 m (a + i) = letter ∧ read8 m (a + i) < last then
            write8 m (a + i) (change (read8 m (a + i))) else m) = m1 ∧
          StringAt m1 a (s.set i (caseByte letter last change s[i])) ∧
          SameOutside a (a + s.length) m m1 := by
        refine ⟨_, rfl, ?_⟩
        rw [hbyte]
        have hkept := hne s[i] fun hzero => hs (hzero ▸ List.getElem_mem _)
        unfold caseByte at hkept ⊢
        split
        · rename_i hletter
          rw [if_pos hletter] at hkept
          exact ⟨h.write8_set hi hkept, SameOutside.write8 (Nat.le_add_right a i) (by omega)
            (SameOutside.refl _ _ m)⟩
        · rw [List.set_getElem_self]
          exact ⟨h, SameOutside.refl _ _ m⟩
      have hlen : (s.set i (caseByte letter last change s[i])).length = s.length := List.length_set
      obtain ⟨m', hloop, hdone, hrest⟩ := ih (i := i + 1) hstring (by omega) (by omega)
        (show n < fuel by omega)
      rw [take_set_map _ hi] at hdone
      rw [hlen] at hrest
      refine ⟨m', ?_, hdone, hframe.trans hrest⟩
      rw [caseLoop, strlen_of_stringAt h hend, ok_bind, if_pos hi, add32_eq (by omega)]
      dsimp only
      rw [hm1]
      exact hloop

/-- The letters of an alphabet that begins with `letter` and ends with `last`, in the other case. -/
def otherCase (letter last : Nat) (shift : Nat → Nat) (c : UInt8) : UInt8 :=
  if letter ≤ c.toNat ∧ c.toNat ≤ last then UInt8.ofNat (shift c.toNat) else c

def asciiUpper : UInt8 → UInt8 := otherCase 'a'.toNat 'z'.toNat (· - 32)

def asciiLower : UInt8 → UInt8 := otherCase 'A'.toNat 'Z'.toNat (· + 32)

/-- The call returns, has applied `f` to each byte of the string and written nowhere else. -/
def Maps (edit : Nat → Mem → Except Stop Mem) (f : UInt8 → UInt8) (a : Nat) (s : List UInt8)
    (m : Mem) : Prop :=
  ∃ m', edit a m = .ok m' ∧ StringAt m' a (s.map f) ∧ SameOutside a (a + s.length) m m'

theorem maps_iff {f : UInt8 → UInt8}
    (hne : ∀ c, c ≠ 0 → caseByte letter last change c ≠ 0) (h : StringAt m a s)
    (hend : a + s.length < 4294967296) :
    Maps (fun a m => caseLoop letter last change a addressSpace 0 m) f a s m ↔
      ∀ c ∈ s, caseByte letter last change c = f c := by
  obtain ⟨m', hloop, hstring, hframe⟩ := caseLoop_of_stringAt (i := 0) (n := s.length) hne h hend
    (Nat.zero_add _) (show s.length < addressSpace by unfold addressSpace; omega)
  rw [List.take_zero, List.drop_zero, List.nil_append] at hstring
  constructor
  · rintro ⟨m'', hloop', hmapped, -⟩
    obtain rfl := Except.ok.inj (hloop.symm.trans hloop')
    exact List.map_inj_left.mp (hstring.unique hmapped)
  · intro hall
    refine ⟨m', hloop, ?_, hframe⟩
    rwa [← List.map_congr_left hall]

/-- The loop treats the first letter like a range does, and misses the others. -/
theorem caseByte_eq_iff {shift : Nat → Nat} {c : UInt8} (hlt : letter < last)
    (hfirst : change letter = shift letter)
    (hshift : letter < c.toNat → c.toNat ≤ last → UInt8.ofNat (shift c.toNat) ≠ c) :
    caseByte letter last change c = otherCase letter last shift c ↔
      ¬ (letter < c.toNat ∧ c.toNat ≤ last) := by
  unfold caseByte otherCase
  by_cases hc : c.toNat = letter
  · rw [if_pos ⟨hc, hc ▸ hlt⟩, if_pos ⟨Nat.le_of_eq hc.symm, hc ▸ Nat.le_of_lt hlt⟩, hc, hfirst]
    exact iff_of_true rfl fun h => Nat.lt_irrefl _ h.1
  · rw [if_neg fun h => hc h.1]
    by_cases hin : letter < c.toNat ∧ c.toNat ≤ last
    · rw [if_pos ⟨Nat.le_of_lt hin.1, hin.2⟩]
      exact iff_of_false (hshift hin.1 hin.2).symm fun h => h hin
    · rw [if_neg fun h => hin ⟨Nat.lt_of_le_of_ne h.1 (Ne.symm hc), h.2⟩]
      exact iff_of_true rfl hin

theorem caseByte_ne_zero (hchange : UInt8.ofNat (change letter) ≠ 0) (c : UInt8) (hc : c ≠ 0) :
    caseByte letter last change c ≠ 0 := by
  unfold caseByte
  split
  · rename_i hletter
    rwa [hletter.1]
  · exact hc

/-- **Which strings `strupper` and `strlower` convert**: those in which the only letter of the other
case is the first of the alphabet. -/
theorem letterCase_iff (h : StringAt m a s) (hend : a + s.length < 4294967296) :
    (Maps strupper asciiUpper a s m ↔ ∀ c ∈ s, ¬ ('a'.toNat < c.toNat ∧ c.toNat ≤ 'z'.toNat)) ∧
      (Maps strlower asciiLower a s m ↔
        ∀ c ∈ s, ¬ ('A'.toNat < c.toNat ∧ c.toNat ≤ 'Z'.toNat)) := by
  constructor
  · refine (maps_iff (caseByte_ne_zero (by decide)) h hend).trans (forall₂_congr fun c _ => ?_)
    refine caseByte_eq_iff ?_ ?_ fun hlo hhi heq => ?_
    · decide
    · decide
    have hval : (c.toNat - 32) % 256 = c.toNat := congrArg UInt8.toNat heq
    have hlo : 97 < c.toNat := hlo
    omega
  · refine (maps_iff (caseByte_ne_zero (by decide)) h hend).trans (forall₂_congr fun c _ => ?_)
    refine caseByte_eq_iff ?_ ?_ fun hlo hhi heq => ?_
    · decide
    · decide
    have hval : (c.toNat + 32) % 256 = c.toNat := congrArg UInt8.toNat heq
    have hhi : c.toNat ≤ 90 := hhi
    omega

/-- `ab` has a letter that is missed, and no capital. -/
theorem letterCase_iff_twoStrings :
    ¬ Maps strupper asciiUpper 0x1000 (bytesOf "ab") twoStrings ∧
      Maps strlower asciiLower 0x1000 (bytesOf "ab") twoStrings := by
  obtain ⟨hupper, hlower⟩ := letterCase_iff stringAt_twoStrings.1 (by decide)
  exact ⟨fun hmaps => absurd (hupper.mp hmaps) (by decide +kernel),
    hlower.mpr (by decide +kernel)⟩

end Case

end Vulcanos
