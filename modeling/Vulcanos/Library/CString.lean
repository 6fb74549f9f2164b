import Vulcanos.Library.Memory

/-!
# Strings and records in byte memory

A string is a list of bytes without NUL. It lies at an address where its bytes lie from there on and
a NUL behind them, so memory determines the string, and the string is kept where these bytes are. A
record of words is a list of offsets with what is stored there.
-/

namespace Vulcanos.Memory

/-- The string lies at the address. -/
def StringAt (m : Mem) : Nat → List UInt8 → Prop
  | a, [] => m a = 0
  | a, c :: s => m a = c ∧ c ≠ 0 ∧ StringAt m (a + 1) s

/-- The bytes of a field up to the first NUL, or all of them. -/
def textIn (m : Mem) : Nat → Nat → List UInt8
  | _, 0 => []
  | a, n + 1 => if m a = 0 then [] else m a :: textIn m (a + 1) n

section Strings

variable {m m' : Mem} {a n : Nat} {s t : List UInt8}

theorem StringAt.unique (h : StringAt m a s) (h' : StringAt m a t) : s = t := by
  induction s generalizing a t with
  | nil =>
      cases t with
      | nil => rfl
      | cons d t => exact absurd (h'.1.symm.trans h) h'.2.1
  | cons c s ih =>
      cases t with
      | nil => exact absurd (h.1.symm.trans h') h.2.1
      | cons d t => rw [h.1.symm.trans h'.1, ih h.2.2 h'.2.2]

theorem StringAt.congr (h : StringAt m a s) (hsame : SameOn a (a + s.length + 1) m m') :
    StringAt m' a s := by
  induction s generalizing a with
  | nil => exact (hsame a (Nat.le_refl a) (Nat.lt_succ_self a)).trans h
  | cons c s ih =>
      obtain ⟨hc, hne, hrest⟩ := h
      refine ⟨(hsame a (Nat.le_refl a) (by omega)).trans hc, hne, ih hrest ?_⟩
      refine hsame.mono (Nat.le_succ a) ?_
      rw [List.length_cons]
      omega

theorem StringAt.nul (h : StringAt m a s) : m (a + s.length) = 0 := by
  induction s generalizing a with
  | nil => exact h
  | cons c s ih =>
      rw [List.length_cons, show a + (s.length + 1) = a + 1 + s.length by omega]
      exact ih h.2.2

theorem StringAt.zero_notMem (h : StringAt m a s) : 0 ∉ s := by
  induction s generalizing a with
  | nil => exact List.not_mem_nil
  | cons c s ih => exact List.not_mem_cons_of_ne_of_not_mem h.2.1.symm (ih h.2.2)

theorem StringAt.head (h : StringAt m a s) : ∃ rest, s ++ [0] = m a :: rest := by
  cases s with
  | nil => exact ⟨[], congrArg (· :: []) h.symm⟩
  | cons c s => exact ⟨s ++ [0], by rw [List.cons_append, h.1]⟩

theorem StringAt.byte {k : Nat} (h : StringAt m a s) (hk : k ≤ s.length) :
    m (a + k) ∈ s ∨ m (a + k) = 0 := by
  induction s generalizing a k with
  | nil =>
      obtain rfl := Nat.le_zero.mp hk
      exact Or.inr h
  | cons c s ih =>
      cases k with
      | zero => exact Or.inl (List.mem_cons.mpr (Or.inl h.1))
      | succ k =>
          rw [show a + (k + 1) = a + 1 + k by omega]
          exact (ih h.2.2 (Nat.le_of_succ_le_succ hk)).imp (List.mem_cons_of_mem c) id

theorem stringAt_iff :
    StringAt m a s ↔
      0 ∉ s ∧ (∀ j (hj : j < s.length), m (a + j) = s[j]) ∧ m (a + s.length) = 0 := by
  induction s generalizing a with
  | nil => exact ⟨fun h => ⟨List.not_mem_nil, fun _ hj => absurd hj (Nat.not_lt_zero _), h⟩,
      fun h => h.2.2⟩
  | cons c s ih =>
      have hend : a + 1 + s.length = a + (c :: s).length := by
        rw [List.length_cons]
        omega
      rw [StringAt, ih, List.mem_cons, not_or, hend]
      constructor
      · rintro ⟨hc, hne, hs, hbytes, hnul⟩
        refine ⟨⟨hne.symm, hs⟩, fun j hj => ?_, hnul⟩
        cases j with
        | zero => exact hc
        | succ j =>
            rw [show a + (j + 1) = a + 1 + j by omega]
            exact hbytes j (Nat.lt_of_succ_lt_succ hj)
      · rintro ⟨⟨hne, hs⟩, hbytes, hnul⟩
        refine ⟨hbytes 0 (Nat.zero_lt_succ _), Ne.symm hne, hs, fun j hj => ?_, hnul⟩
        rw [show a + 1 + j = a + (j + 1) by omega]
        exact hbytes (j + 1) (Nat.succ_lt_succ hj)

theorem StringAt.end_le {b : Nat} (hs : StringAt m a s) (ht : StringAt m b t)
    (hlt : a < b + t.length) : a + s.length ≤ b + t.length := by
  obtain ⟨hne, hbytes, -⟩ := stringAt_iff.mp hs
  by_contra hin
  have hzero := hbytes (b + t.length - a) (by omega)
  rw [Nat.add_sub_cancel' (by omega), ht.nul] at hzero
  exact hne (hzero ▸ List.getElem_mem _)

theorem StringAt.map_range (h : StringAt m a s) :
    (List.range s.length).map (fun i => m (a + i)) = s := by
  induction s generalizing a with
  | nil => rfl
  | cons c s ih =>
      rw [List.length_cons, List.range_succ_eq_map, List.map_cons, List.map_map]
      refine congrArg₂ List.cons h.1 ?_
      calc (List.range s.length).map ((fun i => m (a + i)) ∘ Nat.succ)
          = (List.range s.length).map fun i => m (a + 1 + i) :=
            List.map_congr_left fun i _ => congrArg m (by omega)
        _ = s := ih h.2.2

theorem StringAt.write8_set {i v : Nat} (h : StringAt m a s) (hi : i < s.length)
    (hv : UInt8.ofNat v ≠ 0) : StringAt (write8 m (a + i) v) a (s.set i (UInt8.ofNat v)) := by
  obtain ⟨hne, hbytes, hnul⟩ := stringAt_iff.mp h
  refine stringAt_iff.mpr ⟨fun hzero => ?_, fun j hj => ?_, ?_⟩
  · exact (List.mem_or_eq_of_mem_set hzero).elim hne hv.symm
  · rw [List.length_set] at hj
    rw [List.getElem_set]
    by_cases hij : i = j
    · rw [if_pos hij, hij, write8, if_pos rfl]
    · rw [if_neg hij, write8_apply_of_ne (by omega)]
      exact hbytes j hj
  · rw [List.length_set, write8_apply_of_ne (by omega)]
    exact hnul

theorem StringAt.write8_nul (h : StringAt m a s) : StringAt (write8 m (a + s.length) 0) a s := by
  refine h.congr fun x _ _ => ?_
  by_cases hx : x = a + s.length
  · subst hx
    exact (if_pos rfl).trans h.nul.symm
  · exact write8_apply_of_ne hx

theorem textIn_congr (hsame : SameOn a (a + n) m m') : textIn m' a n = textIn m a n := by
  induction n generalizing a with
  | zero => rfl
  | succ n ih =>
      rw [textIn, textIn, hsame a (Nat.le_refl a) (by omega),
        ih (hsame.mono (Nat.le_succ a) (by omega))]

theorem length_textIn_le (m : Mem) (a n : Nat) : (textIn m a n).length ≤ n := by
  induction n generalizing a with
  | zero => exact Nat.le_refl 0
  | succ n ih =>
      rw [textIn]
      split
      · exact Nat.zero_le _
      · exact Nat.succ_le_succ (ih (a + 1))

theorem stringAt_textIn (h : ∃ j, j ≤ n ∧ m (a + j) = 0) : StringAt m a (textIn m a n) := by
  induction n generalizing a with
  | zero =>
      obtain ⟨j, hj, hnul⟩ := h
      obtain rfl := Nat.le_zero.mp hj
      exact hnul
  | succ n ih =>
      rw [textIn]
      split
      · assumption
      · rename_i hne
        obtain ⟨j, hj, hnul⟩ := h
        cases j with
        | zero => exact absurd hnul hne
        | succ j =>
            refine ⟨rfl, hne, ih ⟨j, by omega, ?_⟩⟩
            rw [show a + 1 + j = a + (j + 1) by omega]
            exact hnul

end Strings

/-! ### Copies -/

/-- The memory after `n` bytes have been copied, without overlap. -/
def copied (dst src n : Nat) (m : Mem) : Mem :=
  fun x => if dst ≤ x ∧ x < dst + n then m (src + (x - dst)) else m x

/-- The memory after some bytes have been stored. -/
def writeBytes (a : Nat) (bs : List UInt8) (m : Mem) : Mem :=
  fun x => if a ≤ x ∧ x < a + bs.length then bs.getD (x - a) 0 else m x

section Copies

variable {m : Mem} {dst src n a : Nat} {s : List UInt8}

theorem sameOutside_copied (dst src n : Nat) (m : Mem) :
    SameOutside dst (dst + n) m (copied dst src n m) := fun _ hx => if_neg (by omega)

theorem sameOutside_writeBytes (a : Nat) (bs : List UInt8) (m : Mem) :
    SameOutside a (a + bs.length) m (writeBytes a bs m) := fun _ hx => if_neg (by omega)

theorem StringAt.copied (h : StringAt m src s) :
    StringAt (copied dst src (s.length + 1) m) dst s := by
  suffices hgen : ∀ t b, StringAt m (src + b) t → b + t.length + 1 = s.length + 1 →
      StringAt (Memory.copied dst src (s.length + 1) m) (dst + b) t from hgen s 0 h (by omega)
  intro t
  induction t with
  | nil =>
      intro b hnul hlen
      refine Eq.trans (if_pos ?_) ?_
      · rw [List.length_nil] at hlen
        omega
      · rw [Nat.add_sub_cancel_left]
        exact hnul
  | cons c t ih =>
      intro b hcons hlen
      rw [List.length_cons] at hlen
      obtain ⟨hc, hne, hrest⟩ := hcons
      refine ⟨Eq.trans (if_pos (by omega)) ?_, hne, ih (b + 1) hrest (by omega)⟩
      rw [Nat.add_sub_cancel_left]
      exact hc

theorem writeBytes_append (a : Nat) (bs cs : List UInt8) (m : Mem) :
    writeBytes a (bs ++ cs) m = writeBytes (a + bs.length) cs (writeBytes a bs m) := by
  funext x
  unfold writeBytes
  rw [List.length_append]
  by_cases hfirst : a ≤ x ∧ x < a + bs.length
  · rw [if_pos (by omega), if_neg (by omega), if_pos hfirst, List.getD_eq_getElem?_getD,
      List.getD_eq_getElem?_getD, List.getElem?_append_left (by omega)]
  · by_cases hsecond : a + bs.length ≤ x ∧ x < a + bs.length + cs.length
    · rw [if_pos (by omega), if_pos hsecond, List.getD_eq_getElem?_getD,
        List.getD_eq_getElem?_getD, List.getElem?_append_right (by omega), Nat.sub_sub]
    · rw [if_neg (by omega), if_neg hsecond, if_neg hfirst]

theorem writeBytes_singleton (a : Nat) (c : UInt8) (m : Mem) :
    writeBytes a [c] m = Function.update m a c := by
  funext x
  unfold writeBytes
  by_cases hx : x = a
  · subst hx
    rw [if_pos (by simp), Nat.sub_self, Function.update_self]
    rfl
  · rw [if_neg (by simp; omega), Function.update_of_ne hx]

/-- Bytes that are stored and then turned round are stored in the other order. -/
theorem writeBytes_reverse (a : Nat) (bs : List UInt8) (m : Mem) (x : Nat) :
    writeBytes a bs.reverse m x =
      if a ≤ x ∧ x < a + bs.length then writeBytes a bs m (a + (a + bs.length - 1) - x)
      else writeBytes a bs m x := by
  unfold writeBytes
  rw [List.length_reverse]
  split
  · rename_i hin
    rw [if_pos (by omega), List.getD_eq_getElem?_getD, List.getD_eq_getElem?_getD,
      List.getElem?_reverse (by omega)]
    exact congrArg (fun k => bs[k]?.getD 0) (by omega)
  · rfl

theorem stringAt_writeBytes (hs : 0 ∉ s) :
    StringAt (writeBytes a (s ++ [0]) m) a s := by
  suffices hgen : ∀ t b, (∀ i, (s ++ [0]).getD (b + i) 0 = (t ++ [0]).getD i 0) →
      b + t.length = s.length → 0 ∉ t →
      StringAt (writeBytes a (s ++ [0]) m) (a + b) t from
    hgen s 0 (fun i => by rw [Nat.zero_add]) (Nat.zero_add _) hs
  intro t
  induction t with
  | nil =>
      intro b hbytes hlen _
      refine Eq.trans (if_pos ?_) ?_
      · rw [List.length_append, List.length_singleton]
        rw [List.length_nil] at hlen
        omega
      · rw [Nat.add_sub_cancel_left]
        exact hbytes 0
  | cons c t ih =>
      intro b hbytes hlen hne
      rw [List.length_cons] at hlen
      refine ⟨Eq.trans (if_pos ?_) ?_, (List.ne_of_not_mem_cons hne).symm,
        ih (b + 1) (fun i => ?_) (by omega) (List.not_mem_of_not_mem_cons hne)⟩
      · rw [List.length_append, List.length_singleton]
        omega
      · rw [Nat.add_sub_cancel_left]
        exact hbytes 0
      · rw [show b + 1 + i = b + (i + 1) by omega, hbytes (i + 1)]
        rfl

end Copies

/-! ### Records -/

/-- Store words at offsets from an address. -/
def writeWords (a : Nat) (ws : List (Nat × Nat)) (m : Mem) : Mem :=
  ws.foldl (fun m w => write32 m (a + w.1) w.2) m

section Records

variable {m : Mem} {a hi : Nat} {w : Nat × Nat} {ws : List (Nat × Nat)}

theorem sameOutside_writeWords {lo : Nat} (h : ∀ w ∈ ws, lo ≤ w.1 ∧ w.1 + 4 ≤ hi) :
    SameOutside (a + lo) (a + hi) m (writeWords a ws m) := by
  induction ws generalizing m with
  | nil => exact SameOutside.refl _ _ m
  | cons w ws ih =>
      have hw := h w List.mem_cons_self
      have hfirst : SameOutside (a + lo) (a + hi) m (write32 m (a + w.1) w.2) :=
        SameOutside.write32 (by omega) (by omega) (SameOutside.refl _ _ m)
      exact hfirst.trans (ih fun v hv => h v (List.mem_cons_of_mem w hv))

theorem read32_writeWords (hw : w ∈ ws) (hlt : w.2 < 4294967296)
    (hapart : ws.Pairwise fun v w => v.1 + 4 ≤ w.1 ∨ w.1 + 4 ≤ v.1) :
    read32 (writeWords a ws m) (a + w.1) = w.2 := by
  have hother : ∀ (vs : List (Nat × Nat)) (m : Mem),
      (∀ v ∈ vs, w.1 + 4 ≤ v.1 ∨ v.1 + 4 ≤ w.1) →
        read32 (writeWords a vs m) (a + w.1) = read32 m (a + w.1) := by
    intro vs
    induction vs with
    | nil => exact fun _ _ => rfl
    | cons v vs ih =>
        intro m hvs
        have hv := hvs v List.mem_cons_self
        have hrest := ih (write32 m (a + v.1) v.2) fun u hu => hvs u (List.mem_cons_of_mem v hu)
        exact hrest.trans (read32_write32_of_apart (by omega))
  induction ws generalizing m with
  | nil => exact absurd hw List.not_mem_nil
  | cons v ws ih =>
      obtain ⟨hhead, htail⟩ := List.pairwise_cons.mp hapart
      rcases List.mem_cons.mp hw with rfl | hin
      · exact (hother ws _ hhead).trans (read32_write32_self m _ hlt)
      · exact ih hin htail

end Records

end Vulcanos.Memory
