import Vulcanos.Kernel.Stdio
import Vulcanos.Proof.Itoa
import Vulcanos.Proof.LibcString

/-!
# What the printing functions send to the console

A format is read piece by piece. The scanner looks at a `%`, the spaces behind it and one more byte
in a single round, and that byte may be the NUL, which ends the loop in the next round.
-/

namespace Vulcanos

open Memory Numeral Word

/-- The bytes of one call of `kprint_c`. -/
def Print.sent (x : Print) : List UInt8 := (List.range x.len).map x.buf

/-- The bytes `printf` has sent to the console. -/
def Printf.sent (p : Printf) : List UInt8 := p.prints.flatMap Print.sent

section Strings

variable {m : Mem} {a n i fuel : Nat} {s : List UInt8} {b b' : Buffer} {p : Printf}

/-- **`kprint`** sends the string. -/
theorem kprint_of_stringAt (h : StringAt m a s) (hfits : a + s.length < 4294967296) :
    ∃ x, kprint a m = .ok x ∧ x.sent = s := by
  refine ⟨_, by rw [kprint, strlen_of_stringAt h hfits, ok_bind], ?_⟩
  calc (List.range s.length).map (fun i => m (add32 a i))
      = (List.range s.length).map fun i => m (a + i) :=
        List.map_congr_left fun i hi => congrArg m (add32_eq (by
          have hlt := List.mem_range.mp hi
          omega))
    _ = s := h.map_range

theorem nul_of_strlenLoop (h : strlenLoop a m fuel i = .ok n) : m (add32 a n) = 0 := by
  induction fuel generalizing i with
  | zero => cases h
  | succ fuel ih =>
      rw [strlenLoop] at h
      split at h
      · exact ih h
      · rename_i hnul
        obtain rfl := Except.ok.inj h
        exact read8_eq_zero_iff.mp (not_not.mp hnul)

@[simp]
theorem Printf.sent_print (x : Print) (p : Printf) : (p.print x).sent = p.sent ++ x.sent := by
  rw [sent, print, List.flatMap_append, List.flatMap_singleton]
  rfl

@[simp]
theorem sent_printByte (c : UInt8) : (printByte c).sent = [c] := rfl

theorem Printf.printBuf_formatted {text : List UInt8} (h : Formatted text b b') (hnul : 0 ∉ text)
    (hshort : text.length < 4294967296) (p : Printf) :
    ∃ x, p.printBuf (.ok b') = some ({ p with buf := b' }.print x) ∧ x.sent = text := by
  obtain ⟨x, hkprint, hsent⟩ := kprint_of_stringAt (h.stringAt hnul) (by omega)
  refine ⟨x, ?_, hsent⟩
  have hbind : p.printBuf (.ok b') =
      (kprint 0 b'.bytes).toOption.bind fun x => some ({ p with buf := b' }.print x) := rfl
  rw [hbind, hkprint]
  rfl

theorem Printf.printBuf_uitoa {w radix : Nat} (hw : w < 4294967296) (hlo : 1 < radix)
    (hhi : radix ≤ 36) (p : Printf) :
    ∃ b x, p.printBuf (uitoa w p.buf radix) = some ({ p with buf := b }.print x) ∧
      x.sent = uitoaText w radix := by
  obtain ⟨b, hcall, hformatted⟩ := uitoa_formatted hlo hw p.buf
  have hpre : (uitoaPrefix radix).length ≤ 2 := by
    unfold uitoaPrefix
    split
    · exact Nat.le_refl 2
    · exact Nat.zero_le 2
  have hdigits := length_lowFirst_word hlo hw
  have hlength := length_uitoaText w radix
  obtain ⟨x, hprint, hsent⟩ :=
    Printf.printBuf_formatted hformatted (zero_notMem_uitoaText hlo hhi w) (by omega) p
  exact ⟨b, x, by rw [hcall, hprint], hsent⟩

end Strings

/-! ### The parse of a format -/

/-- A piece of a format: a byte that stands for itself, or a `%`, spaces and one more byte. -/
inductive Piece where
  | literal (c : UInt8)
  | conversion (c : UInt8)
deriving Repr, DecidableEq

/-- The pieces of a format, from behind a `%` and spaces on or not. A format that ends there has the
NUL as its last byte. -/
def piecesFrom : Bool → List UInt8 → List Piece
  | false, [] => []
  | true, [] => [.conversion 0]
  | false, c :: s => if c = 0x25 then piecesFrom true s else .literal c :: piecesFrom false s
  | true, c :: s => if c = 0x20 then piecesFrom true s else .conversion c :: piecesFrom false s

/-- The pieces of a format. -/
def pieces (s : List UInt8) : List Piece := piecesFrom false s

/-- The conversions `i`, `x`, `d`, `c` and `s`. -/
def Piece.TakesArgument : Piece → Prop
  | .literal _ => False
  | .conversion c => c = 0x69 ∨ c = 0x78 ∨ c = 0x64 ∨ c = 0x63 ∨ c = 0x73

instance : DecidablePred Piece.TakesArgument := fun x => by
  cases x <;> unfold Piece.TakesArgument <;> infer_instance

/-- What the pieces print, with these arguments from left to right. A conversion `i` is not among
them. -/
inductive Renders (m : Mem) : List Piece → List Nat → List UInt8 → Prop
  | done {ap : List Nat} : Renders m [] ap []
  | literal {c : UInt8} {xs : List Piece} {ap : List Nat} {out : List UInt8} :
      Renders m xs ap out → Renders m (.literal c :: xs) ap (c :: out)
  | hex {w : Nat} {xs : List Piece} {ap : List Nat} {out : List UInt8} : w < 4294967296 →
      Renders m xs ap out →
      Renders m (.conversion 0x78 :: xs) (w :: ap) (uitoaText w 16 ++ out)
  | dec {w : Nat} {xs : List Piece} {ap : List Nat} {out : List UInt8} : w < 4294967296 →
      Renders m xs ap out →
      Renders m (.conversion 0x64 :: xs) (w :: ap) (uitoaText w 10 ++ out)
  | byte {w : Nat} {xs : List Piece} {ap : List Nat} {out : List UInt8} :
      Renders m xs ap out → Renders m (.conversion 0x63 :: xs) (w :: ap) (UInt8.ofNat w :: out)
  | string {a : Nat} {t : List UInt8} {xs : List Piece} {ap : List Nat} {out : List UInt8} :
      StringAt m a t → a + t.length < 4294967296 → Renders m xs ap out →
      Renders m (.conversion 0x73 :: xs) (a :: ap) (t ++ out)
  | other {c : UInt8} {xs : List Piece} {ap : List Nat} {out : List UInt8} :
      ¬ (Piece.conversion c).TakesArgument → Renders m xs ap out →
      Renders m (.conversion c :: xs) ap (c :: out)

/-! ### The scanner -/

section Scanner

variable {m : Mem} {s format pre t rest : List UInt8} {xs : List Piece} {c : UInt8} {p : Printf}
  {out : List UInt8} {fuel : Nat}

theorem strlenOf_nul (hs : 0 ∉ s) (t : List UInt8) : strlenOf (s ++ 0 :: t) = some s.length := by
  induction s with
  | nil => rfl
  | cons c s ih =>
      rw [List.cons_append, strlenOf, if_pos (List.ne_of_not_mem_cons hs).symm,
        ih (List.not_mem_of_not_mem_cons hs)]
      rfl

theorem getElem?_length_append (pre : List UInt8) (c : UInt8) (rest : List UInt8) :
    (pre ++ c :: rest)[pre.length]? = some c := by
  rw [List.getElem?_append_right (Nat.le_refl _), Nat.sub_self]
  rfl

/-- The spaces of a conversion: what stands behind them is its byte, or the NUL. -/
theorem skipSpaces_spec (hfuel : t.length < fuel) (pre : List UInt8) :
    ∃ spaces u, t = spaces ++ u ∧
      skipSpaces (pre ++ (t ++ [0])) fuel pre.length = some (pre ++ spaces).length ∧
      piecesFrom true t = .conversion (u.headD 0) :: piecesFrom false u.tail := by
  induction t generalizing pre fuel with
  | nil =>
      obtain ⟨fuel, rfl⟩ : ∃ f, fuel = f + 1 := ⟨fuel - 1, by omega⟩
      refine ⟨[], [], rfl, ?_, rfl⟩
      rw [skipSpaces, List.nil_append, getElem?_length_append, List.append_nil]
      rfl
  | cons c t ih =>
      obtain ⟨fuel, rfl⟩ : ∃ f, fuel = f + 1 := ⟨fuel - 1, by omega⟩
      rw [List.length_cons] at hfuel
      have hread : (pre ++ (c :: t ++ [0]))[pre.length]? = some c := getElem?_length_append _ _ _
      by_cases hspace : c = 0x20
      · obtain ⟨spaces, u, hsplit, hskip, hpieces⟩ :=
          ih (show t.length < fuel by omega) (pre ++ [c])
        rw [List.append_assoc, List.length_append] at hskip
        refine ⟨c :: spaces, u, by rw [hsplit]; rfl, ?_, ?_⟩
        · rw [skipSpaces, hread, List.append_cons pre c spaces]
          exact (if_pos hspace).trans hskip
        · rw [piecesFrom, if_pos hspace, hpieces]
      · refine ⟨[], c :: t, rfl, ?_, ?_⟩
        · rw [skipSpaces, hread, List.append_nil]
          exact if_neg hspace
        · rw [piecesFrom, if_neg hspace]
          rfl

/-- How many arguments the pieces take. -/
def argumentsOf (xs : List Piece) : Nat := xs.countP fun x => decide x.TakesArgument

theorem argumentsOf_cons_of_pos (hc : (Piece.conversion c).TakesArgument) (xs : List Piece) :
    argumentsOf (.conversion c :: xs) = argumentsOf xs + 1 :=
  List.countP_cons_of_pos (decide_eq_true hc)

theorem argumentsOf_cons_of_neg {x : Piece} (hx : ¬ x.TakesArgument) (xs : List Piece) :
    argumentsOf (x :: xs) = argumentsOf xs :=
  List.countP_cons_of_neg (by rw [decide_eq_true_iff]; exact hx)

/-- **The `switch`** prints the first piece and leaves the other ones their arguments. -/
theorem convert_spec (hread : format[p.i]? = some c)
    (h : Renders m (.conversion c :: xs) p.ap out) :
    ∃ ap buf x last, convert format m p = some (Printf.print x { p with ap := ap, buf := buf }) ∧
      out = x.sent ++ last ∧ Renders m xs ap last ∧
      ap.drop (argumentsOf xs) = p.ap.drop (argumentsOf (.conversion c :: xs)) := by
  obtain ⟨i, ap, buf, prints⟩ := p
  have hten : 1 < 10 := by decide
  have hhex : 1 < 16 := by decide
  cases h with
  | @hex w _ rest last hw hrest =>
      obtain ⟨b, x, hprint, hsent⟩ :=
        Printf.printBuf_uitoa hw hhex (by decide) ⟨i, rest, buf, prints⟩
      refine ⟨rest, b, x, last, ?_, by rw [hsent], hrest, ?_⟩
      · unfold convert
        rw [hread]
        exact hprint
      · rw [argumentsOf_cons_of_pos (by decide)]
        rfl
  | @dec w _ rest last hw hrest =>
      obtain ⟨b, x, hprint, hsent⟩ :=
        Printf.printBuf_uitoa hw hten (by decide) ⟨i, rest, buf, prints⟩
      refine ⟨rest, b, x, last, ?_, by rw [hsent], hrest, ?_⟩
      · unfold convert
        rw [hread]
        exact hprint
      · rw [argumentsOf_cons_of_pos (by decide)]
        rfl
  | @byte w _ rest last hrest =>
      refine ⟨rest, buf, printByte (UInt8.ofNat w), last, ?_, rfl, hrest, ?_⟩
      · unfold convert
        rw [hread]
        rfl
      · rw [argumentsOf_cons_of_pos (by decide)]
        rfl
  | @string a t _ rest last ht hfits hrest =>
      obtain ⟨x, hkprint, hsent⟩ := kprint_of_stringAt ht hfits
      refine ⟨rest, buf, x, last, ?_, by rw [hsent], hrest, ?_⟩
      · have hstep : convert format m ⟨i, a :: rest, buf, prints⟩ =
            (kprint a m).toOption.bind fun x => some (Printf.print x ⟨i, rest, buf, prints⟩) := by
          unfold convert
          rw [hread]
          rfl
        rw [hstep, hkprint]
        rfl
      · rw [argumentsOf_cons_of_pos (by decide)]
        rfl
  | @other _ _ _ last hother hrest =>
      refine ⟨ap, buf, printByte c, last, ?_, rfl, hrest, by rw [argumentsOf_cons_of_neg hother]⟩
      obtain ⟨hi, hx, hd, hc, hs⟩ : c ≠ 0x69 ∧ c ≠ 0x78 ∧ c ≠ 0x64 ∧ c ≠ 0x63 ∧ c ≠ 0x73 := by
        simpa [Piece.TakesArgument] using hother
      unfold convert
      rw [hread]
      dsimp only [Option.bind_eq_bind, Option.bind_some]
      rw [if_neg hi, if_neg hx, if_neg hd, if_neg hc, if_neg hs]

theorem printfLoop_end (hs : 0 ∉ s) (hi : s.length ≤ p.i) (fuel : Nat) :
    printfLoop (s ++ [0]) m (fuel + 1) p = some p := by
  rw [printfLoop, strlenOf_nul hs []]
  exact if_neg (not_lt_of_ge hi)

theorem format_at (hsplit : s = pre ++ c :: rest) :
    (s ++ [0])[pre.length]? = some c ∧ pre.length < s.length := by
  subst hsplit
  constructor
  · rw [List.append_assoc]
    exact getElem?_length_append _ _ _
  · rw [List.length_append, List.length_cons]
    omega

theorem printfLoop_literal (hs : 0 ∉ s) (hsplit : s = pre ++ c :: rest) (hi : p.i = pre.length)
    (hc : c ≠ 0x25) (fuel : Nat) :
    printfLoop (s ++ [0]) m (fuel + 1) p =
      printfLoop (s ++ [0]) m fuel { p.print (printByte c) with i := p.i + 1 } := by
  obtain ⟨hread, hlt⟩ := format_at hsplit
  rw [← hi] at hread hlt
  rw [printfLoop, strlenOf_nul hs []]
  dsimp only [Option.bind_eq_bind, Option.bind_some]
  rw [if_pos hlt, hread]
  exact if_neg hc

theorem printfLoop_conversion (hs : 0 ∉ s) (hsplit : s = pre ++ 0x25 :: t)
    (hi : p.i = pre.length) (h : Renders m (piecesFrom true t) p.ap out) (fuel : Nat) :
    ∃ ap buf x last spaces u, t = spaces ++ u ∧ out = x.sent ++ last ∧
      printfLoop (s ++ [0]) m (fuel + 1) p = printfLoop (s ++ [0]) m fuel
        { Printf.print x { p with ap := ap, buf := buf } with
          i := (pre ++ [0x25] ++ spaces).length + 1 } ∧
      Renders m (piecesFrom false u.tail) ap last ∧
      ap.drop (argumentsOf (piecesFrom false u.tail)) =
        p.ap.drop (argumentsOf (piecesFrom true t)) := by
  obtain ⟨hread, hlt⟩ := format_at hsplit
  rw [← hi] at hread hlt
  have hfuel : t.length < (s ++ [0]).length + 1 := by
    rw [hsplit, List.length_append, List.length_append, List.length_cons]
    omega
  obtain ⟨spaces, u, ht, hskip, hpieces⟩ := skipSpaces_spec hfuel (pre ++ [0x25])
  have hformat : s ++ [0] = pre ++ [0x25] ++ (t ++ [0]) := by
    rw [hsplit, List.append_assoc, List.append_assoc]
    rfl
  have hbyte : (s ++ [0])[(pre ++ [0x25] ++ spaces).length]? = some (u.headD 0) := by
    rw [hformat, ht, List.append_assoc spaces, ← List.append_assoc (pre ++ [0x25])]
    cases u with
    | nil => exact getElem?_length_append _ _ _
    | cons c u => exact getElem?_length_append _ _ _
  rw [hpieces] at h
  obtain ⟨ap, buf, x, last, hconvert, hout, hrest, hap⟩ :=
    convert_spec (p := { p with i := (pre ++ [0x25] ++ spaces).length }) hbyte h
  refine ⟨ap, buf, x, last, spaces, u, ht, hout, ?_, hrest, by rw [hap, hpieces]⟩
  have hnext : p.i + 1 = (pre ++ [0x25]).length := by
    rw [hi, List.length_append, List.length_singleton]
  rw [printfLoop, strlenOf_nul hs []]
  dsimp only [Option.bind_eq_bind, Option.bind_some]
  rw [if_pos hlt, hread]
  dsimp only [Option.bind_some]
  rw [if_pos rfl, hnext]
  rw [← hformat] at hskip
  rw [hskip]
  dsimp only [Option.bind_some]
  rw [hconvert]
  rfl

/-- **The loop of `printf`** prints what the pieces of the rest of the format print, and takes an
argument for each of them that needs one. -/
theorem printfLoop_renders (hs : 0 ∉ s) (hsplit : s = pre ++ rest) (hi : p.i = pre.length)
    (hfuel : rest.length < fuel) (h : Renders m (pieces rest) p.ap out) :
    ∃ q, printfLoop (s ++ [0]) m fuel p = some q ∧ q.sent = p.sent ++ out ∧
      q.ap = p.ap.drop (argumentsOf (pieces rest)) := by
  induction fuel generalizing pre rest p out with
  | zero => exact absurd hfuel (Nat.not_lt_zero _)
  | succ fuel ih =>
      cases rest with
      | nil =>
          cases h
          have hend : s.length ≤ p.i := by rw [hsplit, hi, List.append_nil]
          exact ⟨p, printfLoop_end hs hend fuel, (List.append_nil _).symm, rfl⟩
      | cons c rest =>
          rw [List.length_cons] at hfuel
          by_cases hc : c = 0x25
          · subst hc
            have hpieces : pieces (0x25 :: rest) = piecesFrom true rest := by
              rw [pieces, piecesFrom, if_pos rfl]
            rw [hpieces] at h ⊢
            obtain ⟨ap, buf, x, last, spaces, u, hrest, hout, hround, hlater, hap⟩ :=
              printfLoop_conversion hs hsplit hi h fuel
            have hsent : ∀ q : Printf, q.sent = (p.print x).sent ++ last → q.sent = p.sent ++ out :=
              fun q hq => by rw [hq, Printf.sent_print, hout, List.append_assoc]
            cases u with
            | nil =>
                -- the format ends inside the conversion, and the NUL has been printed
                obtain ⟨fuel, rfl⟩ : ∃ f, fuel = f + 1 := ⟨fuel - 1, by omega⟩
                cases hlater
                have hend : s.length ≤ (pre ++ [0x25] ++ spaces).length + 1 := by
                  rw [hsplit, hrest, List.append_nil, List.append_cons]
                  exact Nat.le_succ _
                refine ⟨_, hround.trans (printfLoop_end hs hend fuel), hsent _ ?_, hap⟩
                exact (List.append_nil _).symm
            | cons d u =>
                have hlength : u.length < fuel := by
                  rw [hrest, List.length_append, List.length_cons] at hfuel
                  omega
                have hsplit' : s = (pre ++ [0x25] ++ spaces ++ [d]) ++ u := by
                  rw [hsplit, hrest]
                  simp only [List.append_assoc, List.cons_append, List.nil_append]
                have hplace : (pre ++ [0x25] ++ spaces).length + 1 =
                    (pre ++ [0x25] ++ spaces ++ [d]).length := by
                  simp only [List.length_append, List.length_singleton]
                obtain ⟨q, hloop, hq, hqap⟩ :=
                  ih (p := { Printf.print x { p with ap := ap, buf := buf } with
                    i := (pre ++ [0x25] ++ spaces).length + 1 }) hsplit'
                    hplace hlength hlater
                exact ⟨q, hround.trans hloop, hsent q hq, hqap.trans hap⟩
          · have hpieces : pieces (c :: rest) = .literal c :: pieces rest := by
              rw [pieces, piecesFrom, if_neg hc]
              rfl
            rw [hpieces] at h ⊢
            cases h with
            | @literal _ _ _ last hrest =>
                have hsplit' : s = (pre ++ [c]) ++ rest := by
                  rw [hsplit, List.append_cons]
                obtain ⟨q, hloop, hsent, hap⟩ :=
                  ih (p := { p.print (printByte c) with i := p.i + 1 }) hsplit'
                    (by rw [List.length_append, ← hi]; rfl) (by omega) hrest
                refine ⟨q, (printfLoop_literal hs hsplit hi hc fuel).trans hloop, ?_, ?_⟩
                · calc q.sent = (p.print (printByte c)).sent ++ last := hsent
                    _ = p.sent ++ c :: last := by
                      rw [Printf.sent_print, List.append_assoc]
                      rfl
                · rw [argumentsOf_cons_of_neg id]
                  exact hap

/-- **`printf`.** -/
theorem printf_of_renders (hs : 0 ∉ s) {ap : List Nat} (h : Renders m (pieces s) ap out)
    (buf : Buffer) :
    ∃ q, printf (s ++ [0]) m ap buf = some q ∧ q.sent = out ∧
      q.ap = ap.drop (argumentsOf (pieces s)) := by
  have hfuel : s.length < (s ++ [0]).length + 1 := by
    rw [List.length_append]
    omega
  exact printfLoop_renders (p := ⟨0, ap, buf, []⟩) hs (List.nil_append s).symm rfl hfuel h

end Scanner

/-! ### `kprint_dec` -/

section Dec

variable {m : Mem} {c c2 : Buffer} {num x fuel i k : Nat}

theorem decLoop_eq (hfuel : (Nat.digits 10 x).length < fuel) (i : Nat) (c : Buffer) :
    decLoop fuel (x : Int) i c =
      .ok (i + (Nat.digits 10 x).length, c.storeAll i ((Nat.digits 10 x).map digitByte)) := by
  induction fuel generalizing x i c with
  | zero => exact absurd hfuel (Nat.not_lt_zero _)
  | succ fuel ih =>
      rw [decLoop]
      by_cases hx : x = 0
      · subst hx
        exact if_neg (lt_irrefl 0)
      · have hdigits := Nat.digits_eq_cons_digits_div (b := 10) (by decide) hx
        have hdigit : UInt8.ofNat (0x30 + (Int.tmod x 10).toNat) = digitByte (x % 10) := by
          rw [digitByte, if_pos (Nat.mod_lt x (by decide)), Nat.add_comm]
          rfl
        rw [hdigits, List.length_cons] at hfuel
        have hrest := ih (x := x / 10) (by omega) (i + 1) (c.store i (digitByte (x % 10)))
        have hplace : i + ((Nat.digits 10 (x / 10)).length + 1) =
            i + 1 + (Nat.digits 10 (x / 10)).length := by omega
        rw [if_pos (by omega), hdigit, hdigits, List.length_cons, List.map_cons, Buffer.storeAll,
          hplace]
        exact hrest

theorem bytes_decCopy (n j : Nat) (c2 : Buffer) (k : Nat) :
    (decCopy c n j c2).bytes k = if k < n then c.bytes (j + (n - 1 - k)) else c2.bytes k := by
  induction n generalizing j c2 with
  | zero => rfl
  | succ n ih =>
      rw [decCopy, ih, Buffer.bytes_store, Function.update_apply]
      by_cases hlast : k = n
      · rw [if_neg (by omega), if_pos hlast, if_pos (by omega)]
        exact congrArg c.bytes (by omega)
      · by_cases hk : k < n
        · rw [if_pos hk, if_pos (by omega)]
          exact congrArg c.bytes (by omega)
        · rw [if_neg hk, if_neg hlast, if_neg (by omega)]

theorem stringAt_decCopy {bs : List UInt8} (hbs : 0 ∉ bs) (c c2 : Buffer) :
    StringAt (decCopy ((c.storeAll 0 bs).store bs.length 0) bs.length 0
      (c2.store bs.length 0)).bytes 0 bs.reverse := by
  have hnul : 0 ∉ bs.reverse := fun h => hbs (List.mem_reverse.mp h)
  refine (stringAt_writeBytes (m := c.bytes) hnul).congr fun k _ hk => ?_
  rw [List.length_reverse, Nat.zero_add] at hk
  rw [bytes_decCopy, writeBytes_append, writeBytes_singleton, Function.update_apply, Nat.zero_add,
    Nat.zero_add, List.length_reverse]
  by_cases hlast : k = bs.length
  · rw [if_pos hlast, if_neg (by omega), Buffer.bytes_store, hlast, Function.update_self]
  · rw [if_neg hlast, if_pos (by omega), Buffer.bytes_store, Function.update_of_ne (by omega),
      Buffer.bytes_storeAll, writeBytes_reverse, if_pos (by omega)]
    exact congrArg _ (by omega)

theorem uitoaText_ten (hnum : num ≠ 0) :
    uitoaText num 10 = ((Nat.digits 10 num).map digitByte).reverse := by
  rw [uitoaText, numeral, lowFirst, if_neg hnum, List.map_reverse]
  rfl

/-- **`kprint_dec`** prints a positive `int32_t`. -/
theorem kprintDec_of_pos (hpos : 0 < num) (hnum : num < 2147483648) (m : Mem) (c c2 : Buffer) :
    ∃ x, kprintDec num m c c2 = .ok x ∧ x.sent = uitoaText num 10 := by
  have hne : num ≠ 0 := Nat.ne_of_gt hpos
  have hradix : 1 < 10 := by decide
  have hshort : (Nat.digits 10 num).length < 11 :=
    Nat.lt_succ_of_le ((Nat.digits_length_le_iff hradix num).mpr (Nat.lt_trans hnum (by decide)))
  have hloop := decLoop_eq hshort 0 c
  have hnul : 0 ∉ (Nat.digits 10 num).map digitByte := by
    rw [← List.mem_reverse, ← uitoaText_ten hne]
    exact zero_notMem_uitoaText hradix (by decide) num
  have hstring := stringAt_decCopy hnul c c2
  rw [← uitoaText_ten hne] at hstring
  have hlength : (uitoaText num 10).length = (Nat.digits 10 num).length := by
    rw [uitoaText_ten hne, List.length_reverse, List.length_map]
  obtain ⟨x, hkprint, hsent⟩ := kprint_of_stringAt hstring (by omega)
  refine ⟨x, ?_, hsent⟩
  rw [List.length_map] at hkprint
  rw [kprintDec, if_neg hne, int32_eq hnum, hloop, ok_bind, Nat.zero_add]
  exact hkprint

/-- What an `int32_t` cannot hold is not positive, and the first loop has no round. -/
theorem kprintDec_of_ge (hlo : 2147483648 ≤ num) (hnum : num < 4294967296) (m : Mem)
    (c c2 : Buffer) : ∃ x, kprintDec num m c c2 = .ok x ∧ x.sent = [] := by
  have hloop : decLoop 11 (int32 num) 0 c = .ok (0, c) :=
    if_neg (not_lt_of_gt (int32_neg hlo hnum))
  have hnul : (c2.store 0 0).bytes 0 = 0 := Function.update_self 0 0 c2.bytes
  have hstring : StringAt (c2.store 0 0).bytes 0 [] := hnul
  obtain ⟨x, hkprint, hsent⟩ := kprint_of_stringAt hstring (by decide)
  refine ⟨x, ?_, hsent⟩
  rw [kprintDec, if_neg (by omega), hloop, ok_bind]
  exact hkprint

theorem kprintDec_zero_iff {x : Print} (hx : x.sent = [0x30]) (hcall : kprint 0x30 m = .ok x) :
    m 0x30 = 0x30 ∧ m 0x31 = 0 := by
  unfold kprint at hcall
  obtain ⟨len, hlen, hprint⟩ := bind_eq_ok.mp hcall
  obtain rfl := Except.ok.inj hprint
  have hone : len = 1 := by
    have hlength := congrArg List.length hx
    rwa [Print.sent, List.length_map, List.length_range] at hlength
  subst hone
  exact ⟨(List.cons.inj hx).1, nul_of_strlenLoop hlen⟩

end Dec

end Vulcanos
