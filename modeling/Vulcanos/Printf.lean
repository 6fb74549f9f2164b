import Vulcanos.Library.Run
import Vulcanos.Proof.Stdio

/-!
# Printing

`printf` prints what its format says, piece by piece, if there is no `%i` in it. `kprint_dec` prints
the same number as a `%d`, but not zero, and nothing at all for what an `int32_t` cannot hold.
-/

namespace Vulcanos

open Memory Numeral Word

/-! ### `printf` -/

/-- There is an argument for each conversion that takes one, and that of an `s` points to a string.
-/
inductive Supplied (m : Mem) : List Piece → List Nat → Prop
  | done {ap : List Nat} : Supplied m [] ap
  | literal {c : UInt8} {xs : List Piece} {ap : List Nat} :
      Supplied m xs ap → Supplied m (.literal c :: xs) ap
  | take {c : UInt8} {w : Nat} {xs : List Piece} {ap : List Nat} :
      (Piece.conversion c).TakesArgument → w < 4294967296 →
      (c = 0x73 → ∃ t, StringAt m w t ∧ w + t.length < 4294967296) → Supplied m xs ap →
      Supplied m (.conversion c :: xs) (w :: ap)
  | skip {c : UInt8} {xs : List Piece} {ap : List Nat} :
      ¬ (Piece.conversion c).TakesArgument → Supplied m xs ap →
      Supplied m (.conversion c :: xs) ap

section Formats

variable {m : Mem} {s : List UInt8} {xs : List Piece} {ap : List Nat} {c : UInt8}

theorem Supplied.renders (h : Supplied m xs ap) (hi : .conversion 0x69 ∉ xs) :
    ∃ out, Renders m xs ap out := by
  induction h with
  | done => exact ⟨[], .done⟩
  | literal _ ih =>
      obtain ⟨out, hout⟩ := ih (List.not_mem_of_not_mem_cons hi)
      exact ⟨_, .literal hout⟩
  | take htakes hw hstring _ ih =>
      obtain ⟨out, hout⟩ := ih (List.not_mem_of_not_mem_cons hi)
      rcases htakes with rfl | rfl | rfl | rfl | rfl
      · exact absurd List.mem_cons_self hi
      · exact ⟨_, .hex hw hout⟩
      · exact ⟨_, .dec hw hout⟩
      · exact ⟨_, .byte hout⟩
      · obtain ⟨t, ht, hfits⟩ := hstring rfl
        exact ⟨_, .string ht hfits hout⟩
  | skip hnone _ ih =>
      obtain ⟨out, hout⟩ := ih (List.not_mem_of_not_mem_cons hi)
      exact ⟨_, .other hnone hout⟩

/-- **`printf` prints the pieces of its format**, one after another. It ends, reads nothing behind
the NUL, and takes an argument for each conversion `x`, `d`, `c` and `s` and for no other. -/
theorem printf_renders (hs : 0 ∉ s) (hi : .conversion 0x69 ∉ pieces s)
    (hap : Supplied m (pieces s) ap) (buf : Buffer) :
    ∃ q out, printf (s ++ [0]) m ap buf = some q ∧ Renders m (pieces s) ap out ∧ q.sent = out ∧
      q.ap = ap.drop (argumentsOf (pieces s)) := by
  obtain ⟨out, hout⟩ := hap.renders hi
  obtain ⟨q, hcall, hsent, hrest⟩ := printf_of_renders hs hout buf
  exact ⟨q, out, hcall, hout, hsent, hrest⟩

/-- A format that ends inside a conversion, behind one that has an argument. -/
theorem printf_renders_open :
    ∃ q out, printf (literal "%x% ") (fun _ => 0) [255] ⟨fun _ => 0, []⟩ = some q ∧
      Renders (fun _ => 0) (pieces (bytesOf "%x% ")) [255] out ∧ q.sent = out ∧
      q.ap = [255].drop (argumentsOf (pieces (bytesOf "%x% "))) :=
  have hpieces : pieces (bytesOf "%x% ") = [.conversion 0x78, .conversion 0] := by decide
  have hap : Supplied (fun _ => 0) (pieces (bytesOf "%x% ")) [255] :=
    hpieces ▸ .take (by decide) (by decide) (fun h => absurd h (by decide))
      (.skip (by decide) .done)
  printf_renders (by decide) (by decide) hap _

/-- A conversion `%` takes no argument, so a `d` behind it takes the first. -/
theorem printf_percent :
    pieces (bytesOf "%%%d") = [.conversion 0x25, .conversion 0x64] ∧
      ∃ q, printf (literal "%%%d") (fun _ => 0) [1, 2] ⟨fun _ => 0, []⟩ = some q ∧
        q.sent = bytesOf "%1" ∧ q.ap = [2] := by
  have hpieces : pieces (bytesOf "%%%d") = [.conversion 0x25, .conversion 0x64] := by decide
  have hrenders : Renders (fun _ => 0) (pieces (bytesOf "%%%d")) [1, 2]
      (0x25 :: (uitoaText 1 10 ++ [])) := by
    rw [hpieces]
    exact .other (by decide) (.dec (by decide) .done)
  obtain ⟨q, hcall, hsent, hap⟩ := printf_of_renders (by decide) hrenders ⟨fun _ => 0, []⟩
  refine ⟨hpieces, q, hcall, hsent.trans (by decide), ?_⟩
  rw [hap, hpieces]
  decide

end Formats

/-! ### On the console

All that `printf` prints is white on black, so the console shows the bytes it sends as if `kprint_c`
had been called once for all of them.
-/

/-- White on black. -/
def Print.Plain (x : Print) : Prop :=
  x.fg = TtyColors.white.code ∧ x.bg = TtyColors.black.code

/-- All calls so far are plain. -/
def Printf.Plain (p : Printf) : Prop := ∀ x ∈ p.prints, x.Plain

/-- The console after some calls of `kprint_c`. -/
def Tty.afterPrints (prints : List Print) (t : Tty) : Tty :=
  prints.foldl (fun t x => t.kprintC x.buf x.len x.fg x.bg) t

section Console

variable {m : Mem} {format s : List UInt8} {a fuel w : Nat} {x : Print} {p q : Printf}
  {r : Except Stop Buffer} {prints : List Print} {ap : List Nat}

theorem plain_kprint (h : kprint a m = .ok x) : x.Plain := by
  obtain ⟨len, -, hprint⟩ := bind_eq_ok.mp h
  obtain rfl := Except.ok.inj hprint
  exact ⟨rfl, rfl⟩

theorem Printf.Plain.print (h : p.Plain) (hx : x.Plain) : (p.print x).Plain := by
  intro y hy
  rcases List.mem_append.mp hy with hold | hnew
  · exact h y hold
  · obtain rfl := List.mem_singleton.mp hnew
    exact hx

theorem Printf.Plain.vaArg (h : p.Plain) (hcall : p.vaArg = some (w, q)) : q.Plain := by
  unfold Printf.vaArg at hcall
  split at hcall
  · cases hcall
  · obtain ⟨rfl, rfl⟩ := Prod.mk.inj (Option.some.inj hcall)
    exact h

theorem Printf.Plain.printBuf (h : p.Plain) (hcall : p.printBuf r = some q) : q.Plain := by
  obtain ⟨buf, -, hprint⟩ := Option.bind_eq_some_iff.mp hcall
  obtain ⟨x, hkprint, hlast⟩ := Option.bind_eq_some_iff.mp hprint
  obtain rfl := Option.some.inj hlast
  have hbuf : Printf.Plain { p with buf := buf } := h
  exact hbuf.print (plain_kprint (Run.toOption_eq_some.mp hkprint))

theorem Printf.Plain.convert (h : p.Plain) (hcall : convert format m p = some q) : q.Plain := by
  obtain ⟨c, -, hcall⟩ := Option.bind_eq_some_iff.mp hcall
  have htake : ∀ {f : Nat × Printf → Option Printf},
      (∀ v, v.2.Plain → f v = some q → q.Plain) → p.vaArg >>= f = some q → q.Plain := by
    intro f hf hbind
    obtain ⟨v, hva, hlast⟩ := Option.bind_eq_some_iff.mp hbind
    exact hf v (h.vaArg hva) hlast
  split at hcall
  · exact htake (fun v hv hlast => hv.printBuf hlast) hcall
  split at hcall
  · exact htake (fun v hv hlast => hv.printBuf hlast) hcall
  split at hcall
  · exact htake (fun v hv hlast => hv.printBuf hlast) hcall
  split at hcall
  · refine htake (fun v hv hlast => ?_) hcall
    obtain rfl := Option.some.inj hlast
    exact hv.print ⟨rfl, rfl⟩
  split at hcall
  · refine htake (fun v hv hlast => ?_) hcall
    obtain ⟨x, hkprint, hprint⟩ := Option.bind_eq_some_iff.mp hlast
    obtain rfl := Option.some.inj hprint
    exact hv.print (plain_kprint (Run.toOption_eq_some.mp hkprint))
  · obtain rfl := Option.some.inj hcall
    exact h.print ⟨rfl, rfl⟩

theorem Printf.Plain.printfLoop (h : p.Plain) (hcall : printfLoop format m fuel p = some q) :
    q.Plain := by
  induction fuel generalizing p with
  | zero => cases hcall
  | succ fuel ih =>
      obtain ⟨len, -, hcall⟩ := Option.bind_eq_some_iff.mp hcall
      split at hcall
      · obtain ⟨c, -, hcall⟩ := Option.bind_eq_some_iff.mp hcall
        split at hcall
        · obtain ⟨i, -, hcall⟩ := Option.bind_eq_some_iff.mp hcall
          obtain ⟨p', hconvert, hcall⟩ := Option.bind_eq_some_iff.mp hcall
          have hplaced : Printf.Plain { p with i := i } := h
          have hconverted : p'.Plain := hplaced.convert hconvert
          have hnext : Printf.Plain { p' with i := p'.i + 1 } := hconverted
          exact ih hnext hcall
        · have hbyte : (printByte c).Plain := ⟨rfl, rfl⟩
          have hnext : Printf.Plain { p.print (printByte c) with
            i := (p.print (printByte c)).i + 1 } := h.print hbyte
          exact ih hnext hcall
      · obtain rfl := Option.some.inj hcall
        exact h

theorem map_getD_range (s : List UInt8) :
    (List.range s.length).map (fun i => s.getD i 0) = s := by
  apply List.ext_getElem
  · rw [List.length_map, List.length_range]
  · intro i hi hi'
    rw [List.getElem_map, List.getElem_range, List.getD_eq_getElem _ _ hi']

theorem Tty.afterPrints_eq (h : ∀ x ∈ prints, x.Plain) (t : Tty) :
    t.afterPrints prints = t.kprintStr (prints.flatMap Print.sent) .white .black := by
  have hfold : ∀ (s : List UInt8) (t : Tty), t.kprintStr s .white .black =
      s.foldl (fun t c => t.kprintByte c TtyColors.white.code TtyColors.black.code) t := by
    intro s t
    calc
      t.kprintStr s .white .black = ((List.range s.length).map fun i => s.getD i 0).foldl
          (fun t c => t.kprintByte c TtyColors.white.code TtyColors.black.code) t := by
        rw [List.foldl_map]
        rfl
      _ = _ := by rw [map_getD_range]
  rw [hfold]
  induction prints generalizing t with
  | nil => rfl
  | cons x xs ih =>
      obtain ⟨hfg, hbg⟩ := h x List.mem_cons_self
      have hrest := ih (fun y hy => h y (List.mem_cons_of_mem x hy))
      have hfirst : x.sent.foldl (fun t c => t.kprintByte c TtyColors.white.code
          TtyColors.black.code) t = t.kprintC x.buf x.len x.fg x.bg := by
        rw [Print.sent, List.foldl_map, hfg, hbg]
        rfl
      rw [List.flatMap_cons, List.foldl_append, hfirst, ← hrest]
      rfl

/-- **The console shows what `printf` has printed.** -/
theorem printf_shows (hs : 0 ∉ s) {out : List UInt8} (h : Renders m (pieces s) ap out)
    (buf : Buffer) (t : Tty) :
    ∃ q, printf (s ++ [0]) m ap buf = some q ∧
      t.afterPrints q.prints = t.kprintStr out .white .black := by
  obtain ⟨q, hcall, hsent, -⟩ := printf_of_renders hs h buf
  have hstart : Printf.Plain ⟨0, ap, buf, []⟩ := fun x hx => absurd hx List.not_mem_nil
  exact ⟨q, hcall, hsent ▸ Tty.afterPrints_eq (hstart.printfLoop hcall) t⟩

end Console

/-! ### `kprint_dec` -/

/-- `kprint_dec` and `printf` with a `%d` send the same bytes to the console. -/
def SameDecimal (num : Nat) (m : Mem) (c c2 buf : Buffer) : Prop :=
  ∃ x q, kprintDec num m c c2 = .ok x ∧ printf (literal "%d") m [num] buf = some q ∧
    x.sent = q.sent

section Decimal

variable {m : Mem} {num : Nat}

theorem printf_decimal (hnum : num < 4294967296) (m : Mem) (buf : Buffer) :
    ∃ q, printf (literal "%d") m [num] buf = some q ∧ q.sent = uitoaText num 10 := by
  have hpieces : pieces (bytesOf "%d") = [.conversion 0x64] := by decide
  have hrenders : Renders m (pieces (bytesOf "%d")) [num] (uitoaText num 10 ++ []) := by
    rw [hpieces]
    exact .dec hnum .done
  obtain ⟨q, hcall, hsent, -⟩ := printf_of_renders (by decide) hrenders buf
  exact ⟨q, hcall, hsent.trans (List.append_nil _)⟩

/-- **The two agree on what a positive `int32_t` can hold**, and on zero if the byte at address 0x30
is a `0` and the next one a NUL. -/
theorem sameDecimal_iff (hnum : num < 4294967296) (m : Mem) (c c2 buf : Buffer) :
    SameDecimal num m c c2 buf ↔
      0 < num ∧ num < 2147483648 ∨ num = 0 ∧ m 0x30 = 0x30 ∧ m 0x31 = 0 := by
  obtain ⟨q, hprintf, hq⟩ := printf_decimal hnum m buf
  have hzero : uitoaText 0 10 = [0x30] := by decide
  constructor
  · rintro ⟨x, q', hkprint, hprintf', hsame⟩
    obtain rfl := Option.some.inj (hprintf.symm.trans hprintf')
    rcases Nat.eq_zero_or_pos num with rfl | hpos
    · have hdigit : x.sent = [0x30] := by
        calc
          x.sent = q.sent := hsame
          _ = uitoaText 0 10 := hq
          _ = [0x30] := hzero
      exact Or.inr ⟨rfl, kprintDec_zero_iff hdigit hkprint⟩
    · refine Or.inl ⟨hpos, not_le.mp fun hge => ?_⟩
      obtain ⟨x', hkprint', hx'⟩ := kprintDec_of_ge hge hnum m c c2
      obtain rfl := Except.ok.inj (hkprint.symm.trans hkprint')
      have hdigits := isNumeral_numeral (show 1 < 10 by decide) num
      have hempty : (numeral 10 num).map digitByte = [] := by
        rw [← hx', hsame, hq]
        rfl
      exact hdigits.ne_nil (List.map_eq_nil_iff.mp hempty)
  · rintro (⟨hpos, hlt⟩ | ⟨rfl, hdigit, hnul⟩)
    · obtain ⟨x, hkprint, hx⟩ := kprintDec_of_pos hpos hlt m c c2
      exact ⟨x, q, hkprint, hprintf, hx.trans hq.symm⟩
    · have hstring : StringAt m 0x30 [0x30] := ⟨hdigit, by decide, hnul⟩
      obtain ⟨x, hkprint, hx⟩ := kprint_of_stringAt hstring (by decide)
      refine ⟨x, q, hkprint, hprintf, ?_⟩
      calc
        x.sent = [0x30] := hx
        _ = uitoaText 0 10 := hzero.symm
        _ = q.sent := hq.symm

/-- The number 1024. -/
theorem sameDecimal_kib :
    SameDecimal 1024 (fun _ => 0) ⟨fun _ => 0, []⟩ ⟨fun _ => 0, []⟩ ⟨fun _ => 0, []⟩ :=
  (sameDecimal_iff (by decide) _ _ _ _).mpr (Or.inl (by decide))

/-- The number 2^31: the one prints nothing, the other ten digits. -/
theorem not_sameDecimal_large :
    (∃ x, kprintDec 2147483648 (fun _ => 0) ⟨fun _ => 0, []⟩ ⟨fun _ => 0, []⟩ = .ok x ∧
      x.sent = []) ∧
    (∃ q, printf (literal "%d") (fun _ => 0) [2147483648] ⟨fun _ => 0, []⟩ = some q ∧
      q.sent = bytesOf "2147483648") ∧
    ¬ SameDecimal 2147483648 (fun _ => 0) ⟨fun _ => 0, []⟩ ⟨fun _ => 0, []⟩
      ⟨fun _ => 0, []⟩ := by
  obtain ⟨x, hkprint, hx⟩ := kprintDec_of_ge (show 2147483648 ≤ 2147483648 by decide) (by decide)
    (fun _ => 0) ⟨fun _ => 0, []⟩ ⟨fun _ => 0, []⟩
  obtain ⟨q, hprintf, hq⟩ :=
    printf_decimal (show 2147483648 < 4294967296 by decide) (fun _ => 0) ⟨fun _ => 0, []⟩
  have htext : uitoaText 2147483648 10 = bytesOf "2147483648" := by decide
  refine ⟨⟨x, hkprint, hx⟩, ⟨q, hprintf, hq.trans htext⟩, ?_⟩
  rintro ⟨x', q', hkprint', hprintf', hsame⟩
  obtain rfl := Except.ok.inj (hkprint.symm.trans hkprint')
  obtain rfl := Option.some.inj (hprintf.symm.trans hprintf')
  rw [hx, hq, htext] at hsame
  exact absurd hsame (by decide)

end Decimal

end Vulcanos
