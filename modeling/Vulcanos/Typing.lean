import Vulcanos.Library.Run
import Vulcanos.Console
import Vulcanos.Proof.Keyboard

/-!
# Typing stays on the screen

The driver lets a backspace through while characters are pending, the console goes one column back
for it. Where a line has been wrapped or a tab typed, the pending characters are more than the
columns, and the column is taken below zero.
-/

namespace Vulcanos

open Run

theorem Tty.Framed.processCommand {t : Tty} (h : t.Framed) (cmd : List UInt8)
    (prints : List Print) : (processCommand cmd prints t).Framed := by
  unfold Vulcanos.processCommand
  split
  · exact h.clearPrompt
  · clear * - h
    induction prints generalizing t with
    | nil => exact h
    | cons p prints ih => exact ih (h.kprintC p.buf p.len p.fg p.bg)

section Typing

variable (past : Nat → UInt8)

/-- A press of a key with a character, on a line with room for it. -/
def KeyEvent.Typed (e : KeyEvent) (k : Keyboard) : Prop :=
  ¬ e.Release ∧ e.scanCode < keyboardScanCodes.length ∧ keycodeOf past e.scanCode ≠ 0 ∧
    (e.Fills past → k.cmdIndex < 511)

instance (e : KeyEvent) (k : Keyboard) : Decidable (e.Typed past k) :=
  inferInstanceAs (Decidable (_ ∧ _))

def KeyEvent.StaysOnScreen (e : KeyEvent) (k : Keyboard) : Prop :=
  (keyboardCallback past e k).tty.Framed

/-- A backspace that deletes has a column to go back to. -/
def KeyEvent.HasColumn (e : KeyEvent) (k : Keyboard) : Prop :=
  e.Erases past → 0 < k.cmdIndex → 0 < k.tty.fbCol

/-- The line has room and the screen is in order. -/
structure Prompted (k : Keyboard) : Prop where
  framed : k.tty.Framed
  holds : ∃ slots, k.Holds slots ∧ slots.length ≤ 511

variable {past} {k : Keyboard}

theorem Prompted.staysOnScreen_iff (e : KeyEvent) (h : Prompted k) :
    e.StaysOnScreen past k ↔ e.HasColumn past k := by
  obtain ⟨slots, hholds, hlen⟩ := h.holds
  have hindex := hholds.cmdIndex
  unfold KeyEvent.StaysOnScreen
  rcases e.kind past with hrelease | herase | henter | hfill
  · refine iff_of_true ?_ fun herase => absurd hrelease herase.1
    rw [Keyboard.callback_release hrelease]
    split <;> exact h.framed
  · rw [Keyboard.tty_callback_erase (by omega) herase]
    by_cases hempty : k.cmdIndex = 0
    · rw [if_pos hempty]
      exact iff_of_true h.framed fun _ hpos => absurd hempty (by omega)
    · rw [if_neg hempty]
      constructor
      · intro hback _ _
        by_contra hzero
        have hwrap : k.tty.backspace.fbCol = 4294967295 := by
          change Word.sub32 k.tty.fbCol 1 = 4294967295
          rw [Nat.eq_zero_of_not_pos hzero]
          rfl
        have hlt := hback.onScreen.2
        omega
      · intro hcol
        exact h.framed.backspace (hcol herase (by omega))
  · refine iff_of_true ?_ ?_
    · rw [Keyboard.tty_callback_enter henter]
      exact (h.framed.processCommand _ _).initPrompt
    · intro herase
      have heq := herase.2.symm.trans henter.2
      exact absurd heq (by decide)
  · refine iff_of_true ?_ fun herase => absurd herase.2 hfill.2.1
    rw [Keyboard.callback_fill hfill]
    exact h.framed.kprintC _ _ _ _

theorem Prompted.step (e : KeyEvent) (h : Prompted k) (htyped : e.Typed past k)
    (hscreen : e.StaysOnScreen past k) : Prompted (keyboardCallback past e k) := by
  obtain ⟨slots, hholds, hlen⟩ := h.holds
  refine ⟨hscreen, pend past e slots, hholds.callback (by omega), ?_⟩
  by_cases hfill : e.Fills past
  · have hroom := htyped.2.2.2 hfill
    have hindex := hholds.cmdIndex
    have hpend := length_pend_le past e slots
    omega
  · exact (length_pend_of_not_fills past hfill slots).trans hlen

/-- **Keys typed after the prompt stay on the screen exactly while every backspace that deletes has
a column to go back to.** -/
theorem staysOnScreen_along_iff {t : Tty} (ht : t.Framed) (hempty : k.Holds [])
    (hprompt : k.tty = t.initPrompt) {keys : List KeyEvent}
    (htyped : Along (keyboardCallback past) (KeyEvent.Typed past) keys k) :
    Along (keyboardCallback past) (KeyEvent.StaysOnScreen past) keys k ↔
      Along (keyboardCallback past) (KeyEvent.HasColumn past) keys k := by
  have hstart : Prompted k :=
    ⟨by rw [hprompt]; exact ht.initPrompt, [], hempty, Nat.zero_le _⟩
  exact along_iff Prompted (fun e _ h _ => h.staysOnScreen_iff e)
      (fun e _ h hr hs => h.step e hr hs)
    hstart htyped

end Typing

/-- The driver and the console before the first key. -/
def bareKeyboard : Keyboard :=
  { command := fun _ => 0, temp := fun _ => 0, cmdIndex := 0, shiftdown := 0
    tty := bareTty.initPrompt, trace := [], received := [] }

/-- Sixteen tabs, which bring the column from 16 to the start of the next row, and two backspaces.
-/
def tabsAndBackspaces : List KeyEvent :=
  List.replicate 16 ⟨15, []⟩ ++ [⟨14, []⟩] ++ [⟨14, []⟩]

theorem staysOnScreen_along_iff_bareKeyboard :
    Along (keyboardCallback fun _ => 0) (KeyEvent.StaysOnScreen fun _ => 0) tabsAndBackspaces
        bareKeyboard ↔
      Along (keyboardCallback fun _ => 0) (KeyEvent.HasColumn fun _ => 0) tabsAndBackspaces
        bareKeyboard :=
  staysOnScreen_along_iff (t := bareTty) ⟨⟨by decide, by decide⟩, by simp [Tty.InFrame, bareTty]⟩
    ⟨rfl, fun _ _ => rfl⟩ rfl (by decide +kernel)

theorem not_staysOnScreen_along : ¬ ∀ (past : Nat → UInt8) (t : Tty) (k : Keyboard)
    (keys : List KeyEvent), t.Framed → k.Holds [] → k.tty = t.initPrompt →
    Along (keyboardCallback past) (KeyEvent.Typed past) keys k →
    Along (keyboardCallback past) (KeyEvent.StaysOnScreen past) keys k := by
  intro hall
  have hkeys := hall (fun _ => 0) bareTty bareKeyboard tabsAndBackspaces
    ⟨⟨by decide, by decide⟩, by simp [Tty.InFrame, bareTty]⟩ ⟨rfl, fun _ _ => rfl⟩ rfl
    (by decide +kernel)
  have hlast := (along_append.mp hkeys).2.1.onScreen.2
  exact absurd hlast (by decide +kernel)

/-! ### A key and a backspace -/

/-- From the cursor to the end of the next row the screen is blank. -/
def Tty.BlankAhead (t : Tty) : Prop :=
  ∀ r, r < 25 → ∀ x, x < 80 → 80 * t.fbRow + t.fbCol ≤ 80 * r + x →
    80 * r + x < 80 * (t.fbRow + 2) → t.cellAt r x = blankCell

/-- After the key `e` and the backspace `b` the screen is as it was before. -/
def BackspaceUndoes (past : Nat → UInt8) (e b : KeyEvent) (k : Keyboard) : Prop :=
  (keyboardCallback past b (keyboardCallback past e k)).tty.fbCol = k.tty.fbCol ∧
    (keyboardCallback past b (keyboardCallback past e k)).tty.fbRow = k.tty.fbRow ∧
    ∀ r, r < 25 → ∀ x, x < 80 →
      (keyboardCallback past b (keyboardCallback past e k)).tty.cellAt r x = k.tty.cellAt r x

section Undo

variable {past : Nat → UInt8} {k : Keyboard} {e b : KeyEvent} {t : Tty} {c : UInt8}

open Canvas

theorem Tty.OnScreen.backspace_place (h : t.OnScreen) (hpos : 0 < t.fbCol) :
    t.backspace.fbCol = t.fbCol - 1 ∧ t.backspace.fbRow = t.fbRow := by
  rw [h.backspace_eq hpos]
  exact ⟨rfl, rfl⟩

theorem Tty.OnScreen.cellAt_backspace (h : t.OnScreen) (hpos : 0 < t.fbCol) (r x : Nat) :
    t.backspace.cellAt r x =
      if 80 * r + x = t.fbCol - 1 + 80 * t.fbRow then blankCell else t.cellAt r x := by
  rw [h.backspace_eq hpos, Tty.cellAt_writeCell]
  exact if_congr Iff.rfl rfl rfl

theorem keycodeOf_ne_return (past : Nat → UInt8) {scanCode : Nat}
    (h : scanCode < keyboardScanCodes.length) :
    keycodeOf past scanCode ≠ 0x0D := by
  have htable : 0x0D ∉ keyboardScanCodes := by decide
  rw [keycodeOf, List.getD_eq_getElem _ _ h]
  exact fun heq => htable (heq ▸ List.getElem_mem h)

theorem tty_callback_fill_erase (hline : k.cmdIndex < 511) (hfill : e.Fills past)
    (herase : b.Erases past) :
    (keyboardCallback past b (keyboardCallback past e k)).tty =
      (k.tty.kprintByte (keycodeOf past e.scanCode) 15 0).backspace := by
  have hindex : (keyboardCallback past e k).cmdIndex = k.cmdIndex + 1 := by
    rw [Keyboard.callback_fill hfill]
    exact Word.add32_eq (show k.cmdIndex + 1 < 4294967296 by omega)
  have hprint : (keyboardCallback past e k).tty =
      k.tty.kprintByte (keycodeOf past e.scanCode) 15 0 := by
    rw [Keyboard.callback_fill hfill]
    rfl
  rw [Keyboard.tty_callback_erase (by omega) herase, if_neg (by omega), hprint]

theorem Tty.kprintByte_of_room (hscreen : t.OnScreen) (hroom : t.fbCol ≤ 78) (hlf : c ≠ 0x0A)
    (hcr : c ≠ 0x0D) (htab : c ≠ 0x09) (fg bg : Nat) :
    Tty.Displays (t.kprintByte c fg bg)
      { t.page.put (cellOf c fg bg) with col := t.fbCol + 1 } := by
  have hshown := hscreen.displays.kprintByte c fg bg
  have hacts : actsOf fg bg c = [.write (cellOf c fg bg)] := by
    rw [actsOf, if_neg (not_or.mpr ⟨hlf, hcr⟩), if_neg htab]
  have honward : (t.page.put (cellOf c fg bg)).onward Tty.scrollPage 80 =
      { t.page.put (cellOf c fg bg) with col := t.fbCol + 1 } :=
    if_pos (show t.fbCol + 1 < 80 by omega)
  rw [hacts] at hshown
  rwa [← honward]

theorem onward_place {p : Canvas.Page Cell} (hroom : p.row + 1 < 25 ∨ p.col + 1 < 80) :
    p.col + 1 < 80 ∧ (p.onward Tty.scrollPage 80).row = p.row ∧
        (p.onward Tty.scrollPage 80).col = p.col + 1 ∨
      80 ≤ p.col + 1 ∧ (p.onward Tty.scrollPage 80).row = p.row + 1 ∧
        (p.onward Tty.scrollPage 80).col = 1 := by
  unfold Canvas.Page.onward
  by_cases hcol : p.col + 1 < 80
  · rw [if_pos hcol]
    exact Or.inl ⟨hcol, rfl, rfl⟩
  · have hnext : Tty.scrollPage p = Canvas.Page.next 1 p :=
      if_pos (hroom.resolve_right hcol)
    rw [if_neg hcol, hnext]
    exact Or.inr ⟨Nat.le_of_not_lt hcol, rfl, rfl⟩

theorem advances_place {p : Canvas.Page Cell} (hrow : p.row ≤ 23) (hcol : p.col ≤ 79) {n : Nat}
    (hn : n ≤ 4) {q : Canvas.Page Cell}
    (hq : q = p.acts Tty.scrollPage 80 (List.replicate n .advance)) :
    q.row = p.row ∧ q.col = p.col + n ∧ q.col ≤ 79 ∨
      q.row = p.row + 1 ∧ 0 < q.col ∧ q.col ≤ n := by
  induction n generalizing q with
  | zero =>
      subst hq
      exact Or.inl ⟨rfl, rfl, hcol⟩
  | succ n ih =>
      have hbefore := ih (by omega) rfl
      rw [List.replicate_succ', Canvas.Page.acts_append] at hq
      generalize p.acts Tty.scrollPage 80 (List.replicate n .advance) = p1 at hbefore hq
      subst hq
      have hlast : p1.acts Tty.scrollPage 80 (List.replicate 1 .advance) =
          p1.onward Tty.scrollPage 80 := rfl
      have hstep := onward_place (p := p1) (by omega)
      rw [List.replicate_one] at hlast
      rw [hlast]
      omega

/-- **A backspace undoes a key** exactly when the key is no tab and is not typed in the last
column. -/
theorem backspaceUndoes_iff (hrow : k.tty.fbRow ≤ 23) (hpos : 1 ≤ k.tty.fbCol)
    (hcol : k.tty.fbCol ≤ 79) (hblank : k.tty.BlankAhead) (htyped : e.Typed past k)
    (hfill : e.Fills past) (herase : b.Erases past) :
    BackspaceUndoes past e b k ↔
      keycodeOf past e.scanCode ≠ 0x09 ∧ k.tty.fbCol ≤ 78 := by
  have hscreen : k.tty.OnScreen := ⟨by omega, by omega⟩
  have hcr := keycodeOf_ne_return past htyped.2.1
  have hlf := hfill.2.2
  unfold BackspaceUndoes
  rw [tty_callback_fill_erase (htyped.2.2.2 hfill) hfill herase]
  generalize keycodeOf past e.scanCode = c at hcr hlf ⊢
  have hshown := hscreen.displays.kprintByte c 15 0
  have hprinted := hshown.onScreen
  by_cases htab : c = 0x09
  · -- a tab is four columns, a backspace one
    refine iff_of_false ?_ fun h => h.1 htab
    have hacts : actsOf 15 0 c = List.replicate 4 .advance := by
      rw [actsOf, if_neg (not_or.mpr ⟨hlf, hcr⟩), if_pos htab]
      rfl
    rw [hacts] at hshown
    have hplace := advances_place (p := k.tty.page) hrow hcol (Nat.le_refl 4) rfl
    rw [← hshown.row, ← hshown.col] at hplace
    obtain ⟨hback, hbackrow⟩ := hprinted.backspace_place (by omega)
    rintro ⟨hsamecol, hsamerow, -⟩
    change _ = k.tty.fbRow ∧ _ = k.tty.fbCol + 4 ∧ _ ∨ _ = k.tty.fbRow + 1 ∧ _ at hplace
    omega
  by_cases hroom : k.tty.fbCol ≤ 78
  · refine iff_of_true ?_ ⟨htab, hroom⟩
    have hafter := Tty.kprintByte_of_room hscreen hroom hlf hcr htab 15 0
    obtain ⟨hback, hbackrow⟩ := hprinted.backspace_place (by rw [hafter.col]; exact Nat.succ_pos _)
    refine ⟨?_, ?_, fun r hr x hx => ?_⟩
    · rw [hback, hafter.col]
      rfl
    · rw [hbackrow, hafter.row]
      rfl
    · rw [hprinted.cellAt_backspace (by rw [hafter.col]; exact Nat.succ_pos _),
        hafter.cell r hr x hx, hafter.col, hafter.row]
      by_cases hcell : 80 * r + x = 80 * k.tty.fbRow + k.tty.fbCol
      · rw [if_pos (by simp only [Canvas.Page.put, Tty.page]; omega)]
        exact (hblank r hr x hx (by omega) (by omega)).symm
      · rw [if_neg (by simp only [Canvas.Page.put, Tty.page]; omega)]
        exact if_neg (fun heq : r = k.tty.fbRow ∧ x = k.tty.fbCol => hcell (by omega))
  · -- the character is followed by a new row, of which the backspace gives one column back
    refine iff_of_false ?_ fun h => hroom h.2
    have hacts : actsOf 15 0 c = [.write (cellOf c 15 0)] := by
      rw [actsOf, if_neg (not_or.mpr ⟨hlf, hcr⟩), if_neg htab]
    have hplace := onward_place (p := k.tty.page.put (cellOf c 15 0))
      (Or.inl (show k.tty.fbRow + 1 < 25 by omega))
    have hput : (k.tty.page.put (cellOf c 15 0)).col = k.tty.fbCol ∧
        (k.tty.page.put (cellOf c 15 0)).row = k.tty.fbRow := ⟨rfl, rfl⟩
    rw [hacts] at hshown
    have hrow' : (k.tty.kprintByte c 15 0).fbRow =
        ((k.tty.page.put (cellOf c 15 0)).onward Tty.scrollPage 80).row := hshown.row
    have hcol' : (k.tty.kprintByte c 15 0).fbCol =
        ((k.tty.page.put (cellOf c 15 0)).onward Tty.scrollPage 80).col := hshown.col
    obtain ⟨hback, hbackrow⟩ := hprinted.backspace_place (by omega)
    rintro ⟨-, hsamerow, -⟩
    omega

end Undo

/-- A blank screen with the cursor in its first row. -/
def blankKeyboard : Keyboard :=
  { bareKeyboard with
    tty := { bareTty with mem := fun a => if a % 2 = 0 then 0x20 else 0x0F } }

theorem blankAhead_blankKeyboard : blankKeyboard.tty.BlankAhead := by
  intro r _ x _ _ _
  have hbase : videoMemAddr % 2 = 0 := rfl
  have heven : (videoMemAddr + 2 * (80 * r + x)) % 2 = 0 := by omega
  have hodd : ¬ (videoMemAddr + 2 * (80 * r + x) + 1) % 2 = 0 := by omega
  simp only [Tty.cellAt, blankKeyboard, if_pos heven, if_neg hodd]
  rfl

/-- An `a` is undone. -/
theorem backspaceUndoes_iff_blankKeyboard :
    BackspaceUndoes (fun _ => 0) ⟨30, []⟩ ⟨14, []⟩ blankKeyboard ↔
      keycodeOf (fun _ => 0) 30 ≠ 0x09 ∧ blankKeyboard.tty.fbCol ≤ 78 :=
  backspaceUndoes_iff (e := ⟨30, []⟩) (by decide) (by decide) (by decide) blankAhead_blankKeyboard
    (by decide) (by decide) (by decide)

/-- A tab is not. -/
theorem not_backspaceUndoes : ¬ ∀ (past : Nat → UInt8) (e b : KeyEvent) (k : Keyboard),
    k.tty.fbRow ≤ 23 → 1 ≤ k.tty.fbCol → k.tty.fbCol ≤ 79 → k.tty.BlankAhead →
    e.Typed past k → e.Fills past → b.Erases past → BackspaceUndoes past e b k := by
  intro hall
  obtain ⟨hcol, -⟩ := hall (fun _ => 0) ⟨15, []⟩ ⟨14, []⟩ blankKeyboard (by decide) (by decide)
    (by decide) blankAhead_blankKeyboard (by decide) (by decide) (by decide)
  exact absurd hcol (by decide +kernel)

end Vulcanos
