import Mathlib.Tactic.IntervalCases
import Vulcanos.Kernel.Tty
import Vulcanos.Library.Canvas

/-!
# The console as a window on a canvas

Video memory is read as 25 rows of 80 cells, and each function of the console is one operation on a
page of cells: a scroll of video memory is a scroll of the page, and a byte that is printed is the
act of its character.
-/

namespace Vulcanos

open Memory Word Canvas

/-- A cell of the screen: a character and its colours. -/
abbrev Cell := UInt8 × UInt8

/-- A character in its colours, the background in the high half. -/
def cellOf (c : UInt8) (fg bg : Nat) : Cell := (c, UInt8.ofNat (16 * (bg % 16) + fg % 16))

/-- A white-on-black space. -/
def blankCell : Cell := cellOf 0x20 15 0

/-- What a byte asks the canvas for. -/
def actsOf (fg bg : Nat) (c : UInt8) : List (Act Cell) :=
  if c = 0x0A ∨ c = 0x0D then [.newline]
  else if c = 0x09 then [.advance, .advance, .advance, .advance]
  else [.write (cellOf c fg bg)]

theorem attribute_eq (fg bg : Nat) :
    ((bg &&& 0x0F) <<< 4) ||| (fg &&& 0x0F) = 16 * (bg % 16) + fg % 16 := by
  have hfg : fg &&& 0x0F = fg % 16 := Nat.and_two_pow_sub_one_eq_mod fg 4
  have hbg : bg &&& 0x0F = bg % 16 := Nat.and_two_pow_sub_one_eq_mod bg 4
  have hlow : fg % 16 < 2 ^ 4 := Nat.mod_lt fg (by decide)
  rw [hfg, hbg, ← Nat.shiftLeft_add_eq_or_of_lt hlow, Nat.shiftLeft_eq]
  omega

namespace Tty

/-- The cell of the screen in a row and a column. -/
def cellAt (t : Tty) (r x : Nat) : Cell :=
  (t.mem (videoMemAddr + 2 * (80 * r + x)), t.mem (videoMemAddr + 2 * (80 * r + x) + 1))

/-- The position the controller's two registers hold. -/
def cursorPos (t : Tty) : Nat := t.crtc vgaHighByte * 256 + t.crtc vgaLowByte

/-! ### The registers -/

section Registers

variable (t : Tty) (p : Nat)

@[simp]
theorem moveCursor_mem : (t.moveCursor p).mem = t.mem := rfl

@[simp]
theorem moveCursor_fbCol : (t.moveCursor p).fbCol = t.fbCol := rfl

@[simp]
theorem moveCursor_fbRow : (t.moveCursor p).fbRow = t.fbRow := rfl

@[simp]
theorem moveCursor_written : (t.moveCursor p).written = t.written := rfl

theorem cursorPos_moveCursor (h : p < 65536) : (t.moveCursor p).cursorPos = p := by
  have hcrtc : (t.moveCursor p).crtc = Function.update (Function.update t.crtc vgaHighByte
      ((p >>> 8) &&& 0x00FF)) vgaLowByte (p &&& 0x00FF) := rfl
  have hlow : p &&& 0x00FF = p % 256 := Nat.and_two_pow_sub_one_eq_mod p 8
  have hhigh : (p >>> 8) &&& 0x00FF = p / 256 % 256 := by
    rw [Nat.shiftRight_eq_div_pow]
    exact Nat.and_two_pow_sub_one_eq_mod (p / 2 ^ 8) 8
  have hne : vgaHighByte ≠ vgaLowByte := by decide
  rw [cursorPos, hcrtc, Function.update_self, Function.update_of_ne hne, Function.update_self,
    hlow, hhigh]
  omega

end Registers

/-! ### Cells -/

section Cells

variable {t : Tty} {k c fg bg : Nat}

theorem writeCell_cast (t : Tty) (k c fg bg : Nat) :
    t.writeCell (k : Int) c fg bg =
      { t with
        mem := write8 (write8 t.mem (videoMemAddr + 2 * k) c) (videoMemAddr + 2 * k + 1)
          (16 * (bg % 16) + fg % 16)
        written := (k : Int) :: t.written } := by
  have haddr : ((videoMemAddr : Int) + (k : Int) * 2).toNat = videoMemAddr + 2 * k := by omega
  have haddr' : ((videoMemAddr : Int) + (k : Int) * 2 + 1).toNat = videoMemAddr + 2 * k + 1 := by
    omega
  simp only [writeCell, haddr, haddr', attribute_eq]

theorem cellAt_writeCell (t : Tty) (k c fg bg r x : Nat) :
    (t.writeCell (k : Int) c fg bg).cellAt r x =
      if 80 * r + x = k then cellOf (UInt8.ofNat c) fg bg else t.cellAt r x := by
  rw [writeCell_cast]
  by_cases hk : 80 * r + x = k
  · rw [if_pos hk]
    subst hk
    simp [cellAt, write8, cellOf]
  · rw [if_neg hk]
    have h0 : videoMemAddr + 2 * (80 * r + x) ≠ videoMemAddr + 2 * k + 1 := by omega
    have h1 : videoMemAddr + 2 * (80 * r + x) ≠ videoMemAddr + 2 * k := by omega
    have h2 : videoMemAddr + 2 * (80 * r + x) + 1 ≠ videoMemAddr + 2 * k + 1 := by omega
    have h3 : videoMemAddr + 2 * (80 * r + x) + 1 ≠ videoMemAddr + 2 * k := by omega
    simp only [cellAt, write8_apply_of_ne h0, write8_apply_of_ne h1, write8_apply_of_ne h2,
      write8_apply_of_ne h3]

/-- `n` blanks from cell `b` on. -/
def blankCells (b n : Nat) (t : Tty) : Tty :=
  (List.range n).foldl
    (fun t i => t.writeCell (int16 (b + i)) 0x20 TtyColors.white.code TtyColors.black.code) t

theorem blankCells_succ (b n : Nat) (t : Tty) :
    t.blankCells b (n + 1) =
      (t.blankCells b n).writeCell (int16 (b + n)) 0x20 TtyColors.white.code
        TtyColors.black.code := by
  simp only [blankCells, List.range_succ, List.foldl_append, List.foldl_cons, List.foldl_nil]

theorem blankCells_frame (b n : Nat) (t : Tty) :
    (t.blankCells b n).fbCol = t.fbCol ∧ (t.blankCells b n).fbRow = t.fbRow ∧
      (t.blankCells b n).crtc = t.crtc := by
  induction n with
  | zero => exact ⟨rfl, rfl, rfl⟩
  | succ n ih =>
      rw [blankCells_succ]
      exact ih

theorem cellAt_blankCells {b n : Nat} (hfit : b + n ≤ 2000) (t : Tty) (r x : Nat) :
    (t.blankCells b n).cellAt r x =
      if b ≤ 80 * r + x ∧ 80 * r + x < b + n then blankCell else t.cellAt r x := by
  induction n with
  | zero =>
      rw [if_neg (by omega)]
      rfl
  | succ n ih =>
      rw [blankCells_succ, int16_eq (by omega), cellAt_writeCell, ih (by omega)]
      by_cases hk : 80 * r + x = b + n
      · rw [if_pos hk, if_pos (by omega)]
        rfl
      · rw [if_neg hk]
        exact if_congr (by omega) rfl rfl

theorem written_blankCells {b n : Nat} (hfit : b + n ≤ 2000) {t : Tty} {i : Int}
    (h : i ∈ (t.blankCells b n).written) : i ∈ t.written ∨ 0 ≤ i ∧ i < 2000 := by
  induction n with
  | zero => exact Or.inl h
  | succ n ih =>
      rw [blankCells_succ, int16_eq (by omega), writeCell_cast] at h
      rcases List.mem_cons.mp h with rfl | hrest
      · right
        omega
      · exact ih (by omega) hrest

theorem scroll_eq (t : Tty) :
    t.scroll = blankCells 1920 80
      { t with mem := memmove videoMemAddr (videoMemAddr + 160) 7840 t.mem } := rfl

theorem scroll_frame (t : Tty) :
    t.scroll.fbCol = t.fbCol ∧ t.scroll.fbRow = t.fbRow ∧ t.scroll.crtc = t.crtc := by
  rw [scroll_eq]
  exact blankCells_frame 1920 80 _

theorem cellAt_scroll (t : Tty) {r x : Nat} (hr : r < 25) (hx : x < 80) :
    t.scroll.cellAt r x = if r + 1 < 25 then t.cellAt (r + 1) x else blankCell := by
  rw [scroll_eq, cellAt_blankCells (by decide)]
  by_cases hlast : r + 1 < 25
  · have hsrc : videoMemAddr + 160 + (videoMemAddr + 2 * (80 * r + x) - videoMemAddr) =
        videoMemAddr + 2 * (80 * (r + 1) + x) := by omega
    have hsrc' : videoMemAddr + 160 + (videoMemAddr + 2 * (80 * r + x) + 1 - videoMemAddr) =
        videoMemAddr + 2 * (80 * (r + 1) + x) + 1 := by omega
    rw [if_neg (by omega), if_pos hlast]
    simp only [cellAt]
    rw [memmove_apply (by omega), memmove_apply (by omega), if_pos (by omega), if_pos (by omega),
      hsrc, hsrc']
  · rw [if_pos (by omega), if_neg hlast]

end Cells

/-! ### The page -/

/-- The screen shows a page of 25 rows and 80 columns and writes where the page does. -/
structure Displays (t : Tty) (p : Canvas.Page Cell) : Prop where
  row : t.fbRow = p.row
  col : t.fbCol = p.col
  row_lt : p.row < 25
  col_lt : p.col < 80
  cell : ∀ r, r < 25 → ∀ x, x < 80 → t.cellAt r x = p.cell r x

/-- What the screen shows. -/
def page (t : Tty) : Canvas.Page Cell := { cell := t.cellAt, row := t.fbRow, col := t.fbCol }

section Page

variable {t : Tty} {p : Canvas.Page Cell}

/-- How the screen starts a row. -/
abbrev scrollPage : Canvas.Page Cell → Canvas.Page Cell := Canvas.Page.scroll 25 1 blankCell

theorem displays_page (hrow : t.fbRow < 25) (hcol : t.fbCol < 80) : Displays t t.page :=
  ⟨rfl, rfl, hrow, hcol, fun _ _ _ _ => rfl⟩

theorem Displays.pos_eq (h : Displays t p) : t.pos = 80 * p.row + p.col := by
  have hrow := h.row_lt
  have hcol := h.col_lt
  rw [pos, h.row, h.col, vgaWidth, Nat.mod_eq_of_lt (by omega)]
  omega

theorem Displays.put (h : Displays t p) (c : UInt8) (fg bg : Nat) :
    Displays (t.writeCell (int16 t.pos) c.toNat fg bg) (p.put (cellOf c fg bg)) := by
  have hrow := h.row_lt
  have hcol := h.col_lt
  rw [h.pos_eq, int16_eq (by omega)]
  refine ⟨h.row, h.col, hrow, hcol, ?_⟩
  intro r hr x hx
  rw [cellAt_writeCell, UInt8.ofNat_toNat, h.cell r hr x hx]
  exact if_congr (by omega) rfl rfl

theorem newline_of_room (h : t.fbRow < 24) :
    t.newline = ({ t with fbRow := t.fbRow + 1, fbCol := 1 } : Tty).moveCursor
      ({ t with fbRow := t.fbRow + 1, fbCol := 1 } : Tty).pos := by
  have hroom : t.fbRow < vgaHeight - 1 := h
  simp only [Tty.newline, if_pos hroom]

theorem newline_of_full (h : ¬ t.fbRow < 24) :
    t.newline = ({ t.scroll with fbCol := 1 } : Tty).moveCursor
      ({ t.scroll with fbCol := 1 } : Tty).pos := by
  have hfull : ¬ t.fbRow < vgaHeight - 1 := h
  simp only [Tty.newline, if_neg hfull]

theorem Displays.moveCursor (h : Displays t p) (n : Nat) : Displays (t.moveCursor n) p :=
  ⟨h.row, h.col, h.row_lt, h.col_lt, h.cell⟩

theorem Displays.newline (h : Displays t p) : Displays t.newline (scrollPage p) := by
  have hrow := h.row
  unfold scrollPage Canvas.Page.scroll
  by_cases hroom : p.row + 1 < 25
  · rw [if_pos hroom, newline_of_room (by omega)]
    refine Displays.moveCursor ?_ _
    exact ⟨congrArg (· + 1) hrow, rfl, hroom, Nat.one_lt_ofNat, h.cell⟩
  · rw [if_neg hroom, newline_of_full (by omega)]
    refine Displays.moveCursor ?_ _
    refine ⟨(scroll_frame t).2.1.trans hrow, rfl, h.row_lt, Nat.one_lt_ofNat, ?_⟩
    intro r hr x hx
    have hscroll := cellAt_scroll t hr hx
    by_cases hlast : r + 1 < 25
    · simp only [if_pos hlast] at hscroll ⊢
      exact hscroll.trans (h.cell (r + 1) hlast x hx)
    · simp only [if_neg hlast] at hscroll ⊢
      exact hscroll

theorem Displays.cursorAdv (h : Displays t p) : Displays t.cursorAdv (p.onward scrollPage 80) := by
  have hcol := h.col
  unfold Tty.cursorAdv Canvas.Page.onward
  refine Displays.moveCursor ?_ _
  by_cases hroom : p.col + 1 < 80
  · have hroom' : t.fbCol < vgaWidth - 1 := by
      change t.fbCol < 79
      omega
    rw [if_pos hroom, if_pos hroom']
    exact ⟨h.row, congrArg (· + 1) hcol, h.row_lt, hroom, h.cell⟩
  · have hroom' : ¬ t.fbCol < vgaWidth - 1 := by
      change ¬ t.fbCol < 79
      omega
    rw [if_neg hroom, if_neg hroom']
    exact h.newline

theorem Displays.tab (h : Displays t p) :
    Displays t.tab (p.acts scrollPage 80 [.advance, .advance, .advance, .advance]) :=
  h.cursorAdv.cursorAdv.cursorAdv.cursorAdv

theorem Displays.kprintByte (h : Displays t p) (c : UInt8) (fg bg : Nat) :
    Displays (t.kprintByte c fg bg) (p.acts scrollPage 80 (actsOf fg bg c)) := by
  unfold Tty.kprintByte actsOf
  split
  · exact h.newline
  · split
    · exact h.tab
    · exact (h.put c fg bg).cursorAdv

theorem kprintC_succ (buf : Nat → UInt8) (n fg bg : Nat) (t : Tty) :
    t.kprintC buf (n + 1) fg bg = (t.kprintC buf n fg bg).kprintByte (buf n) fg bg := by
  simp only [kprintC, List.range_succ, List.foldl_append, List.foldl_cons, List.foldl_nil]

/-- What the first `n` bytes of a buffer ask the canvas for. -/
def actsOfBuf (buf : Nat → UInt8) (n fg bg : Nat) : List (Act Cell) :=
  (List.range n).flatMap fun i => actsOf fg bg (buf i)

/-- **The console prints as the page does.** -/
theorem Displays.kprintC (h : Displays t p) (buf : Nat → UInt8) (n fg bg : Nat) :
    Displays (t.kprintC buf n fg bg) (p.acts scrollPage 80 (actsOfBuf buf n fg bg)) := by
  induction n with
  | zero => exact h
  | succ n ih =>
      rw [kprintC_succ, actsOfBuf, List.range_succ, List.flatMap_append, Canvas.Page.acts_append,
        List.flatMap_singleton]
      exact ih.kprintByte (buf n) fg bg

end Page

/-! ### The place of the next character -/

/-- The next character goes to a cell of the screen. -/
def OnScreen (t : Tty) : Prop := t.fbRow < 25 ∧ t.fbCol < 80

/-- Every cell written so far is one of the screen. -/
def InFrame (t : Tty) : Prop := ∀ i ∈ t.written, 0 ≤ i ∧ i < 2000

/-- The blinking cursor is where the next character will be written. -/
def Synced (t : Tty) : Prop := t.cursorPos = t.fbCol + 80 * t.fbRow

section Place

variable {t : Tty}

theorem Displays.onScreen {p : Canvas.Page Cell} (h : Displays t p) : t.OnScreen :=
  ⟨by rw [h.row]; exact h.row_lt, by rw [h.col]; exact h.col_lt⟩

theorem OnScreen.displays (h : t.OnScreen) : Displays t t.page := displays_page h.1 h.2

theorem OnScreen.pos_eq (h : t.OnScreen) : t.pos = t.fbCol + 80 * t.fbRow := by
  rw [h.displays.pos_eq]
  exact Nat.add_comm _ _

theorem OnScreen.newline (h : t.OnScreen) : t.newline.OnScreen := h.displays.newline.onScreen

theorem OnScreen.cursorAdv (h : t.OnScreen) : t.cursorAdv.OnScreen := h.displays.cursorAdv.onScreen

theorem OnScreen.tab (h : t.OnScreen) : t.tab.OnScreen := h.displays.tab.onScreen

theorem OnScreen.kprintC (h : t.OnScreen) (buf : Nat → UInt8) (n fg bg : Nat) :
    (t.kprintC buf n fg bg).OnScreen := (h.displays.kprintC buf n fg bg).onScreen

theorem OnScreen.kprintStr (h : t.OnScreen) (s : List UInt8) (fg bg : TtyColors) :
    (t.kprintStr s fg bg).OnScreen := h.kprintC _ _ _ _

theorem OnScreen.initPrompt (h : t.OnScreen) : t.initPrompt.OnScreen := by
  unfold Tty.initPrompt
  exact (((h.newline.kprintStr _ _ _).kprintStr _ _ _).kprintStr _ _ _).kprintStr _ _ _

theorem synced_moveCursor (h : (t.moveCursor t.pos).OnScreen) : (t.moveCursor t.pos).Synced := by
  have hplace : t.OnScreen := h
  have hpos := hplace.pos_eq
  obtain ⟨hrow, hcol⟩ := hplace
  rw [Synced, cursorPos_moveCursor t t.pos (by omega)]
  exact hpos

theorem OnScreen.newline_synced (h : t.OnScreen) : t.newline.Synced := by
  have hafter := h.newline
  by_cases hroom : t.fbRow < 24
  · rw [newline_of_room hroom] at hafter ⊢
    exact synced_moveCursor hafter
  · rw [newline_of_full hroom] at hafter ⊢
    exact synced_moveCursor hafter

theorem OnScreen.cursorAdv_synced (h : t.OnScreen) : t.cursorAdv.Synced := by
  have hafter := h.cursorAdv
  simp only [Tty.cursorAdv] at hafter ⊢
  exact synced_moveCursor hafter

theorem OnScreen.tab_synced (h : t.OnScreen) : t.tab.Synced :=
  h.cursorAdv.cursorAdv.cursorAdv.cursorAdv_synced

theorem OnScreen.kprintByte_synced (h : t.OnScreen) (c : UInt8) (fg bg : Nat) :
    (t.kprintByte c fg bg).Synced := by
  unfold Tty.kprintByte
  split
  · exact h.newline_synced
  · split
    · exact h.tab_synced
    · exact (h.displays.put c fg bg).onScreen.cursorAdv_synced

theorem OnScreen.kprintC_synced (h : t.OnScreen) (buf : Nat → UInt8) {n : Nat} (hn : 0 < n)
    (fg bg : Nat) : (t.kprintC buf n fg bg).Synced := by
  obtain ⟨n, rfl⟩ : ∃ m, n = m + 1 := ⟨n - 1, by omega⟩
  rw [kprintC_succ]
  exact (h.kprintC buf n fg bg).kprintByte_synced (buf n) fg bg

theorem OnScreen.kprintStr_synced (h : t.OnScreen) {s : List UInt8} (hs : s ≠ [])
    (fg bg : TtyColors) : (t.kprintStr s fg bg).Synced :=
  h.kprintC_synced _ (List.length_pos_of_ne_nil hs) _ _

theorem OnScreen.initPrompt_synced (h : t.OnScreen) : t.initPrompt.Synced := by
  unfold Tty.initPrompt
  have hprompt := ((h.newline.kprintStr defaultUser .lightCyan .black).kprintStr
    (bytesOf "@") .lightRed .black).kprintStr defaultHostname .lightMagenta .black
  exact hprompt.kprintStr_synced (by decide) _ _

theorem clearPrompt_eq (t : Tty) :
    t.clearPrompt = (blankCells 0 2000 { t with fbCol := 1, fbRow := 0 }).moveCursor 0 := by
  simp only [clearPrompt, blankCells, Nat.zero_add]
  rfl

theorem clearPrompt_place (t : Tty) : t.clearPrompt.fbCol = 1 ∧ t.clearPrompt.fbRow = 0 ∧
    t.clearPrompt.cursorPos = 0 := by
  have hframe := blankCells_frame 0 2000 { t with fbCol := 1, fbRow := 0 }
  rw [clearPrompt_eq, moveCursor_fbCol, moveCursor_fbRow, hframe.1, hframe.2.1,
    cursorPos_moveCursor _ 0 (by decide)]
  exact ⟨rfl, rfl, rfl⟩

theorem OnScreen.backspace_eq (h : t.OnScreen) (hpos : 0 < t.fbCol) :
    t.backspace = ({ t with fbCol := t.fbCol - 1 } : Tty).writeCell
      ((t.fbCol - 1 + 80 * t.fbRow : Nat) : Int) 0x20 15 0 := by
  obtain ⟨hrow, hcol⟩ := h
  have hsub : sub32 t.fbCol 1 = t.fbCol - 1 := sub32_eq hpos (by omega)
  have hback : ({ t with fbCol := t.fbCol - 1 } : Tty).OnScreen :=
    ⟨hrow, show t.fbCol - 1 < 80 by omega⟩
  rw [Tty.backspace, hsub]
  simp only [hback.pos_eq]
  rw [int16_eq (by omega)]
  rfl

end Place

/-! ### Which cells are written -/

/-- The next character goes to a cell of the screen, as did all before it. -/
structure Framed (t : Tty) : Prop where
  onScreen : t.OnScreen
  inFrame : t.InFrame

section Frame

variable {t : Tty}

theorem InFrame.blankCells {b n : Nat} (hfit : b + n ≤ 2000) (h : t.InFrame) :
    (t.blankCells b n).InFrame := by
  intro i hi
  rcases written_blankCells hfit hi with hold | hin
  · exact h i hold
  · exact hin

theorem InFrame.moveCursor (h : t.InFrame) (n : Nat) : (t.moveCursor n).InFrame := h

theorem InFrame.with_mem (h : t.InFrame) (m : Mem) : { t with mem := m }.InFrame := h

theorem InFrame.newline (h : t.InFrame) : t.newline.InFrame := by
  by_cases hroom : t.fbRow < 24
  · rw [newline_of_room hroom]
    refine InFrame.moveCursor ?_ _
    exact h
  · rw [newline_of_full hroom]
    have hscroll : t.scroll.InFrame := by
      rw [scroll_eq]
      exact InFrame.blankCells (by decide) (h.with_mem _)
    refine InFrame.moveCursor ?_ _
    intro i hi
    exact hscroll i hi

theorem Framed.newline (h : t.Framed) : t.newline.Framed := ⟨h.onScreen.newline, h.inFrame.newline⟩

theorem Framed.cursorAdv (h : t.Framed) : t.cursorAdv.Framed := by
  refine ⟨h.onScreen.cursorAdv, ?_⟩
  unfold Tty.cursorAdv
  refine InFrame.moveCursor ?_ _
  split
  · exact h.inFrame
  · exact h.inFrame.newline

theorem Framed.tab (h : t.Framed) : t.tab.Framed := h.cursorAdv.cursorAdv.cursorAdv.cursorAdv

theorem Framed.put (h : t.Framed) (c fg bg : Nat) :
    (t.writeCell (int16 t.pos) c fg bg).Framed := by
  obtain ⟨hrow, hcol⟩ := h.onScreen
  have hpos := h.onScreen.pos_eq
  rw [int16_eq (by omega), writeCell_cast]
  refine ⟨⟨hrow, hcol⟩, ?_⟩
  intro i hi
  rcases List.mem_cons.mp hi with rfl | hold
  · omega
  · exact h.inFrame i hold

theorem Framed.kprintByte (h : t.Framed) (c : UInt8) (fg bg : Nat) :
    (t.kprintByte c fg bg).Framed := by
  unfold Tty.kprintByte
  split
  · exact h.newline
  · split
    · exact h.tab
    · exact (h.put c.toNat fg bg).cursorAdv

/-- **Printing writes cells of the screen only.** -/
theorem Framed.kprintC (h : t.Framed) (buf : Nat → UInt8) (n fg bg : Nat) :
    (t.kprintC buf n fg bg).Framed := by
  induction n with
  | zero => exact h
  | succ n ih =>
      rw [kprintC_succ]
      exact ih.kprintByte (buf n) fg bg

theorem Framed.kprintStr (h : t.Framed) (s : List UInt8) (fg bg : TtyColors) :
    (t.kprintStr s fg bg).Framed := h.kprintC _ _ _ _

theorem Framed.initPrompt (h : t.Framed) : t.initPrompt.Framed := by
  unfold Tty.initPrompt
  exact (((h.newline.kprintStr _ _ _).kprintStr _ _ _).kprintStr _ _ _).kprintStr _ _ _

theorem Framed.clearPrompt (h : t.Framed) : t.clearPrompt.Framed := by
  obtain ⟨hcol, hrow, -⟩ := clearPrompt_place t
  refine ⟨⟨by omega, by omega⟩, ?_⟩
  have hcells : (blankCells 0 2000 { t with fbCol := 1, fbRow := 0 }).InFrame :=
    InFrame.blankCells (by decide) h.inFrame
  rw [clearPrompt_eq]
  exact hcells.moveCursor 0

theorem Framed.backspace (h : t.Framed) (hpos : 0 < t.fbCol) : t.backspace.Framed := by
  obtain ⟨hrow, hcol⟩ := h.onScreen
  rw [h.onScreen.backspace_eq hpos, writeCell_cast]
  refine ⟨⟨hrow, show t.fbCol - 1 < 80 by omega⟩, ?_⟩
  intro i hi
  rcases List.mem_cons.mp hi with rfl | hold
  · omega
  · exact h.inFrame i hold

end Frame

end Tty

end Vulcanos
