import Vulcanos.Library.Run
import Vulcanos.Proof.Tty

/-!
# What the console shows, and where it blinks

Printing lays bytes on a canvas without end, of which the screen shows the last 25 rows. The
blinking cursor follows the place of the next character, except where `backspace` and `clear_prompt`
change the place and send no or another position.
-/

namespace Vulcanos

open Canvas Run Word Memory

namespace Tty

/-- The canvas the screen is the top of: blank below it. -/
def canvas (t : Tty) : Canvas.Page Cell :=
  { t.page with cell := fun r x => if r < 25 then t.cellAt r x else blankCell }

/-- The canvas after the first `len` bytes of a buffer. -/
def printed (t : Tty) (buf : Nat → UInt8) (len fg bg : Nat) : Canvas.Page Cell :=
  t.canvas.acts (Canvas.Page.next 1) 80 (actsOfBuf buf len fg bg)

/-- **`kprint_c` is a text canvas seen through a 25-row window.** -/
theorem kprintC_shows_canvas (t : Tty) (buf : Nat → UInt8) (len fg bg : Nat) (hrow : t.fbRow ≤ 24)
    (hcol : t.fbCol ≤ 79) :
    (∀ r, r < 25 → ∀ x, x < 80 →
        (t.kprintC buf len fg bg).cellAt r x =
          (t.printed buf len fg bg).cell ((t.printed buf len fg bg).row - 24 + r) x) ∧
      (t.kprintC buf len fg bg).fbRow =
        (t.printed buf len fg bg).row - ((t.printed buf len fg bg).row - 24) ∧
      (t.kprintC buf len fg bg).fbCol = (t.printed buf len fg bg).col ∧
      (t.kprintC buf len fg bg).fbRow ≤ 24 ∧
      (t.kprintC buf len fg bg).fbCol ≤ 79 := by
  have hpage := displays_page (t := t) (by omega) (by omega)
  have hshows : Shows 25 blankCell t.canvas t.page := Shows.of_window (by exact hpage.row_lt)
  -- the screen follows the window page, the window page follows the canvas
  have hscreen := hpage.kprintC buf len fg bg
  have hwindow := @Shows.acts _ 25 1 blankCell _ _ 80 (by decide) (actsOfBuf buf len fg bg) hshows
  have hlt := hscreen.row_lt
  have hlt' := hscreen.col_lt
  refine ⟨?_, ?_, ?_, ?_, ?_⟩
  · intro r hr x hx
    exact (hscreen.cell r hr x hx).trans (hwindow.cell r hr x)
  · exact hscreen.row.trans hwindow.row
  · exact hscreen.col.trans hwindow.col
  · rw [hscreen.row]
    omega
  · rw [hscreen.col]
    omega

end Tty

/-- The console as it is before the first character, video memory aside. -/
def bareTty : Tty :=
  { mem := fun _ => 0, fbCol := 1, fbRow := 0, crtcIndex := 0, crtc := fun _ => 0, written := [] }

theorem kprintC_shows_canvas_bareTty :
    (∀ r, r < 25 → ∀ x, x < 80 →
        (bareTty.kprintC (fun _ => 0x0A) 30 15 0).cellAt r x =
          (bareTty.printed (fun _ => 0x0A) 30 15 0).cell
            ((bareTty.printed (fun _ => 0x0A) 30 15 0).row - 24 + r) x) ∧
      (bareTty.kprintC (fun _ => 0x0A) 30 15 0).fbRow =
        (bareTty.printed (fun _ => 0x0A) 30 15 0).row -
          ((bareTty.printed (fun _ => 0x0A) 30 15 0).row - 24) ∧
      (bareTty.kprintC (fun _ => 0x0A) 30 15 0).fbCol =
        (bareTty.printed (fun _ => 0x0A) 30 15 0).col ∧
      (bareTty.kprintC (fun _ => 0x0A) 30 15 0).fbRow ≤ 24 ∧
      (bareTty.kprintC (fun _ => 0x0A) 30 15 0).fbCol ≤ 79 :=
  Tty.kprintC_shows_canvas bareTty (fun _ => 0x0A) 30 15 0 (by decide) (by decide)

/-! ### The blinking cursor -/

/-- The operations that move the place of the next character. -/
inductive ConsoleOp where
  | kprintC (buf : Nat → UInt8) (len fg bg : Nat)
  | backspace
  | clearPrompt
  | newline
  | tab
  | initPrompt

namespace ConsoleOp

def apply : ConsoleOp → Tty → Tty
  | .kprintC buf len fg bg, t => t.kprintC buf len fg bg
  | .backspace, t => t.backspace
  | .clearPrompt, t => t.clearPrompt
  | .newline, t => t.newline
  | .tab, t => t.tab
  | .initPrompt, t => t.initPrompt

/-- `backspace` is only asked for where there is a column to go back to. -/
def Legal : ConsoleOp → Tty → Prop
  | .backspace, t => 0 < t.fbCol
  | _, _ => True

/-- An operation that changes the place has sent it. -/
def Sends (op : ConsoleOp) (t : Tty) : Prop :=
  ((op.apply t).fbCol ≠ t.fbCol ∨ (op.apply t).fbRow ≠ t.fbRow) → (op.apply t).Synced

/-- `backspace` sends nothing, so the position sent before has to be the one it goes back to
already; `clear_prompt` sends position 0 and goes to column 1, so it must not move. -/
def Harmless : ConsoleOp → Tty → Prop
  | .backspace, t => t.cursorPos + 1 = t.fbCol + 80 * t.fbRow
  | .clearPrompt, t => t.fbCol = 1 ∧ t.fbRow = 0
  | _, _ => True

end ConsoleOp

theorem ConsoleOp.sends_iff (op : ConsoleOp) {t : Tty} (hscreen : t.OnScreen)
    (hlegal : op.Legal t) :
    op.Sends t ↔ op.Harmless t := by
  cases op with
  | kprintC buf len fg bg =>
      refine iff_of_true ?_ trivial
      intro hmoved
      rcases Nat.eq_zero_or_pos len with rfl | hlen
      · exact absurd hmoved (by simp [ConsoleOp.apply, Tty.kprintC])
      · exact hscreen.kprintC_synced buf hlen fg bg
  | backspace =>
      have hcol : 0 < t.fbCol := hlegal
      have hback : (ConsoleOp.backspace.apply t).fbCol = t.fbCol - 1 ∧
          (ConsoleOp.backspace.apply t).fbRow = t.fbRow ∧
          (ConsoleOp.backspace.apply t).cursorPos = t.cursorPos := by
        simp only [ConsoleOp.apply, hscreen.backspace_eq hcol]
        exact ⟨rfl, rfl, rfl⟩
      simp only [ConsoleOp.Sends, ConsoleOp.Harmless, Tty.Synced, hback.1, hback.2.1, hback.2.2]
      omega
  | clearPrompt =>
      have hplace := Tty.clearPrompt_place t
      simp only [ConsoleOp.Sends, ConsoleOp.Harmless, ConsoleOp.apply, Tty.Synced, hplace.1,
        hplace.2.1, hplace.2.2]
      omega
  | newline => exact iff_of_true (fun _ => hscreen.newline_synced) trivial
  | tab => exact iff_of_true (fun _ => hscreen.tab_synced) trivial
  | initPrompt => exact iff_of_true (fun _ => hscreen.initPrompt_synced) trivial

theorem ConsoleOp.onScreen (op : ConsoleOp) {t : Tty} (hscreen : t.OnScreen) (hlegal : op.Legal t) :
    (op.apply t).OnScreen := by
  cases op with
  | kprintC buf len fg bg => exact hscreen.kprintC buf len fg bg
  | backspace =>
      have hcol : 0 < t.fbCol := hlegal
      obtain ⟨hrow, hlt⟩ := hscreen
      simp only [ConsoleOp.apply, Tty.OnScreen.backspace_eq ⟨hrow, hlt⟩ hcol]
      exact ⟨hrow, show t.fbCol - 1 < 80 by omega⟩
  | clearPrompt =>
      obtain ⟨hcol, hrow, -⟩ := Tty.clearPrompt_place t
      refine ⟨?_, ?_⟩
      · simp only [ConsoleOp.apply, hrow]
        decide
      · simp only [ConsoleOp.apply, hcol]
        decide
  | newline => exact hscreen.newline
  | tab => exact hscreen.tab
  | initPrompt => exact hscreen.initPrompt

/-- **The cursor follows exactly along the sequences of harmless operations.** -/
theorem sends_along_iff {ops : List ConsoleOp} {t : Tty} (hscreen : t.OnScreen)
    (hlegal : Along ConsoleOp.apply ConsoleOp.Legal ops t) :
    Along ConsoleOp.apply ConsoleOp.Sends ops t ↔ Along ConsoleOp.apply ConsoleOp.Harmless ops t :=
  along_iff Tty.OnScreen (fun op _ h hl => op.sends_iff h hl) (fun op _ h hl _ => op.onScreen h hl)
    hscreen hlegal

theorem sends_along_iff_bareTty :
    Along ConsoleOp.apply ConsoleOp.Sends [.newline, .tab, .backspace] bareTty ↔
      Along ConsoleOp.apply ConsoleOp.Harmless [.newline, .tab, .backspace] bareTty :=
  sends_along_iff ⟨by decide, by decide⟩ ⟨trivial, trivial, by unfold ConsoleOp.Legal; decide,
      trivial⟩

/-- A `backspace` behind a `newline` leaves the cursor where it was. -/
theorem not_sends_along : ¬ ∀ (ops : List ConsoleOp) (t : Tty), t.OnScreen →
    Along ConsoleOp.apply ConsoleOp.Legal ops t → Along ConsoleOp.apply ConsoleOp.Sends ops t := by
  intro hall
  have hsends := hall [.newline, .backspace] bareTty ⟨by decide, by decide⟩
    ⟨trivial, by unfold ConsoleOp.Legal; decide, trivial⟩
  exact absurd (hsends.2.1 (Or.inl (by decide))) (by unfold Tty.Synced; decide)

/-! ### What printing touches -/

namespace Tty

/-- A byte of the 80 by 25 cells. -/
def FrameByte (a : Nat) : Prop := videoMemAddr ≤ a ∧ a < videoMemAddr + 2 * (vgaWidth * vgaHeight)

/-- The bytes that the `memmove` of `scroll` loads. -/
def scrollReads : List Nat :=
  List.range' (videoMemAddr + 2 * vgaWidth) (vgaWidth * 2 * (vgaHeight * 2 - 1))

/-- The bytes of video memory that `newline` loads. -/
def newlineReads (t : Tty) : List Nat := if t.fbRow < vgaHeight - 1 then [] else scrollReads

/-- The bytes of video memory that `cursor_adv` loads. -/
def cursorAdvReads (t : Tty) : List Nat := if t.fbCol < vgaWidth - 1 then [] else t.newlineReads

/-- The bytes of video memory that `tab` loads. -/
def tabReads (t : Tty) : List Nat :=
  t.cursorAdvReads ++ t.cursorAdv.cursorAdvReads ++ t.cursorAdv.cursorAdv.cursorAdvReads ++
    t.cursorAdv.cursorAdv.cursorAdv.cursorAdvReads

/-- The bytes of video memory that a round of `kprint_c` loads. -/
def kprintByteReads (c : UInt8) (fg bg : Nat) (t : Tty) : List Nat :=
  if c = 0x0A ∨ c = 0x0D then t.newlineReads
  else if c = 0x09 then t.tabReads
  else (t.writeCell (int16 t.pos) c.toNat fg bg).cursorAdvReads

/-- The bytes of video memory that `kprint_c` loads. -/
def kprintReads (buf : Nat → UInt8) (fg bg : Nat) (t : Tty) : Nat → List Nat
  | 0 => []
  | n + 1 => t.kprintReads buf fg bg n ++ (t.kprintC buf n fg bg).kprintByteReads (buf n) fg bg

/-! Two consoles that differ in their memories only print alike, and where the bytes that are loaded
are the same, so are those that are stored. -/

/-- Equal but for the memory. -/
structure Alike (t t' : Tty) : Prop where
  row : t'.fbRow = t.fbRow
  col : t'.fbCol = t.fbCol

/-- Each byte is the same in both afterwards, or neither has changed it. -/
structure AlikeAfter (t t' u u' : Tty) : Prop extends Alike u u' where
  stored : ∀ a, u'.mem a = u.mem a ∨ u.mem a = t.mem a ∧ u'.mem a = t'.mem a

section Loads

variable {t t' u u' v v' : Tty} {reads : List Nat}

theorem AlikeAfter.refl (h : Alike t t') : AlikeAfter t t' t t' :=
  ⟨h, fun _ => Or.inr ⟨rfl, rfl⟩⟩

theorem AlikeAfter.trans (h : AlikeAfter t t' u u') (h' : AlikeAfter u u' v v') :
    AlikeAfter t t' v v' := by
  refine ⟨h'.toAlike, fun a => ?_⟩
  rcases h'.stored a with heq | ⟨hv, hv'⟩
  · exact Or.inl heq
  · rw [hv, hv']
    exact h.stored a

theorem AlikeAfter.loads (h : AlikeAfter t t' u u') (hreads : ∀ a ∈ reads, t'.mem a = t.mem a) :
    ∀ a ∈ reads, u'.mem a = u.mem a := by
  intro a ha
  rcases h.stored a with heq | ⟨hu, hu'⟩
  · exact heq
  · rw [hu, hu', hreads a ha]

theorem Alike.writeCell (h : Alike t t') (k c fg bg : Nat) :
    AlikeAfter t t' (t.writeCell (k : Int) c fg bg) (t'.writeCell (k : Int) c fg bg) := by
  rw [writeCell_cast, writeCell_cast]
  refine ⟨⟨h.row, h.col⟩, fun a => ?_⟩
  dsimp only [write8]
  split
  · exact Or.inl rfl
  · split
    · exact Or.inl rfl
    · exact Or.inr ⟨rfl, rfl⟩

theorem Alike.blankCells {b n : Nat} (hfit : b + n ≤ 2000) (h : Alike t t') :
    AlikeAfter t t' (t.blankCells b n) (t'.blankCells b n) := by
  induction n with
  | zero => exact AlikeAfter.refl h
  | succ n ih =>
      have hbefore := ih (by omega)
      rw [blankCells_succ, blankCells_succ, int16_eq (by omega)]
      exact hbefore.trans (hbefore.toAlike.writeCell _ _ _ _)

theorem Alike.scroll (h : Alike t t') (hreads : ∀ a ∈ scrollReads, t'.mem a = t.mem a) :
    AlikeAfter t t' t.scroll t'.scroll := by
  rw [scroll_eq, scroll_eq]
  have hmove : AlikeAfter t t'
      { t with mem := memmove videoMemAddr (videoMemAddr + 160) 7840 t.mem }
      { t' with mem := memmove videoMemAddr (videoMemAddr + 160) 7840 t'.mem } := by
    refine ⟨⟨h.row, h.col⟩, fun a => ?_⟩
    simp only [memmove_apply (Nat.le_add_right videoMemAddr 160)]
    split
    · refine Or.inl (hreads _ ?_)
      rw [scrollReads, List.mem_range'_1]
      simp only [vgaWidth, vgaHeight]
      omega
    · exact Or.inr ⟨rfl, rfl⟩
  exact hmove.trans (hmove.toAlike.blankCells (by decide))

theorem AlikeAfter.moveCursor (h : AlikeAfter t t' u u') (m n : Nat) :
    AlikeAfter t t' (u.moveCursor m) (u'.moveCursor n) := ⟨⟨h.row, h.col⟩, h.stored⟩

theorem Alike.newline (h : Alike t t') (hreads : ∀ a ∈ t.newlineReads, t'.mem a = t.mem a) :
    AlikeAfter t t' t.newline t'.newline := by
  unfold newlineReads at hreads
  by_cases hroom : t.fbRow < 24
  · rw [newline_of_room hroom, newline_of_room (by rw [h.row]; exact hroom)]
    refine AlikeAfter.moveCursor ?_ _ _
    exact ⟨⟨congrArg (· + 1) h.row, rfl⟩, fun a => Or.inr ⟨rfl, rfl⟩⟩
  · have hfull : ¬ t.fbRow < vgaHeight - 1 := hroom
    rw [if_neg hfull] at hreads
    have hscroll := h.scroll hreads
    rw [newline_of_full hroom, newline_of_full (by rw [h.row]; exact hroom)]
    refine AlikeAfter.moveCursor ?_ _ _
    exact ⟨⟨hscroll.row, rfl⟩, hscroll.stored⟩

theorem Alike.cursorAdv (h : Alike t t') (hreads : ∀ a ∈ t.cursorAdvReads, t'.mem a = t.mem a) :
    AlikeAfter t t' t.cursorAdv t'.cursorAdv := by
  unfold cursorAdvReads at hreads
  unfold Tty.cursorAdv
  refine AlikeAfter.moveCursor ?_ _ _
  rw [h.col]
  split at hreads
  · rename_i hroom
    rw [if_pos hroom, if_pos hroom]
    exact ⟨⟨h.row, rfl⟩, fun a => Or.inr ⟨rfl, rfl⟩⟩
  · rename_i hfull
    rw [if_neg hfull, if_neg hfull]
    exact h.newline hreads

theorem AlikeAfter.cursorAdv (h : AlikeAfter t t' u u')
    (hreads : ∀ a ∈ u.cursorAdvReads, t'.mem a = t.mem a) :
    AlikeAfter t t' u.cursorAdv u'.cursorAdv :=
  h.trans (h.toAlike.cursorAdv (h.loads hreads))

theorem Alike.tab (h : Alike t t') (hreads : ∀ a ∈ t.tabReads, t'.mem a = t.mem a) :
    AlikeAfter t t' t.tab t'.tab := by
  simp only [tabReads, List.forall_mem_append] at hreads
  obtain ⟨⟨⟨h1, h2⟩, h3⟩, h4⟩ := hreads
  exact (((h.cursorAdv h1).cursorAdv h2).cursorAdv h3).cursorAdv h4

theorem Alike.kprintByte (h : Alike t t') (hscreen : t.OnScreen) (c : UInt8) (fg bg : Nat)
    (hreads : ∀ a ∈ t.kprintByteReads c fg bg, t'.mem a = t.mem a) :
    AlikeAfter t t' (t.kprintByte c fg bg) (t'.kprintByte c fg bg) := by
  unfold kprintByteReads at hreads
  unfold Tty.kprintByte
  split at hreads
  · rename_i hline
    rw [if_pos hline, if_pos hline]
    exact h.newline hreads
  · rename_i hline
    rw [if_neg hline, if_neg hline]
    split at hreads
    · rename_i htab
      rw [if_pos htab, if_pos htab]
      exact h.tab hreads
    · rename_i htab
      have hpos : t'.pos = t.pos := by
        unfold pos
        rw [h.row, h.col]
      have hplace := hscreen.pos_eq
      obtain ⟨hrow, hcol⟩ := hscreen
      rw [if_neg htab, if_neg htab, hpos]
      rw [int16_eq (by omega)] at hreads ⊢
      exact (h.writeCell _ _ _ _).cursorAdv hreads

/-- **The listed bytes are all that printing loads.** -/
theorem Alike.kprintC (h : Alike t t') (hscreen : t.OnScreen) (buf : Nat → UInt8) (n fg bg : Nat)
    (hreads : ∀ a ∈ t.kprintReads buf fg bg n, t'.mem a = t.mem a) :
    AlikeAfter t t' (t.kprintC buf n fg bg) (t'.kprintC buf n fg bg) := by
  induction n with
  | zero => exact AlikeAfter.refl h
  | succ n ih =>
      rw [kprintReads, List.forall_mem_append] at hreads
      have hbefore := ih hreads.1
      rw [kprintC_succ, kprintC_succ]
      exact hbefore.trans (hbefore.toAlike.kprintByte (hscreen.kprintC buf n fg bg) _ _ _
        (hbefore.loads hreads.2))

end Loads

/-- `kprint_c` changes no byte outside the frame and loads none from there. -/
def TouchesFrameOnly (buf : Nat → UInt8) (len fg bg : Nat) (t : Tty) : Prop :=
  (∀ a, ¬ FrameByte a → (t.kprintC buf len fg bg).mem a = t.mem a) ∧
    ∀ a ∈ t.kprintReads buf fg bg len, FrameByte a

section Touches

variable {t t1 t2 : Tty} {p p1 p2 : Canvas.Page Cell} {reads reads1 reads2 : List Nat}

/-- The console writes at the place the canvas does, within the first 25 rows. -/
structure Follows (t : Tty) (p : Canvas.Page Cell) : Prop where
  row : t.fbRow = p.row
  col : t.fbCol = p.col
  row_le : p.row ≤ 24
  col_le : p.col ≤ 79

/-- What happens to the console while the canvas goes on: as long as the canvas has not left the
first 25 rows nothing outside the frame is touched, and then something is. -/
structure Beside (t : Tty) (p : Canvas.Page Cell) (t1 : Tty) (p1 : Canvas.Page Cell)
    (reads : List Nat) : Prop where
  mono : p.row ≤ p1.row
  follows : p1.row ≤ 24 → Follows t1 p1
  same : p1.row ≤ 24 → ∀ a, ¬ FrameByte a → t1.mem a = t.mem a
  inside : p1.row ≤ 24 → ∀ a ∈ reads, FrameByte a
  leaves : 24 < p1.row → ∃ a ∈ reads, ¬ FrameByte a

theorem Beside.moveCursor (h : Beside t p t1 p1 reads) (n : Nat) :
    Beside t p (t1.moveCursor n) p1 reads := by
  obtain ⟨hmono, hfollows, hsame, hinside, hleaves⟩ := h
  refine ⟨hmono, fun hle => ?_, hsame, hinside, hleaves⟩
  obtain ⟨hrow, hcol, hrow24, hcol79⟩ := hfollows hle
  exact ⟨hrow, hcol, hrow24, hcol79⟩

theorem Beside.trans (h : Beside t p t1 p1 reads1) (hmono : p1.row ≤ p2.row)
    (h' : Follows t1 p1 → Beside t1 p1 t2 p2 reads2) : Beside t p t2 p2 (reads1 ++ reads2) := by
  refine ⟨h.mono.trans hmono, fun hle => ?_, fun hle a ha => ?_, fun hle a ha => ?_, fun hlt => ?_⟩
  · exact (h' (h.follows (by omega))).follows hle
  · have hsecond := (h' (h.follows (by omega))).same hle a ha
    exact hsecond.trans (h.same (by omega) a ha)
  · rcases List.mem_append.mp ha with hfirst | hsecond
    · exact h.inside (by omega) a hfirst
    · exact (h' (h.follows (by omega))).inside hle a hsecond
  · by_cases hfirst : p1.row ≤ 24
    · obtain ⟨a, ha, hout⟩ := (h' (h.follows hfirst)).leaves hlt
      exact ⟨a, List.mem_append_right _ ha, hout⟩
    · obtain ⟨a, ha, hout⟩ := h.leaves (by omega)
      exact ⟨a, List.mem_append_left _ ha, hout⟩

/-- The rows below the screen are moved, too: the length is that of two screens less a row. -/
theorem scroll_reads_outside : ∃ a ∈ scrollReads, ¬ FrameByte a :=
  ⟨videoMemAddr + 4000, by simp [scrollReads, videoMemAddr, vgaWidth, vgaHeight],
    by simp [FrameByte, videoMemAddr, vgaWidth, vgaHeight]⟩

theorem cellAt_scroll_below (t : Tty) {r x : Nat} (hr : 25 ≤ r) (hr49 : r < 49) (hx : x < 80) :
    t.scroll.cellAt r x = t.cellAt (r + 1) x := by
  rw [scroll_eq, cellAt_blankCells (by decide), if_neg (by omega)]
  have hsrc : videoMemAddr + 160 + (videoMemAddr + 2 * (80 * r + x) - videoMemAddr) =
      videoMemAddr + 2 * (80 * (r + 1) + x) := by omega
  have hsrc' : videoMemAddr + 160 + (videoMemAddr + 2 * (80 * r + x) + 1 - videoMemAddr) =
      videoMemAddr + 2 * (80 * (r + 1) + x) + 1 := by omega
  simp only [cellAt]
  rw [memmove_apply (by omega), memmove_apply (by omega), if_pos (by omega), if_pos (by omega),
    hsrc, hsrc']

theorem Follows.newline (h : Follows t p) :
    Beside t p t.newline (Canvas.Page.next 1 p) t.newlineReads := by
  obtain ⟨hrow, hcol, hrow24, hcol79⟩ := h
  have hnext : (Canvas.Page.next 1 p).row = p.row + 1 := rfl
  rw [newlineReads]
  by_cases hroom : t.fbRow < 24
  · have hroom' : t.fbRow < vgaHeight - 1 := hroom
    rw [newline_of_room hroom, if_pos hroom']
    refine ⟨by omega, fun hle => ⟨?_, rfl, hle, Nat.le_of_ble_eq_true rfl⟩, fun _ a _ => rfl,
      fun _ a ha => absurd ha List.not_mem_nil, fun hlt => by omega⟩
    rw [hnext, ← hrow]
    rfl
  · have hfull : ¬ t.fbRow < vgaHeight - 1 := hroom
    rw [if_neg hfull]
    exact ⟨by omega, fun hle => by omega, fun hle => by omega, fun hle => by omega,
      fun _ => scroll_reads_outside⟩

theorem Follows.cursorAdv (h : Follows t p) :
    Beside t p t.cursorAdv (p.onward (Canvas.Page.next 1) 80) t.cursorAdvReads := by
  obtain ⟨hrow, hcol, hrow24, hcol79⟩ := h
  unfold Tty.cursorAdv Canvas.Page.onward cursorAdvReads
  by_cases hroom : p.col + 1 < 80
  · have hroom' : t.fbCol < vgaWidth - 1 := show t.fbCol < 79 by omega
    rw [if_pos hroom, if_pos hroom', if_pos hroom']
    refine ⟨Nat.le_refl _, fun hle => ⟨hrow, congrArg (· + 1) hcol, hle, ?_⟩, fun _ a _ => rfl,
      fun _ a ha => absurd ha List.not_mem_nil, fun hlt => ?_⟩
    · exact show p.col + 1 ≤ 79 by omega
    · exact absurd hlt (Nat.not_lt.mpr hrow24)
  · have hfull : ¬ t.fbCol < vgaWidth - 1 := show ¬ t.fbCol < 79 by omega
    rw [if_neg hroom, if_neg hfull, if_neg hfull]
    have hline := Follows.newline ⟨hrow, hcol, hrow24, hcol79⟩
    exact hline.moveCursor _

theorem row_le_onward (p : Canvas.Page Cell) :
    p.row ≤ (p.onward (Canvas.Page.next 1) 80).row := by
  unfold Canvas.Page.onward
  split
  · exact Nat.le_refl _
  · exact Nat.le_succ _

/-- The place after some characters is not above the one before them. -/
theorem row_le_acts (as : List (Act Cell)) (p : Canvas.Page Cell) :
    p.row ≤ (p.acts (Canvas.Page.next 1) 80 as).row := by
  induction as generalizing p with
  | nil => exact Nat.le_refl _
  | cons a as ih =>
      rw [Canvas.Page.acts_cons]
      refine Nat.le_trans ?_ (ih _)
      cases a with
      | newline => exact Nat.le_succ _
      | advance => exact row_le_onward p
      | write c => exact row_le_onward (p.put c)

theorem Follows.tab (h : Follows t p) : Beside t p t.tab
    (p.acts (Canvas.Page.next 1) 80 [.advance, .advance, .advance, .advance]) t.tabReads := by
  have htwo := h.cursorAdv.trans (row_le_onward _) Follows.cursorAdv
  have hthree := htwo.trans (row_le_onward _) Follows.cursorAdv
  exact hthree.trans (row_le_onward _) Follows.cursorAdv

theorem Follows.writeCell (h : Follows t p) (c : UInt8) (fg bg : Nat) :
    Beside t p (t.writeCell (int16 t.pos) c.toNat fg bg) (p.put (cellOf c fg bg)) [] := by
  obtain ⟨hrow, hcol, hrow24, hcol79⟩ := h
  have hpos := (displays_page (t := t) (by omega) (by omega)).pos_eq
  simp only [page] at hpos
  rw [hpos, int16_eq (by omega), writeCell_cast]
  refine ⟨Nat.le_refl _, fun hle => ⟨hrow, hcol, hle, hcol79⟩, fun _ a ha => ?_,
    fun _ a ha => absurd ha List.not_mem_nil, fun hlt => absurd hlt (Nat.not_lt.mpr hrow24)⟩
  simp only [FrameByte, vgaWidth, vgaHeight] at ha
  dsimp only
  rw [write8_apply_of_ne (by omega), write8_apply_of_ne (by omega)]

theorem Follows.kprintByte (h : Follows t p) (c : UInt8) (fg bg : Nat) :
    Beside t p (t.kprintByte c fg bg) (p.acts (Canvas.Page.next 1) 80 (actsOf fg bg c))
      (t.kprintByteReads c fg bg) := by
  unfold Tty.kprintByte actsOf kprintByteReads
  split
  · exact h.newline
  · split
    · exact h.tab
    · exact (h.writeCell c fg bg).trans (row_le_acts [.advance] _) Follows.cursorAdv

theorem Follows.kprintC (h : Follows t t.canvas) (buf : Nat → UInt8) (n fg bg : Nat) :
    Beside t t.canvas (t.kprintC buf n fg bg) (t.printed buf n fg bg)
      (t.kprintReads buf fg bg n) := by
  induction n with
  | zero =>
      exact ⟨Nat.le_refl _, fun _ => h, fun _ a _ => rfl, fun _ a ha => absurd ha List.not_mem_nil,
        fun hlt => absurd hlt (Nat.not_lt.mpr h.row_le)⟩
  | succ n ih =>
      have hprinted : t.printed buf (n + 1) fg bg =
          (t.printed buf n fg bg).acts (Canvas.Page.next 1) 80 (actsOf fg bg (buf n)) := by
        unfold printed actsOfBuf
        rw [List.range_succ, List.flatMap_append, Canvas.Page.acts_append, List.flatMap_singleton]
      rw [kprintC_succ, hprinted, kprintReads]
      exact ih.trans (row_le_acts _ _) fun hfollows => hfollows.kprintByte (buf n) fg bg

/-- **Printing keeps to the frame** exactly as long as the text, laid out from the cursor on, does
not go beyond the last row. -/
theorem touchesFrameOnly_iff (t : Tty) (buf : Nat → UInt8) (len fg bg : Nat) (hrow : t.fbRow ≤ 24)
    (hcol : t.fbCol ≤ 79) :
    t.TouchesFrameOnly buf len fg bg ↔ (t.printed buf len fg bg).row ≤ 24 := by
  have hbeside := Follows.kprintC ⟨rfl, rfl, hrow, hcol⟩ buf len fg bg
  constructor
  · rintro ⟨-, hinside⟩
    by_contra hbeyond
    obtain ⟨a, ha, hout⟩ := hbeside.leaves (Nat.lt_of_not_le hbeyond)
    exact hout (hinside a ha)
  · exact fun hle => ⟨hbeside.same hle, hbeside.inside hle⟩

end Touches

end Tty

theorem touchesFrameOnly_iff_bareTty :
    bareTty.TouchesFrameOnly (fun _ => 0x0A) 3 15 0 ↔
      (bareTty.printed (fun _ => 0x0A) 3 15 0).row ≤ 24 :=
  bareTty.touchesFrameOnly_iff (fun _ => 0x0A) 3 15 0 (by decide) (by decide)

/-- The console with the cursor in the last row, and an `A` in the second row below the screen. -/
def fullTty : Tty :=
  { mem := fun a => if a = videoMemAddr + 4160 then 0x41 else 0, fbCol := 1, fbRow := 24
    crtcIndex := 0, crtc := fun _ => 0, written := [] }

/-- A line feed in the last row moves what lies below the screen. -/
theorem not_touchesFrameOnly : ¬ ∀ (t : Tty) (buf : Nat → UInt8) (len fg bg : Nat), t.fbRow ≤ 24 →
    t.fbCol ≤ 79 → t.TouchesFrameOnly buf len fg bg := by
  intro hall
  obtain ⟨hsame, -⟩ := hall fullTty (fun _ => 0x0A) 1 15 0 (by decide) (by decide)
  have hkept := hsame (videoMemAddr + 4000) (by simp [Tty.FrameByte, vgaWidth, vgaHeight])
  have hmem : (fullTty.kprintC (fun _ => 0x0A) 1 15 0).mem = fullTty.scroll.mem := by
    rw [show fullTty.kprintC (fun _ => 0x0A) 1 15 0 = fullTty.newline from rfl,
      Tty.newline_of_full (by decide), Tty.moveCursor_mem]
  have hcell := Tty.cellAt_scroll_below fullTty (show 25 ≤ 25 by decide) (by decide)
    (show 0 < 80 by decide)
  simp only [Tty.cellAt, Prod.mk.injEq] at hcell
  have hmoved : fullTty.scroll.mem (videoMemAddr + 4000) = 0x41 := hcell.1
  have hbelow : fullTty.mem (videoMemAddr + 4000) = 0 := by simp [fullTty]
  rw [hmem, hmoved, hbelow] at hkept
  exact absurd hkept (by decide)

end Vulcanos
