import Vulcanos.CommandLine
import Vulcanos.Handlers
import Vulcanos.Library.Simulation
import Vulcanos.Printf

/-!
# The machine as a terminal

What the kernel is for once it has booted: it echoes the keys, runs the lines, and counts the ticks.
The terminal below has a page of cells in place of video memory, a line in place of the driver's
arrays, no interrupt table and no controllers; the kernel's handlers refine it, interrupt by
interrupt and over every run, and where the one stops the other does for the same reason.
-/

namespace Vulcanos

open Simulation Word

/-! ### The page -/

/-- The page with some text behind the last one. -/
def typeText (s : List UInt8) (fg : TtyColors) (p : Canvas.Page Cell) : Canvas.Page Cell :=
  p.acts Tty.scrollPage 80 (s.flatMap (actsOf fg.code TtyColors.black.code))

/-- The page with what some calls of `kprint_c` print. -/
def typePrints (prints : List Print) (p : Canvas.Page Cell) : Canvas.Page Cell :=
  prints.foldl (fun p x => p.acts Tty.scrollPage 80 (Tty.actsOfBuf x.buf x.len x.fg x.bg)) p

/-- An empty screen. -/
def blankPage : Canvas.Page Cell := { cell := fun _ _ => blankCell, row := 0, col := 1 }

/-- A prompt on a row of its own. -/
def typePrompt (p : Canvas.Page Cell) : Canvas.Page Cell :=
  typeText (bytesOf " #> ") .lightBlue (typeText defaultHostname .lightMagenta
    (typeText (bytesOf "@") .lightRed (typeText defaultUser .lightCyan (Tty.scrollPage p))))

namespace Tty

section Displays

variable {t : Tty} {p : Canvas.Page Cell}

theorem Displays.kprintStr (h : Displays t p) (s : List UInt8) (fg : TtyColors) :
    Displays (t.kprintStr s fg .black) (typeText s fg p) := by
  have hacts : actsOfBuf (fun i => s.getD i 0) s.length fg.code TtyColors.black.code =
      s.flatMap (actsOf fg.code TtyColors.black.code) := by
    have hbytes : (List.range s.length).map (fun i => s.getD i 0) = s := by
      refine List.ext_getElem (by simp) fun i hi _ => ?_
      rw [List.getElem_map, List.getElem_range]
      exact List.getD_eq_getElem _ _ (by simpa using hi)
    rw [actsOfBuf, ← List.flatMap_map, hbytes]
  have hprint := h.kprintC (fun i => s.getD i 0) s.length fg.code TtyColors.black.code
  rw [hacts] at hprint
  exact hprint

theorem Displays.initPrompt (h : Displays t p) : Displays t.initPrompt (typePrompt p) := by
  unfold Tty.initPrompt
  exact (((h.newline.kprintStr _ _).kprintStr _ _).kprintStr _ _).kprintStr _ _

theorem Displays.afterPrints (h : Displays t p) (prints : List Print) :
    Displays (t.afterPrints prints) (typePrints prints p) := by
  unfold Tty.afterPrints typePrints
  induction prints generalizing t p with
  | nil => exact h
  | cons x prints ih => exact ih (h.kprintC x.buf x.len x.fg x.bg)

theorem Displays.backspace (h : Displays t p) (hpos : 0 < p.col) :
    Displays t.backspace (p.back blankCell) := by
  have hcol := h.col
  have hrow := h.row
  have hlt := h.col_lt
  obtain ⟨hplace, hplace'⟩ := h.onScreen.backspace_place (by omega)
  refine ⟨hplace'.trans hrow, hplace.trans (by rw [hcol]; rfl), h.row_lt,
    show p.col - 1 < 80 by omega, fun r hr x hx => ?_⟩
  rw [h.onScreen.cellAt_backspace (by omega), h.cell r hr x hx]
  change _ = if r = p.row ∧ x = p.col - 1 then blankCell else p.cell r x
  exact if_congr (by omega) rfl rfl

theorem displays_clearPrompt (t : Tty) : Displays t.clearPrompt blankPage := by
  obtain ⟨hcol, hrow, -⟩ := clearPrompt_place t
  refine ⟨hrow, hcol, by decide, by decide, fun r hr x hx => ?_⟩
  have hblank := cellAt_blankCells (b := 0) (n := 2000) (by decide)
    { t with fbCol := 1, fbRow := 0 } r x
  rw [if_pos (by omega), cellAt, ← moveCursor_mem _ 0, ← clearPrompt_eq] at hblank
  exact hblank

end Displays

end Tty

/-! ### The terminal -/

/-- A terminal: the ticks that were counted, the characters of the line that has been begun, and the
page that is shown. -/
structure Terminal where
  tick : Nat
  line : List UInt8
  page : Canvas.Page Cell

namespace Terminal

section Step

variable (past : Nat → UInt8) (behind : Nat → List UInt8)

/-- A command shows what it prints, and `clear` an empty screen. -/
def answer (c : ShellCommand) (prints : List Print) (p : Canvas.Page Cell) : Canvas.Page Cell :=
  if c = .clearPrompt then blankPage else typePrints prints p

/-- The command of the line, which ends at its first blank slot, if it has one. -/
def command (t : Terminal) : ShellCommand := ShellCommand.select (cString t.line ++ [0])

/-- The end of the line: its command runs, and a new prompt is shown, if it comes back. -/
def enter (e : Surroundings) (t : Terminal) : Except Halt Terminal :=
  match System.commandPrints behind t.tick e t.command with
  | some prints => .ok { t with line := [], page := typePrompt (answer t.command prints t.page) }
  | none => .error (System.commandHalt e t.command)

/-- A key. A backspace blanks what it does not take away. -/
def key (scanCode : Nat) (e : Surroundings) (t : Terminal) : Except Halt Terminal :=
  let c := keycodeOf past scanCode
  if scanCode &&& 0x80 ≠ 0 then .ok t
  else if c = 0x08 then
    if t.line = [] then .ok t
    else .ok { t with
      line := List.replicate (t.line.length - 1) 0
      page := t.page.back blankCell }
  else if c = 0x0A then t.enter behind e
  else .ok { t with line := t.line ++ [c], page := typePrints [printByte c] t.page }

/-- An interrupt, as far as it is seen. A page fault is the end. -/
def step (i : Interrupt) (t : Terminal) : Except Halt Terminal :=
  if i.vector = irq0 then .ok { t with tick := (t.tick + 1) % 4294967296 }
  else if i.vector = irq1 then t.key past behind i.scanCode i.around
  else if i.vector = 14 then .error (.stop (.panic "Page fault"))
  else if i.vector < 32 then
    .ok { t with page := typePrints (System.report behind i.vector) t.page }
  else .ok t

/-- One interrupt after the other. -/
def run (is : List Interrupt) (t : Terminal) : Except Halt Terminal :=
  is.foldlM (fun t i => t.step past behind i) t

/-- A key finds room: in the line, on the row of the page for a backspace that deletes, and in the
array of `timer_dump`. -/
structure KeyRoom (scanCode : Nat) (t : Terminal) : Prop where
  line : t.line.length < 512
  column : KeyEvent.Erases past ⟨scanCode, []⟩ → t.line ≠ [] → 0 < t.page.col
  ticks : KeyEvent.Enters past ⟨scanCode, []⟩ → t.command = .timerDump → t.tick < 10000000

/-- The vector has a stub that comes back, and a key finds room. -/
def Room (i : Interrupt) (t : Terminal) : Prop :=
  i.ComesBack ∧ (i.vector = irq1 → KeyRoom past i.scanCode t)

end Step

/-- The system shows the terminal. -/
structure Shows (s : System) (t : Terminal) : Prop where
  registered : s.Registered
  idle : s.Idle
  tick : s.tick = t.tick
  line : s.keyboard.Holds t.line
  page : s.keyboard.tty.Displays t.page

/-! ### The line -/

section Line

variable {s rest : List UInt8} {k : Keyboard} {slots : List UInt8}

theorem select_append (hs : 0 ∉ s) (rest : List UInt8) :
    ShellCommand.select (s ++ 0 :: rest) = ShellCommand.select (s ++ [0]) := by
  by_cases hc : ShellCommand.select (s ++ [0]) = .notFound
  · by_contra hne
    rw [hc] at hne
    have hname := (ShellCommand.select_iff hs rest hne).mp rfl
    exact absurd ((ShellCommand.select_iff hs [] hne).mpr hname) (by rw [hc]; exact Ne.symm hne)
  · exact (ShellCommand.select_iff hs rest hc).mpr ((ShellCommand.select_iff hs [] hc).mp rfl)

theorem zero_notMem_cString (bytes : List UInt8) : 0 ∉ cString bytes := by
  intro hmem
  have h := List.mem_takeWhile_imp hmem
  simp at h

theorem cString_append_of_mem {bytes : List UInt8} (h : 0 ∈ bytes) :
    ∃ rest, bytes = cString bytes ++ 0 :: rest := by
  induction bytes with
  | nil => exact absurd h List.not_mem_nil
  | cons b bytes ih =>
      by_cases hb : b = 0
      · exact ⟨bytes, by rw [hb]; rfl⟩
      · obtain ⟨rest, hrest⟩ := ih ((List.mem_cons.mp h).resolve_left (Ne.symm hb))
        refine ⟨rest, ?_⟩
        rw [cString, List.takeWhile_cons_of_pos (by simpa using hb), List.cons_append]
        exact congrArg (b :: ·) hrest

theorem select_commandBytes (h : k.Holds slots) (hlen : slots.length < 512) :
    ShellCommand.select k.commandBytes = ShellCommand.select (cString slots ++ [0]) := by
  obtain ⟨rest, hrest⟩ := cString_append_of_mem
    ((h.nul_mem_iff (Nat.le_of_lt hlen)).mpr (Or.inl hlen))
  rw [hrest, h.cString_commandBytes (Nat.le_of_lt hlen)]
  exact select_append (zero_notMem_cString slots) rest

theorem displays_processCommand {t : Tty} {p : Canvas.Page Cell} (h : t.Displays p)
    (cmd : List UInt8) (prints : List Print) :
    (processCommand cmd prints t).Displays (answer (ShellCommand.select cmd) prints p) := by
  have hclear := select_clearPrompt_iff cmd
  unfold processCommand answer
  by_cases hc : ShellCommand.select cmd = .clearPrompt
  · rw [if_pos (hclear.mp hc), if_pos hc]
    exact Tty.displays_clearPrompt t
  · rw [if_neg (mt hclear.mpr hc), if_neg hc]
    exact h.afterPrints prints

end Line

/-! ### One interrupt -/

section Interrupts

variable {past : Nat → UInt8} {behind : Nat → List UInt8} {s : System} {t : Terminal}
  {i : Interrupt}

theorem Shows.command_eq (h : Shows s t) (hlen : t.line.length < 512) :
    ShellCommand.select s.keyboard.commandBytes = t.command := select_commandBytes h.line hlen

/-- The driver with what the command prints, and the terminal with the line and the page that are
left. -/
theorem Shows.callback (h : Shows s t) (hlen : t.line.length < 512) {e : KeyEvent}
    {p : Canvas.Page Cell}
    (hpage : (keyboardCallback past e s.keyboard).tty.Displays p) :
    Shows { s with keyboard := keyboardCallback past e s.keyboard }
      { t with line := pend past e t.line, page := p } :=
  ⟨h.registered, ⟨h.idle.master, h.idle.slave⟩, h.tick, h.line.callback (Nat.le_of_lt hlen), hpage⟩

theorem Shows.key_enter (h : Shows s t) (hlen : t.line.length < 512) (hv : i.vector = irq1)
    (henter : KeyEvent.Enters past ⟨i.scanCode, []⟩) :
    Matches Shows (s.interrupt past behind i) (t.enter behind i.around) := by
  have hcommand := h.command_eq hlen
  rw [System.interrupt_keyboard h.registered h.idle hv]
  rcases Option.eq_none_or_eq_some (System.commandPrints behind t.tick i.around t.command) with
    hprints | ⟨prints, hprints⟩
  · rw [System.keyboardCallback_of_none (s := s) _ henter
      (by rw [hcommand, h.tick]; exact hprints), hcommand, enter, hprints]
    exact .stops _
  · have henter' : KeyEvent.Enters past ⟨i.scanCode, prints⟩ := henter
    rw [System.keyboardCallback_of_some h.registered.unregistered henter'
      (by rw [hcommand, h.tick]; exact hprints), enter, hprints]
    have hne : keycodeOf past i.scanCode ≠ 0x08 := by
      rw [henter.2]
      decide
    have hline : pend past ⟨i.scanCode, prints⟩ t.line = [] := by
      rw [pend, if_neg henter'.1, if_neg hne, if_pos henter'.2]
    have hpage : (keyboardCallback past ⟨i.scanCode, prints⟩ s.keyboard).tty.Displays
        (typePrompt (answer t.command prints t.page)) := by
      rw [Keyboard.tty_callback_enter henter', ← hcommand]
      exact (displays_processCommand h.page _ prints).initPrompt
    have hshows := h.callback hlen hpage
    rw [hline] at hshows
    exact .returns hshows

/-- A key that does not end the line, with the line and the page that it leaves. -/
theorem Shows.key_of_not_enters (behind : Nat → List UInt8) (h : Shows s t)
    (hlen : t.line.length < 512) (hv : i.vector = irq1)
    (hno : ¬ KeyEvent.Enters past ⟨i.scanCode, []⟩) {p : Canvas.Page Cell}
    (hpage : (keyboardCallback past ⟨i.scanCode, []⟩ s.keyboard).tty.Displays p) :
    Matches Shows (s.interrupt past behind i)
      (.ok { t with line := pend past ⟨i.scanCode, []⟩ t.line, page := p }) := by
  rw [System.interrupt_keyboard h.registered h.idle hv,
    System.keyboardCallback_of_not_enters _ hno]
  exact .returns (h.callback hlen hpage)

theorem Shows.key (h : Shows s t) (hroom : KeyRoom past i.scanCode t) (hv : i.vector = irq1) :
    Matches Shows (s.interrupt past behind i) (t.key past behind i.scanCode i.around) := by
  have hindex := h.line.cmdIndex
  have hlen := hroom.line
  rcases KeyEvent.kind past ⟨i.scanCode, []⟩ with hrelease | herase | henter | hfill
  · have hbit : i.scanCode &&& 0x80 ≠ 0 := hrelease
    have hpage : (keyboardCallback past ⟨i.scanCode, []⟩ s.keyboard).tty.Displays t.page := by
      rw [Keyboard.callback_release hrelease]
      split <;> exact h.page
    have hmatches := h.key_of_not_enters behind hlen hv
      (fun henter => henter.1 hrelease) hpage
    rw [pend, if_pos hrelease] at hmatches
    simp only [Terminal.key, if_pos hbit]
    exact hmatches
  · have hbit : ¬ i.scanCode &&& 0x80 ≠ 0 := herase.1
    have hcode : keycodeOf past i.scanCode = 0x08 := herase.2
    have htty := Keyboard.tty_callback_erase (k := s.keyboard) (by omega) herase
    have hno : ¬ KeyEvent.Enters past ⟨i.scanCode, []⟩ := by
      intro henter
      have heq := herase.2.symm.trans henter.2
      exact absurd heq (by decide)
    have hpend : pend past ⟨i.scanCode, []⟩ t.line = List.replicate (t.line.length - 1) 0 := by
      rw [pend, if_neg herase.1, if_pos herase.2]
    simp only [Terminal.key, if_neg hbit, if_pos hcode]
    by_cases hempty : t.line = []
    · have hsame : List.replicate (t.line.length - 1) 0 = t.line := by
        rw [hempty]
        rfl
      rw [hindex, if_pos (List.length_eq_zero_iff.mpr hempty)] at htty
      have hmatches := h.key_of_not_enters behind hlen hv hno (htty ▸ h.page)
      rw [hpend, hsame] at hmatches
      rw [if_pos hempty]
      exact hmatches
    · rw [hindex, if_neg (mt List.length_eq_zero_iff.mp hempty)] at htty
      have hback := h.page.backspace (hroom.column herase hempty)
      have hmatches := h.key_of_not_enters behind hlen hv hno (htty ▸ hback)
      rw [hpend] at hmatches
      rw [if_neg hempty]
      exact hmatches
  · have hbit : ¬ i.scanCode &&& 0x80 ≠ 0 := henter.1
    have hcode : keycodeOf past i.scanCode = 0x0A := henter.2
    have hne : keycodeOf past i.scanCode ≠ 0x08 := by
      rw [hcode]
      decide
    simp only [Terminal.key, if_neg hbit, if_neg hne, if_pos hcode]
    exact h.key_enter hlen hv henter
  · have hbit : ¬ i.scanCode &&& 0x80 ≠ 0 := hfill.1
    have hcode : keycodeOf past i.scanCode ≠ 0x08 ∧ keycodeOf past i.scanCode ≠ 0x0A := hfill.2
    have hpage : (keyboardCallback past ⟨i.scanCode, []⟩ s.keyboard).tty.Displays
        (typePrints [printByte (keycodeOf past i.scanCode)] t.page) := by
      rw [Keyboard.callback_fill hfill]
      exact h.page.afterPrints [printByte (keycodeOf past i.scanCode)]
    have hmatches := h.key_of_not_enters behind hlen hv
      (fun henter => hfill.2.2 henter.2) hpage
    rw [pend, if_neg hfill.1, if_neg hfill.2.1, if_neg hfill.2.2] at hmatches
    simp only [Terminal.key, if_neg hbit, if_neg hcode.1, if_neg hcode.2]
    exact hmatches

/-- **One interrupt** of the system is one of the terminal. -/
theorem Shows.step (h : Shows s t) (hroom : Room past i t) :
    Matches Shows (s.interrupt past behind i) (t.step past behind i) := by
  obtain ⟨⟨hlast, -⟩, hkey⟩ := hroom
  unfold Terminal.step
  by_cases h0 : i.vector = irq0
  · rw [if_pos h0, System.interrupt_timer h.registered h.idle h0]
    refine .returns ⟨h.registered, ⟨h.idle.master, h.idle.slave⟩, ?_, h.line, h.page⟩
    rw [← h.tick]
    rfl
  · rw [if_neg h0]
    by_cases h1 : i.vector = irq1
    · rw [if_pos h1]
      exact h.key (hkey h1) h1
    · rw [if_neg h1]
      by_cases hfault : i.vector = 14
      · rw [if_pos hfault, System.interrupt_pageFault h.registered hfault]
        exact .stops _
      · rw [if_neg hfault]
        by_cases hexc : i.vector < 32
        · rw [if_pos hexc, System.interrupt_exception h.registered hexc hfault]
          exact .returns ⟨h.registered, ⟨h.idle.master, h.idle.slave⟩, h.tick,
            h.line.with_tty _, h.page.afterPrints _⟩
        · rw [if_neg hexc, h.idle.interrupt_request (by omega) hlast, h.registered,
            if_neg hfault, if_neg h1, if_neg h0]
          exact .returns h

end Interrupts

/-! ### Runs -/

section Runs

variable {past : Nat → UInt8} {behind : Nat → List UInt8} {s : System} {t : Terminal}
  {is : List Interrupt}

/-- **Every run of the kernel's handlers is a run of the terminal**, and it comes to an end where
the terminal's does, for the same reason. -/
theorem run_refines_terminal (h : Shows s t)
    (hroom : Within (fun i t => step past behind i t) (Room past) is t) :
    Matches Shows (s.run past behind is) (t.run past behind is) :=
  matches_foldlM (fun _ _ _ hshows hfits => hshows.step hfits) h hroom

theorem shows_bare : Shows System.bare.initHandlers ⟨0, [], bareKeyboard.tty.page⟩ :=
  ⟨System.registered_initHandlers fun _ => rfl, ⟨System.idle_bare.1, System.idle_bare.2⟩, rfl,
    ⟨rfl, fun _ _ => rfl⟩, Tty.displays_page (by decide) (by decide)⟩

/-- The timer, a key, a backspace, Enter and a page fault. -/
theorem run_refines_terminal_bare :
    Matches Shows
      (System.bare.initHandlers.run (fun _ => 0) (fun _ => [])
        [.raised 32 0, .raised 33 30, .raised 33 14, .raised 33 28, .raised 14 0])
      (.error (.stop (.panic "Page fault"))) := by
  refine run_refines_terminal (t := ⟨0, [], bareKeyboard.tty.page⟩) shows_bare ?_
  refine .cons ⟨by decide, fun h => absurd h (by decide)⟩ rfl ?_
  refine .cons ⟨by decide, fun _ => ⟨by decide, fun h => absurd h (by decide),
    fun h => absurd h (by decide)⟩⟩ rfl ?_
  refine .cons ⟨by decide, fun _ => ⟨by decide, fun _ _ => by decide,
    fun h => absurd h (by decide)⟩⟩ rfl ?_
  refine .cons ⟨by decide, fun _ => ⟨by decide, fun h => absurd h (by decide),
    fun _ _ => by decide⟩⟩ rfl ?_
  exact ⟨⟨by decide, fun h => absurd h (by decide)⟩, fun _ _ => trivial⟩

end Runs

end Terminal

end Vulcanos
