import Vulcanos.Kernel.Isr
import Vulcanos.Proof.Keyboard
import Vulcanos.Strings

/-!
# What an interrupt does

The shell that runs inside the keyboard handler prints, clears the screen or ends the run, so the
driver with the shell inside is the driver to which each Enter brings what is printed. What is typed
does not depend on the console, and a chip whose requests are ended one by one has none in service.
-/

namespace Vulcanos

open Word

/-! ### The line and the console -/

namespace Keyboard

variable {past : Nat → UInt8} {k k' : Keyboard} {t : Tty} {e e' : KeyEvent}

/-- The driver with another console. -/
def withTty (t : Tty) (k : Keyboard) : Keyboard := { k with tty := t }

theorem storeCommand_withTty (i : Nat) (c : UInt8) (t : Tty) (k : Keyboard) :
    (k.withTty t).storeCommand i c = (k.storeCommand i c).withTty t := rfl

theorem clear_withTty (t : Tty) (k : Keyboard) : (k.withTty t).clear = k.clear.withTty t := by
  unfold clear
  exact List.foldl_hom (withTty t) fun k i => storeCommand_withTty i 0 t k

theorem saveCommand_withTty (t : Tty) (k : Keyboard) :
    (k.withTty t).saveCommand = k.saveCommand.withTty t := by
  unfold saveCommand
  exact List.foldl_hom (withTty t) fun _ _ => rfl

theorem restoreCommand_withTty (t : Tty) (k : Keyboard) :
    (k.withTty t).restoreCommand = k.restoreCommand.withTty t := by
  unfold restoreCommand
  exact List.foldl_hom (withTty t) fun _ _ => rfl

theorem dropLast_withTty (t : Tty) (k : Keyboard) :
    (k.withTty t).dropLast = k.dropLast.withTty t := by
  have hless : { k.withTty t with cmdIndex := (k.withTty t).cmdIndex - 1 } =
      ({ k with cmdIndex := k.cmdIndex - 1 } : Keyboard).withTty t := rfl
  rw [dropLast, hless, saveCommand_withTty, clear_withTty, restoreCommand_withTty,
    clearTmp_eq_clear, clear_withTty, dropLast, clearTmp_eq_clear]

theorem runShell_withTty (prints prints' : List Print) (t : Tty) (k : Keyboard) :
    (k.withTty t).runShell prints =
      (k.runShell prints').withTty (Vulcanos.processCommand k.commandBytes prints t) := by
  have hbytes : (k.withTty t).commandBytes = k.commandBytes := rfl
  rw [runShell, runShell, hbytes]
  rfl

theorem fill_withTty (c : UInt8) (t : Tty) (k : Keyboard) :
    ∃ t', (k.withTty t).fill c = (k.fill c).withTty t' := by
  refine ⟨t.kprintC (fun _ => c) 1 TtyColors.white.code TtyColors.black.code, ?_⟩
  simp only [fill, withTty, storeCommand]

/-- **What is typed does not depend on the console**, nor on what the commands print. -/
theorem callback_withTty (hcode : e.scanCode = e'.scanCode) (t : Tty) (k : Keyboard) :
    ∃ t', keyboardCallback past e (k.withTty t) = (keyboardCallback past e' k).withTty t' := by
  have hlook : (k.withTty t).look e.scanCode = (k.look e'.scanCode).withTty t := by
    rw [hcode]
    rfl
  rcases e.kind past with hrelease | herase | henter | hfill
  · have hrelease' : e'.Release := by
      unfold KeyEvent.Release
      rw [← hcode]
      exact hrelease
    rw [callback_release hrelease, callback_release hrelease', hlook, hcode]
    split
    · exact ⟨t, rfl⟩
    · exact ⟨t, rfl⟩
  · have herase' : e'.Erases past := by
      unfold KeyEvent.Erases KeyEvent.Release
      rw [← hcode]
      exact herase
    by_cases hempty : k.cmdIndex = 0
    · rw [callback_erase_empty (k := k.withTty t) herase hempty,
        callback_erase_empty herase' hempty, hlook]
      exact ⟨t, rfl⟩
    · rw [callback_erase (k := k.withTty t) herase hempty, callback_erase herase' hempty, hlook,
        dropLast_withTty]
      exact ⟨_, rfl⟩
  · have henter' : e'.Enters past := by
      unfold KeyEvent.Enters KeyEvent.Release
      rw [← hcode]
      exact henter
    rw [callback_enter henter, callback_enter henter', hlook,
      runShell_withTty e.prints e'.prints, clear_withTty]
    generalize ((k.look e'.scanCode).runShell e'.prints).clear = left
    generalize Vulcanos.processCommand _ _ _ = shown
    exact ⟨shown.initPrompt, rfl⟩
  · have hfill' : e'.Fills past := by
      unfold KeyEvent.Fills KeyEvent.Release
      rw [← hcode]
      exact hfill
    rw [callback_fill hfill, callback_fill hfill', hlook, hcode]
    exact fill_withTty _ t _

/-- The drivers differ in their consoles only. -/
def SameLine (k k' : Keyboard) : Prop := ∃ t, k' = k.withTty t

theorem SameLine.refl (k : Keyboard) : SameLine k k := ⟨k.tty, rfl⟩

theorem SameLine.symm (h : SameLine k k') : SameLine k' k := by
  obtain ⟨t, rfl⟩ := h
  exact ⟨k.tty, rfl⟩

theorem SameLine.trans {k'' : Keyboard} (h : SameLine k k') (h' : SameLine k' k'') :
    SameLine k k'' := by
  obtain ⟨t, rfl⟩ := h
  obtain ⟨t', rfl⟩ := h'
  exact ⟨t', rfl⟩

theorem SameLine.callback (h : SameLine k k') (hcode : e.scanCode = e'.scanCode) :
    SameLine (keyboardCallback past e k) (keyboardCallback past e' k') := by
  obtain ⟨t, rfl⟩ := h
  obtain ⟨t', heq⟩ : ∃ t', keyboardCallback past e' (k.withTty t) =
      (keyboardCallback past e k).withTty t' := callback_withTty hcode.symm t k
  exact ⟨t', heq⟩

end Keyboard

/-! ### `strcmp` and the commands -/

section Select

variable {s t cmd : List UInt8}

/-- A comparison that finds no difference has read the literal and its NUL. -/
theorem strcmp_eq_zero (ht : 0 ∉ t) (h : strcmp s (t ++ [0]) = some 0) :
    ∃ rest, s = t ++ 0 :: rest := by
  induction t generalizing s with
  | nil =>
      cases s with
      | nil => simp [strcmp] at h
      | cons a s =>
          by_cases ha : a = 0
          · exact ⟨s, by rw [ha]; rfl⟩
          · have hvalue : a.toNat = 0 := by simpa [strcmp, ha] using h
            exact absurd (UInt8.toNat_inj.mp hvalue) ha
  | cons b t ih =>
      rw [List.mem_cons, not_or] at ht
      cases s with
      | nil => simp [strcmp] at h
      | cons a s =>
          rw [List.cons_append, strcmp] at h
          split at h
          · rename_i heq
            obtain ⟨rest, hrest⟩ := ih ht.2 h
            exact ⟨rest, by rw [heq.2, hrest]; rfl⟩
          · rename_i hne
            have hdiff := Option.some.inj h
            obtain rfl : a = b := UInt8.toNat_inj.mp (by omega)
            exact absurd ⟨Ne.symm ht.1, rfl⟩ hne

/-- The screen is cleared for the lines that the driver's own comparison clears it for. -/
theorem select_clearPrompt_iff (cmd : List UInt8) : ShellCommand.select cmd = .clearPrompt ↔
    strcmp cmd (literal "clear") = some 0 ∨ strcmp cmd (literal "cls") = some 0 := by
  constructor
  · intro h
    rcases ShellCommand.compared_select cmd with hnone | ⟨x, hx, hcmp⟩
    · rw [h] at hnone
      cases hnone
    · rw [h] at hx
      rcases List.mem_pair.mp hx with rfl | rfl
      · exact Or.inl hcmp
      · exact Or.inr hcmp
  · rintro (h | h)
    · obtain ⟨rest, rfl⟩ := strcmp_eq_zero (by decide) h
      exact ShellCommand.select_name (c := .clearPrompt) (by decide) rest
    · obtain ⟨rest, rfl⟩ := strcmp_eq_zero (by decide) h
      exact ShellCommand.select_name (c := .clearPrompt) (by decide) rest

end Select

end Vulcanos
