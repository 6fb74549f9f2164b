import Vulcanos.Kernel.Keyboard
import Vulcanos.Proof.Tty

/-!
# The pending line

What `keyboard_callback` does to the line being typed, key by key. The line is a list of slots: a
key that is neither backspace nor Enter fills one more, Enter empties the list, and a backspace
takes the last one away and blanks all the others, since both `clear` and `clear_tmp` clear
`command`.
-/

namespace Vulcanos

open Word

/-- An access inside the array it is for. -/
def Access.InBounds : Access → Prop
  | .readScanCodes i => i < keyboardScanCodes.length
  | .storeCommand i => i < 512
  | .storeTemp i => i < 512

namespace Keyboard

/-! ### The loops over the two arrays -/

/-- A loop of stores inside the arrays leaves everything else alone. -/
structure Quiet (k k' : Keyboard) : Prop where
  cmdIndex : k'.cmdIndex = k.cmdIndex
  shiftdown : k'.shiftdown = k.shiftdown
  tty : k'.tty = k.tty
  received : k'.received = k.received
  keeps : ∀ a, a ∈ k.trace → a ∈ k'.trace
  trace : ∀ a, a ∈ k'.trace → a ∈ k.trace ∨ a.InBounds

section Loops

variable {k k' k'' : Keyboard} {i n : Nat} {c : UInt8}

theorem Quiet.refl (k : Keyboard) : Quiet k k :=
  ⟨rfl, rfl, rfl, rfl, fun _ h => h, fun _ h => Or.inl h⟩

theorem Quiet.trans (h : Quiet k k') (h' : Quiet k' k'') : Quiet k k'' := by
  refine ⟨h'.cmdIndex.trans h.cmdIndex, h'.shiftdown.trans h.shiftdown, h'.tty.trans h.tty,
    h'.received.trans h.received, fun a ha => h'.keeps a (h.keeps a ha), ?_⟩
  intro a ha
  rcases h'.trace a ha with hmid | hin
  · exact h.trace a hmid
  · exact Or.inr hin

theorem quiet_storeCommand (hi : i < 512) (c : UInt8) (k : Keyboard) :
    Quiet k (k.storeCommand i c) := by
  refine ⟨rfl, rfl, rfl, rfl, fun _ ha => List.mem_cons_of_mem _ ha, ?_⟩
  intro a ha
  rcases List.mem_cons.mp ha with rfl | hold
  · exact Or.inr hi
  · exact Or.inl hold

theorem quiet_storeTemp (hi : i < 512) (c : UInt8) (k : Keyboard) : Quiet k (k.storeTemp i c) := by
  refine ⟨rfl, rfl, rfl, rfl, fun _ ha => List.mem_cons_of_mem _ ha, ?_⟩
  intro a ha
  rcases List.mem_cons.mp ha with rfl | hold
  · exact Or.inr hi
  · exact Or.inl hold

theorem quiet_foldl {f : Keyboard → Nat → Keyboard} (hf : ∀ k i, i < n → Quiet k (f k i))
    (k : Keyboard) : Quiet k ((List.range n).foldl f k) := by
  induction n with
  | zero => exact Quiet.refl k
  | succ n ih =>
      rw [List.range_succ, List.foldl_append]
      exact (ih fun k i hi => hf k i (by omega)).trans (hf _ n (by omega))

theorem quiet_clear (k : Keyboard) : Quiet k k.clear := by
  unfold clear
  exact quiet_foldl (fun k _ hi => quiet_storeCommand hi 0 k) k

theorem clearTmp_eq_clear (k : Keyboard) : k.clearTmp = k.clear := by
  unfold clearTmp clear
  exact Eq.refl _

theorem quiet_saveCommand (h : k.cmdIndex ≤ 512) : Quiet k k.saveCommand := by
  unfold saveCommand
  exact quiet_foldl (fun k i hi => quiet_storeTemp (by omega) (k.command i) k) k

theorem quiet_restoreCommand (h : k.cmdIndex ≤ 512) : Quiet k k.restoreCommand := by
  unfold restoreCommand
  exact quiet_foldl (fun k i hi => quiet_storeCommand (by omega) (k.temp i) k) k

theorem command_clear (k : Keyboard) (hi : i < 512) : k.clear.command i = 0 := by
  unfold clear
  suffices hgen : ∀ n, i < n →
      ((List.range n).foldl (fun k i => k.storeCommand i 0) k).command i = 0 from hgen 512 hi
  intro n hn
  induction n with
  | zero => omega
  | succ n ih =>
      rw [List.range_succ, List.foldl_append]
      change Function.update _ n 0 i = 0
      by_cases hlast : i = n
      · rw [hlast, Function.update_self]
      · rw [Function.update_of_ne hlast]
        exact ih (by omega)

end Loops

/-! ### Key by key -/

/-- `command` holds the slots and is blank behind them. -/
structure Holds (k : Keyboard) (slots : List UInt8) : Prop where
  cmdIndex : k.cmdIndex = slots.length
  command : ∀ i, i < 512 → k.command i = slots.getD i 0

end Keyboard

/-- A key goes up. -/
def KeyEvent.Release (e : KeyEvent) : Prop := e.scanCode &&& 0x80 ≠ 0

instance (e : KeyEvent) : Decidable e.Release := inferInstanceAs (Decidable (_ ≠ _))

section Callback

variable (past : Nat → UInt8)

/-- A key goes down that deletes the last character. -/
def KeyEvent.Erases (e : KeyEvent) : Prop := ¬ e.Release ∧ keycodeOf past e.scanCode = 0x08

/-- A key goes down that ends the line. -/
def KeyEvent.Enters (e : KeyEvent) : Prop := ¬ e.Release ∧ keycodeOf past e.scanCode = 0x0A

/-- A key goes down that fills a slot. -/
def KeyEvent.Fills (e : KeyEvent) : Prop :=
  ¬ e.Release ∧ keycodeOf past e.scanCode ≠ 0x08 ∧ keycodeOf past e.scanCode ≠ 0x0A

instance (e : KeyEvent) : Decidable (e.Erases past) := inferInstanceAs (Decidable (_ ∧ _))

instance (e : KeyEvent) : Decidable (e.Enters past) := inferInstanceAs (Decidable (_ ∧ _))

instance (e : KeyEvent) : Decidable (e.Fills past) := inferInstanceAs (Decidable (_ ∧ _))

theorem KeyEvent.kind (e : KeyEvent) :
    e.Release ∨ e.Erases past ∨ e.Enters past ∨ e.Fills past := by
  by_cases hrelease : e.Release
  · exact Or.inl hrelease
  · by_cases herase : keycodeOf past e.scanCode = 0x08
    · exact Or.inr (Or.inl ⟨hrelease, herase⟩)
    · by_cases henter : keycodeOf past e.scanCode = 0x0A
      · exact Or.inr (Or.inr (Or.inl ⟨hrelease, henter⟩))
      · exact Or.inr (Or.inr (Or.inr ⟨hrelease, herase, henter⟩))

/-- The slots after an event. -/
def pend (e : KeyEvent) (slots : List UInt8) : List UInt8 :=
  if e.Release then slots
  else if keycodeOf past e.scanCode = 0x08 then List.replicate (slots.length - 1) 0
  else if keycodeOf past e.scanCode = 0x0A then []
  else slots ++ [keycodeOf past e.scanCode]

theorem length_pend_le (e : KeyEvent) (slots : List UInt8) :
    (pend past e slots).length ≤ slots.length + 1 := by
  unfold pend
  split
  · omega
  · split
    · rw [List.length_replicate]
      omega
    · split
      · exact Nat.zero_le _
      · rw [List.length_append, List.length_singleton]

theorem length_pend_of_not_fills {e : KeyEvent} (h : ¬ e.Fills past) (slots : List UInt8) :
    (pend past e slots).length ≤ slots.length := by
  rcases e.kind past with hrelease | herase | henter | hfill
  · rw [pend, if_pos hrelease]
  · rw [pend, if_neg herase.1, if_pos herase.2, List.length_replicate]
    omega
  · have hne : keycodeOf past e.scanCode ≠ 0x08 := by
      rw [henter.2]
      decide
    rw [pend, if_neg henter.1, if_neg hne, if_pos henter.2]
    exact Nat.zero_le _
  · exact absurd hfill h

namespace Keyboard

variable {past} {e : KeyEvent} {k : Keyboard} {slots : List UInt8}

theorem callback_release (h : e.Release) :
    keyboardCallback past e k =
      if e.scanCode = 0xAA ∨ e.scanCode = 0x86 then { k.look e.scanCode with shiftdown := 0 }
      else k.look e.scanCode := by
  have hbit : e.scanCode &&& 0x80 ≠ 0 := h
  rw [keyboardCallback, if_pos hbit]

theorem callback_erase_empty (h : e.Erases past) (hempty : k.cmdIndex = 0) :
    keyboardCallback past e k = k.look e.scanCode := by
  have hbit : ¬ e.scanCode &&& 0x80 ≠ 0 := h.1
  rw [keyboardCallback, if_neg hbit, if_pos h.2]
  exact if_pos (Nat.le_of_eq hempty)

theorem callback_erase (h : e.Erases past) (hsome : k.cmdIndex ≠ 0) :
    keyboardCallback past e k =
      { (k.look e.scanCode).dropLast with tty := (k.look e.scanCode).dropLast.tty.backspace } := by
  have hbit : ¬ e.scanCode &&& 0x80 ≠ 0 := h.1
  have hindex : ¬ (k.look e.scanCode).cmdIndex ≤ 0 := by
    change ¬ k.cmdIndex ≤ 0
    omega
  rw [keyboardCallback, if_neg hbit, if_pos h.2, if_neg hindex]

theorem callback_enter (h : e.Enters past) :
    keyboardCallback past e k =
      { ((k.look e.scanCode).runShell e.prints).clear with
        tty := ((k.look e.scanCode).runShell e.prints).clear.tty.initPrompt } := by
  have hbit : ¬ e.scanCode &&& 0x80 ≠ 0 := h.1
  have hne : keycodeOf past e.scanCode ≠ 0x08 := by
    rw [h.2]
    decide
  rw [keyboardCallback, if_neg hbit, if_neg hne, if_pos h.2]

theorem callback_fill (h : e.Fills past) :
    keyboardCallback past e k = (k.look e.scanCode).fill (keycodeOf past e.scanCode) := by
  have hbit : ¬ e.scanCode &&& 0x80 ≠ 0 := h.1
  rw [keyboardCallback, if_neg hbit, if_neg h.2.1, if_neg h.2.2]

theorem quiet_dropLast (h : k.cmdIndex ≤ 513) :
    Quiet { k with cmdIndex := k.cmdIndex - 1 } k.dropLast := by
  have hsave : Quiet { k with cmdIndex := k.cmdIndex - 1 } _ :=
    quiet_saveCommand (show k.cmdIndex - 1 ≤ 512 by omega)
  have hclear := hsave.trans (quiet_clear _)
  have hlen := hclear.cmdIndex
  have hrestore := hclear.trans (quiet_restoreCommand
      (by rw [hlen]; change k.cmdIndex - 1 ≤ 512; omega))
  rw [dropLast, clearTmp_eq_clear]
  exact hrestore.trans (quiet_clear _)

theorem command_dropLast (k : Keyboard) {i : Nat} (hi : i < 512) : k.dropLast.command i = 0 := by
  rw [dropLast, clearTmp_eq_clear]
  exact command_clear _ hi

theorem commandBytes_look (scanCode : Nat) (k : Keyboard) :
    (k.look scanCode).commandBytes = k.commandBytes := by
  unfold commandBytes look
  exact Eq.refl _

theorem Holds.with_tty (h : k.Holds slots) (t : Tty) : { k with tty := t }.Holds slots :=
  ⟨h.cmdIndex, h.command⟩

/-- **What a key does to the pending line.** -/
theorem Holds.callback (h : k.Holds slots) (hlen : slots.length ≤ 512) :
    (keyboardCallback past e k).Holds (pend past e slots) := by
  have hindex := h.cmdIndex
  rcases e.kind past with hrelease | herase | henter | hfill
  · rw [callback_release hrelease, pend, if_pos hrelease]
    split <;> exact ⟨h.cmdIndex, h.command⟩
  · rw [pend, if_neg herase.1, if_pos herase.2]
    by_cases hempty : k.cmdIndex = 0
    · have hnil : slots = [] := List.length_eq_zero_iff.mp (hindex.symm.trans hempty)
      subst hnil
      rw [callback_erase_empty herase hempty]
      exact ⟨h.cmdIndex, h.command⟩
    · rw [callback_erase herase hempty]
      have hquiet := quiet_dropLast (k := k.look e.scanCode) (show k.cmdIndex ≤ 513 by omega)
      refine Holds.with_tty ⟨?_, ?_⟩ _
      · rw [List.length_replicate, ← hindex]
        exact hquiet.cmdIndex
      · intro i hi
        have hblank : (List.replicate (slots.length - 1) (0 : UInt8)).getD i 0 = 0 := by
          rw [List.getD_eq_getElem?_getD, List.getElem?_replicate]
          split <;> rfl
        rw [hblank]
        exact command_dropLast _ hi
  · have hne : keycodeOf past e.scanCode ≠ 0x08 := by
      rw [henter.2]
      decide
    rw [pend, if_neg henter.1, if_neg hne, if_pos henter.2, callback_enter henter]
    refine Holds.with_tty ⟨(quiet_clear _).cmdIndex, ?_⟩ _
    intro i hi
    exact command_clear _ hi
  · rw [pend, if_neg hfill.1, if_neg hfill.2.1, if_neg hfill.2.2, callback_fill hfill]
    refine ⟨?_, ?_⟩
    · change add32 k.cmdIndex 1 = _
      rw [add32_eq (by omega), hindex, List.length_append, List.length_singleton]
    · intro i hi
      change Function.update k.command k.cmdIndex _ i = _
      rw [hindex]
      by_cases hat : i = slots.length
      · rw [hat, Function.update_self, List.getD_append_right _ _ _ _ (Nat.le_refl _),
          Nat.sub_self]
        rfl
      · rw [Function.update_of_ne hat, h.command i hi]
        by_cases hlt : i < slots.length
        · rw [List.getD_append _ _ _ _ hlt]
        · rw [List.getD_eq_default _ _ (by omega), List.getD_eq_default _ _ (by
            rw [List.length_append, List.length_singleton]
            omega)]

/-! ### What the shell gets, and which places were accessed -/

theorem received_callback (h : k.cmdIndex ≤ 512) :
    (keyboardCallback past e k).received =
      if e.Enters past then k.commandBytes :: k.received else k.received := by
  rcases e.kind past with hrelease | herase | henter | hfill
  · have hno : ¬ e.Enters past := fun henter => henter.1 hrelease
    rw [if_neg hno, callback_release hrelease]
    split <;> rfl
  · have hno : ¬ e.Enters past := by
      intro henter
      have heq := herase.2.symm.trans henter.2
      exact absurd heq (by decide)
    rw [if_neg hno]
    by_cases hempty : k.cmdIndex = 0
    · rw [callback_erase_empty herase hempty]
      rfl
    · have hq := quiet_dropLast (k := k.look e.scanCode) (show k.cmdIndex ≤ 513 by omega)
      simp only [callback_erase herase hempty]
      rw [hq.received]
      rfl
  · have hq := quiet_clear ((k.look e.scanCode).runShell e.prints)
    simp only [callback_enter henter, if_pos henter]
    rw [hq.received, ← commandBytes_look e.scanCode k]
    rfl
  · rw [callback_fill hfill, if_neg fun henter => hfill.2.2 henter.2]
    rfl

theorem tty_callback_erase (h : k.cmdIndex ≤ 512) (herase : e.Erases past) :
    (keyboardCallback past e k).tty = if k.cmdIndex = 0 then k.tty else k.tty.backspace := by
  split
  · rename_i hempty
    rw [callback_erase_empty herase hempty]
    rfl
  · rename_i hsome
    have hq := quiet_dropLast (k := k.look e.scanCode) (show k.cmdIndex ≤ 513 by omega)
    simp only [callback_erase herase hsome]
    exact congrArg Tty.backspace hq.tty

theorem tty_with_tty (k : Keyboard) (t : Tty) (cs : List (List UInt8)) (n : Nat) :
    ({ k with tty := t, received := cs, cmdIndex := n } : Keyboard).tty = t := rfl

theorem tty_runShell (prints : List Print) (k : Keyboard) :
    (k.runShell prints).tty = processCommand k.commandBytes prints k.tty :=
  tty_with_tty k _ _ _

theorem tty_callback_enter (henter : e.Enters past) :
    (keyboardCallback past e k).tty =
      (processCommand k.commandBytes e.prints k.tty).initPrompt := by
  have hq := quiet_clear ((k.look e.scanCode).runShell e.prints)
  simp only [callback_enter henter]
  rw [hq.tty, tty_runShell, commandBytes_look]
  exact congrArg Tty.initPrompt (Eq.refl _)

theorem Quiet.inBounds_iff {k k' : Keyboard} (h : Quiet k k') :
    (∀ a ∈ k'.trace, a.InBounds) ↔ ∀ a ∈ k.trace, a.InBounds := by
  constructor
  · intro hall a ha
    exact hall a (h.keeps a ha)
  · intro hall a ha
    rcases h.trace a ha with hold | hin
    · exact hall a hold
    · exact hin

theorem look_inBounds_iff (scanCode : Nat) (k : Keyboard) :
    (∀ a ∈ (k.look scanCode).trace, a.InBounds) ↔
      scanCode < keyboardScanCodes.length ∧ ∀ a ∈ k.trace, a.InBounds :=
  List.forall_mem_cons

theorem inBounds_callback_iff (h : k.cmdIndex ≤ 512) :
    (∀ a ∈ (keyboardCallback past e k).trace, a.InBounds) ↔
      (e.scanCode < keyboardScanCodes.length ∧ (e.Fills past → k.cmdIndex < 512)) ∧
        ∀ a ∈ k.trace, a.InBounds := by
  have hlook := look_inBounds_iff e.scanCode k
  -- a key that fills no slot accesses what its lookup does
  have hquiet : ¬ e.Fills past → Quiet (k.look e.scanCode) (keyboardCallback past e k) →
      ((∀ a ∈ (keyboardCallback past e k).trace, a.InBounds) ↔
        (e.scanCode < keyboardScanCodes.length ∧ (e.Fills past → k.cmdIndex < 512)) ∧
          ∀ a ∈ k.trace, a.InBounds) := by
    intro hno hq
    rw [hq.inBounds_iff, hlook]
    simp only [hno, false_implies, and_true]
  rcases e.kind past with hrelease | herase | henter | hfill
  · have htrace : (keyboardCallback past e k).trace = (k.look e.scanCode).trace := by
      rw [callback_release hrelease]
      split <;> rfl
    rw [htrace, hlook]
    have hno : ¬ e.Fills past := fun hfill => hfill.1 hrelease
    simp only [hno, false_implies, and_true]
  · have hno : ¬ e.Fills past := fun hfill => hfill.2.1 herase.2
    by_cases hempty : k.cmdIndex = 0
    · refine hquiet hno ?_
      rw [callback_erase_empty herase hempty]
      exact Quiet.refl _
    · have hq := quiet_dropLast (k := k.look e.scanCode) (show k.cmdIndex ≤ 513 by omega)
      have htrace := hq.inBounds_iff.trans hlook
      rw [callback_erase herase hempty]
      simp only [hno, false_implies, and_true]
      exact htrace
  · have hno : ¬ e.Fills past := fun hfill => hfill.2.2 henter.2
    have hq := quiet_clear ((k.look e.scanCode).runShell e.prints)
    have htrace := hq.inBounds_iff.trans hlook
    rw [callback_enter henter]
    simp only [hno, false_implies, and_true]
    exact htrace
  · rw [callback_fill hfill]
    have hcons : (∀ a ∈ ((k.look e.scanCode).fill (keycodeOf past e.scanCode)).trace, a.InBounds) ↔
        k.cmdIndex < 512 ∧ ∀ a ∈ (k.look e.scanCode).trace, a.InBounds := List.forall_mem_cons
    rw [hcons, hlook]
    simp only [hfill, true_implies]
    tauto

/-- What is new in the trace reads the table of scan codes or keeps to the two arrays. -/
def StaysInside (k k' : Keyboard) : Prop :=
  ∀ a ∈ k'.trace, a ∈ k.trace ∨ a.InBounds ∨ ∃ scanCode, a = .readScanCodes scanCode

theorem StaysInside.refl (k : Keyboard) : StaysInside k k := fun _ ha => Or.inl ha

theorem StaysInside.trans {k k' k'' : Keyboard} (h : StaysInside k k') (h' : StaysInside k' k'') :
    StaysInside k k'' := by
  intro a ha
  rcases h' a ha with hmid | hnew
  · exact h a hmid
  · exact Or.inr hnew

theorem Quiet.staysInside {k k' : Keyboard} (h : Quiet k k') : StaysInside k k' := by
  intro a ha
  rcases h.trace a ha with hold | hin
  · exact Or.inl hold
  · exact Or.inr (Or.inl hin)

theorem staysInside_look (scanCode : Nat) (k : Keyboard) : StaysInside k (k.look scanCode) := by
  intro a ha
  rcases List.mem_cons.mp ha with rfl | hold
  · exact Or.inr (Or.inr ⟨scanCode, rfl⟩)
  · exact Or.inl hold

/-- While the line has room, a key stores nowhere but in the two arrays. -/
theorem staysInside_callback (h : k.cmdIndex < 512) :
    StaysInside k (keyboardCallback past e k) := by
  have hlook := staysInside_look e.scanCode k
  rcases e.kind past with hrelease | herase | henter | hfill
  · rw [callback_release hrelease]
    split <;> exact hlook
  · by_cases hempty : k.cmdIndex = 0
    · rw [callback_erase_empty herase hempty]
      exact hlook
    · have hdrop := (quiet_dropLast (k := k.look e.scanCode)
        (show k.cmdIndex ≤ 513 by omega)).staysInside
      rw [callback_erase herase hempty]
      exact hlook.trans hdrop
  · have hclear := (quiet_clear ((k.look e.scanCode).runShell e.prints)).staysInside
    rw [callback_enter henter]
    exact hlook.trans hclear
  · rw [callback_fill hfill]
    refine hlook.trans fun a ha => ?_
    rcases List.mem_cons.mp ha with rfl | hold
    · exact Or.inr (Or.inl h)
    · exact Or.inl hold

theorem Holds.commandBytes_eq (h : k.Holds slots) (hlen : slots.length ≤ 512) :
    k.commandBytes = slots ++ List.replicate (512 - slots.length) 0 := by
  refine List.ext_getElem ?_ ?_
  · rw [commandBytes, List.length_map, List.length_range, List.length_append,
      List.length_replicate]
    omega
  · intro i hi hi'
    have hlt : i < 512 := by
      rw [commandBytes, List.length_map, List.length_range] at hi
      exact hi
    simp only [commandBytes, List.getElem_map, List.getElem_range]
    rw [h.command i hlt, List.getElem_append]
    split
    · rename_i hin
      exact List.getD_eq_getElem _ _ hin
    · rename_i hout
      rw [List.getElem_replicate, List.getD_eq_default _ _ (by omega)]

theorem Holds.cString_commandBytes (h : k.Holds slots) (hlen : slots.length ≤ 512) :
    cString k.commandBytes = cString slots := by
  rw [h.commandBytes_eq hlen, cString, List.takeWhile_append]
  split
  · rename_i hall
    have htake : slots.takeWhile (· ≠ 0) = slots := (List.takeWhile_prefix _).eq_of_length hall
    rw [cString, htake, List.takeWhile_replicate]
    simp
  · rfl

theorem Holds.nul_mem_iff (h : k.Holds slots) (hlen : slots.length ≤ 512) :
    0 ∈ k.commandBytes ↔ slots.length < 512 ∨ 0 ∈ slots := by
  rw [h.commandBytes_eq hlen, List.mem_append, List.mem_replicate, or_comm]
  have hroom : 512 - slots.length ≠ 0 ↔ slots.length < 512 := by omega
  rw [hroom]
  simp

end Keyboard

end Callback

end Vulcanos
