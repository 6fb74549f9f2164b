import Mathlib.Data.List.TakeWhile
import Vulcanos.Typing

/-!
# The line the shell gets

Three readings of the pending line. What the shell gets is the line as typed while no backspace
leaves characters behind; the arrays are never left while scan codes are in the table and the line
is short; and a key without a character is seen as soon as it is pressed, since it fills a slot as
any other.
-/

namespace Vulcanos

open Run

/-! ### The line as typed -/

/-- A line editor. `holed`: the last character a backspace deleted was not the first of the line. -/
structure Editor where
  line : List UInt8
  holed : Bool

section Editing

variable (past : Nat → UInt8)

def Editor.edit (e : KeyEvent) (ed : Editor) : Editor :=
  if e.Release then ed
  else if keycodeOf past e.scanCode = 0x08 then
    { line := ed.line.dropLast, holed := decide (ed.line.dropLast ≠ []) }
  else if keycodeOf past e.scanCode = 0x0A then { line := [], holed := false }
  else { line := ed.line ++ [keycodeOf past e.scanCode], holed := ed.holed }

/-- The driver and the line as a user sees it. -/
structure Session where
  kbd : Keyboard
  editor : Editor

def Session.next (e : KeyEvent) (s : Session) : Session :=
  { kbd := keyboardCallback past e s.kbd, editor := s.editor.edit past e }

/-- A release, or a press of a key with a character, on a line with room for it. -/
def KeyEvent.Writes (e : KeyEvent) (s : Session) : Prop :=
  e.Release ∨ e.scanCode < keyboardScanCodes.length ∧ keycodeOf past e.scanCode ≠ 0 ∧
    (e.Fills past → s.editor.line.length < 511)

/-- Enter hands the shell the line, any other event hands it nothing. -/
def KeyEvent.Delivers (e : KeyEvent) (s : Session) : Prop :=
  (s.next past e).kbd.received.map cString =
    (if e.Enters past then [s.editor.line] else []) ++ s.kbd.received.map cString

/-- Enter finds a line whose last deletion, if there was one, emptied it. -/
def KeyEvent.FindsWhole (e : KeyEvent) (s : Session) : Prop :=
  e.Enters past → s.editor.holed = false

instance (e : KeyEvent) (s : Session) : Decidable (e.Writes past s) :=
  inferInstanceAs (Decidable (_ ∨ _))

/-- The slots of `command` are the line, or begin with a blank. -/
structure Session.Follows (s : Session) : Prop where
  slots : ∃ slots, s.kbd.Holds slots ∧ slots.length = s.editor.line.length ∧
    (s.editor.holed = false → slots = s.editor.line) ∧
    (s.editor.holed = true → slots.head? = some 0)
  room : s.editor.line.length ≤ 511
  characters : 0 ∉ s.editor.line

variable {past} {e : KeyEvent} {s : Session}

theorem cString_eq_self {bytes : List UInt8} (h : 0 ∉ bytes) : cString bytes = bytes := by
  refine List.takeWhile_eq_self_iff.mpr ?_
  intro b hb
  refine decide_eq_true ?_
  rintro rfl
  exact h hb

theorem cString_eq_nil {bytes : List UInt8} (h : bytes.head? = some 0) : cString bytes = [] := by
  cases bytes with
  | nil => rfl
  | cons b bytes =>
      obtain rfl := Option.some.inj h
      rfl

theorem Session.Follows.delivers_iff (h : s.Follows) : e.Delivers past s ↔ e.FindsWhole past s := by
  obtain ⟨slots, hholds, hlength, hwhole, hholed⟩ := h.slots
  have hroom := h.room
  have hindex := hholds.cmdIndex
  have hreceived : (s.next past e).kbd.received =
      if e.Enters past then s.kbd.commandBytes :: s.kbd.received else s.kbd.received :=
    Keyboard.received_callback (by omega)
  unfold KeyEvent.Delivers KeyEvent.FindsWhole
  rw [hreceived]
  by_cases henter : e.Enters past
  · rw [if_pos henter, if_pos henter, List.map_cons, hholds.cString_commandBytes (by omega),
      List.singleton_append, List.cons_eq_cons]
    simp only [henter, true_implies, and_true]
    cases hbit : s.editor.holed with
    | false =>
        rw [hwhole hbit]
        exact iff_of_true (cString_eq_self h.characters) rfl
    | true =>
        have hhead := hholed hbit
        rw [cString_eq_nil hhead]
        refine iff_of_false ?_ (by decide)
        intro hnil
        have hzero : slots.length = 0 := by rw [hlength, ← hnil]; rfl
        rw [List.length_eq_zero_iff.mp hzero] at hhead
        exact absurd hhead (by simp)
  · rw [if_neg henter, if_neg henter]
    exact iff_of_true rfl fun hdo => absurd hdo henter

theorem Session.Follows.next (h : s.Follows) (hwrites : e.Writes past s) :
    (s.next past e).Follows := by
  obtain ⟨slots, hholds, hlength, hwhole, hholed⟩ := h.slots
  have hroom := h.room
  have hcallback := @Keyboard.Holds.callback past e _ _ hholds (by omega)
  rcases e.kind past with hrelease | herase | henter | hfill
  · have hed : s.editor.edit past e = s.editor := by rw [Editor.edit, if_pos hrelease]
    rw [pend, if_pos hrelease] at hcallback
    refine ⟨⟨slots, hcallback, ?_⟩, ?_, ?_⟩ <;> simp only [Session.next, hed]
    · exact ⟨hlength, hwhole, hholed⟩
    · exact hroom
    · exact h.characters
  · have hed : s.editor.edit past e =
        { line := s.editor.line.dropLast, holed := decide (s.editor.line.dropLast ≠ []) } := by
      rw [Editor.edit, if_neg herase.1, if_pos herase.2]
    rw [pend, if_neg herase.1, if_pos herase.2] at hcallback
    refine ⟨⟨_, hcallback, ?_⟩, ?_, ?_⟩ <;> simp only [Session.next, hed]
    · refine ⟨by rw [List.length_replicate, List.length_dropLast, hlength], ?_, ?_⟩
      · intro hempty
        have hnil : s.editor.line.dropLast = [] := by simpa using hempty
        have hzero := congrArg List.length hnil
        rw [List.length_dropLast, ← hlength] at hzero
        rw [hnil, hzero]
        rfl
      · intro hsome
        have hcons : s.editor.line.dropLast ≠ [] := by simpa using hsome
        have hpos := List.length_pos_of_ne_nil hcons
        rw [List.length_dropLast, ← hlength] at hpos
        rw [List.head?_replicate, if_neg (by omega)]
    · rw [List.length_dropLast]
      omega
    · exact fun hmem => h.characters (List.dropLast_subset _ hmem)
  · have hne : keycodeOf past e.scanCode ≠ 0x08 := by
      rw [henter.2]
      decide
    have hed : s.editor.edit past e = { line := [], holed := false } := by
      rw [Editor.edit, if_neg henter.1, if_neg hne, if_pos henter.2]
    rw [pend, if_neg henter.1, if_neg hne, if_pos henter.2] at hcallback
    refine ⟨⟨[], hcallback, ?_⟩, ?_, ?_⟩ <;> simp only [Session.next, hed]
    · exact ⟨trivial, fun _ => trivial, fun hbit => absurd hbit (by decide)⟩
    · exact Nat.zero_le _
    · exact List.not_mem_nil
  · have hchar : keycodeOf past e.scanCode ≠ 0 ∧ s.editor.line.length < 511 := by
      rcases hwrites with hrelease | hpress
      · exact absurd hrelease hfill.1
      · exact ⟨hpress.2.1, hpress.2.2 hfill⟩
    have hed : s.editor.edit past e =
        { line := s.editor.line ++ [keycodeOf past e.scanCode], holed := s.editor.holed } := by
      rw [Editor.edit, if_neg hfill.1, if_neg hfill.2.1, if_neg hfill.2.2]
    rw [pend, if_neg hfill.1, if_neg hfill.2.1, if_neg hfill.2.2] at hcallback
    refine ⟨⟨_, hcallback, ?_⟩, ?_, ?_⟩ <;> simp only [Session.next, hed]
    · refine ⟨by rw [List.length_append, List.length_append, hlength], ?_, ?_⟩
      · intro hbit
        rw [hwhole hbit]
      · intro hbit
        have hhead := hholed hbit
        cases slots with
        | nil => exact absurd hhead (by simp)
        | cons c slots => exact hhead
    · rw [List.length_append, List.length_singleton]
      omega
    · intro hmem
      rcases List.mem_append.mp hmem with hold | hnew
      · exact h.characters hold
      · exact hchar.1 (List.mem_singleton.mp hnew).symm

/-- **The shell gets the lines as typed exactly if every Enter finds a line whose last deletion
emptied it.** -/
theorem delivers_along_iff {k : Keyboard} (hempty : k.Holds []) {keys : List KeyEvent}
    (hwrites : Along (Session.next past) (KeyEvent.Writes past) keys ⟨k, ⟨[], false⟩⟩) :
    Along (Session.next past) (KeyEvent.Delivers past) keys ⟨k, ⟨[], false⟩⟩ ↔
      Along (Session.next past) (KeyEvent.FindsWhole past) keys ⟨k, ⟨[], false⟩⟩ := by
  have hstart : Session.Follows ⟨k, ⟨[], false⟩⟩ :=
    ⟨⟨[], hempty, rfl, fun _ => rfl, fun hbit => absurd hbit Bool.false_ne_true⟩, Nat.zero_le _,
      List.not_mem_nil⟩
  exact along_iff Session.Follows (fun _ _ h _ => h.delivers_iff) (fun _ _ h hw _ => h.next hw)
    hstart hwrites

end Editing

/-- `l`, `s`, backspace, Enter. -/
def deletedKey : List KeyEvent := [⟨38, []⟩, ⟨31, []⟩, ⟨14, []⟩, ⟨28, []⟩]

theorem delivers_along_iff_bareKeyboard :
    Along (Session.next fun _ => 0) (KeyEvent.Delivers fun _ => 0) deletedKey
        ⟨bareKeyboard, ⟨[], false⟩⟩ ↔
      Along (Session.next fun _ => 0) (KeyEvent.FindsWhole fun _ => 0) deletedKey
        ⟨bareKeyboard, ⟨[], false⟩⟩ :=
  delivers_along_iff ⟨rfl, fun _ _ => rfl⟩ (by decide +kernel)

/-- The shell gets the empty string for the line `l`. -/
theorem not_delivers_along : ¬ ∀ (past : Nat → UInt8) (k : Keyboard) (keys : List KeyEvent),
    k.Holds [] → Along (Session.next past) (KeyEvent.Writes past) keys ⟨k, ⟨[], false⟩⟩ →
    Along (Session.next past) (KeyEvent.Delivers past) keys ⟨k, ⟨[], false⟩⟩ := by
  intro hall
  have hkeys := hall (fun _ => 0) bareKeyboard deletedKey ⟨rfl, fun _ _ => rfl⟩ (by decide +kernel)
  exact absurd hkeys.2.2.2.1 (by unfold KeyEvent.Delivers; decide +kernel)

/-! ### The arrays -/

/-- The driver and what its line consists of. -/
structure Line where
  kbd : Keyboard
  slots : List UInt8

section Bounds

variable (past : Nat → UInt8)

def Line.next (e : KeyEvent) (l : Line) : Line :=
  { kbd := keyboardCallback past e l.kbd, slots := pend past e l.slots }

/-- Every access so far was inside its array, and the shell always got a NUL. -/
structure Keyboard.Safe (k : Keyboard) : Prop where
  inBounds : ∀ a ∈ k.trace, a.InBounds
  terminated : ∀ cmd ∈ k.received, 0 ∈ cmd

def KeyEvent.StaysSafe (e : KeyEvent) (l : Line) : Prop := (l.next past e).kbd.Safe

/-- The scan code is one of the table's, a slot that is filled is one of the 512, and at Enter they
are not all filled with characters. -/
structure KeyEvent.Fits (e : KeyEvent) (l : Line) : Prop where
  code : e.scanCode < keyboardScanCodes.length
  room : e.Fills past → l.slots.length < 512
  nul : e.Enters past → l.slots.length < 512 ∨ 0 ∈ l.slots

structure Line.Tracks (l : Line) : Prop where
  holds : l.kbd.Holds l.slots
  length : l.slots.length ≤ 512
  safe : l.kbd.Safe

variable {past} {e : KeyEvent} {l : Line}

theorem Line.Tracks.staysSafe_iff (h : l.Tracks) : e.StaysSafe past l ↔ e.Fits past l := by
  have hindex := h.holds.cmdIndex
  have hlength := h.length
  have hbounds := @Keyboard.inBounds_callback_iff past e l.kbd (by omega)
  have hreceived := @Keyboard.received_callback past e l.kbd (by omega)
  have hnul := h.holds.nul_mem_iff hlength
  constructor
  · rintro ⟨hin, hterm⟩
    obtain ⟨⟨hcode, hroom⟩, -⟩ := hbounds.mp hin
    refine ⟨hcode, fun hfill => by have := hroom hfill; omega, ?_⟩
    intro henter
    refine hnul.mp (hterm _ ?_)
    change l.kbd.commandBytes ∈ (keyboardCallback past e l.kbd).received
    rw [hreceived, if_pos henter]
    exact List.mem_cons_self
  · intro hfits
    refine ⟨hbounds.mpr ⟨⟨hfits.code, fun hfill => ?_⟩, h.safe.inBounds⟩, ?_⟩
    · have hroom := hfits.room hfill
      omega
    · intro cmd hcmd
      change cmd ∈ (keyboardCallback past e l.kbd).received at hcmd
      rw [hreceived] at hcmd
      split at hcmd
      · rename_i henter
        rcases List.mem_cons.mp hcmd with hhead | hold
        · rw [hhead]
          exact hnul.mpr (hfits.nul henter)
        · exact h.safe.terminated cmd hold
      · exact h.safe.terminated cmd hcmd

theorem Line.Tracks.next (h : l.Tracks) (hsafe : e.StaysSafe past l) :
    (l.next past e).Tracks := by
  refine ⟨h.holds.callback h.length, ?_, hsafe⟩
  by_cases hfill : e.Fills past
  · have hroom := (h.staysSafe_iff.mp hsafe).room hfill
    have hpend := length_pend_le past e l.slots
    change (pend past e l.slots).length ≤ 512
    omega
  · exact (length_pend_of_not_fills past hfill l.slots).trans h.length

/-- **The arrays are safe exactly along the scan codes that fit.** -/
theorem staysSafe_along_iff {k : Keyboard} (hempty : k.Holds []) (hsafe : k.Safe)
    (codes : List KeyEvent) :
    Along (Line.next past) (KeyEvent.StaysSafe past) codes ⟨k, []⟩ ↔
      Along (Line.next past) (KeyEvent.Fits past) codes ⟨k, []⟩ :=
  along_iff Line.Tracks (fun _ _ h _ => h.staysSafe_iff) (fun _ _ h _ hs => h.next hs)
    ⟨hempty, Nat.zero_le _, hsafe⟩ (along_true codes _)

end Bounds

theorem bareKeyboard_safe : bareKeyboard.Safe :=
  ⟨fun _ ha => absurd ha List.not_mem_nil, fun _ hcmd => absurd hcmd List.not_mem_nil⟩

theorem staysSafe_along_iff_bareKeyboard :
    Along (Line.next fun _ => 0) (KeyEvent.StaysSafe fun _ => 0) deletedKey ⟨bareKeyboard, []⟩ ↔
      Along (Line.next fun _ => 0) (KeyEvent.Fits fun _ => 0) deletedKey ⟨bareKeyboard, []⟩ :=
  staysSafe_along_iff ⟨rfl, fun _ _ => rfl⟩ bareKeyboard_safe deletedKey

/-- The release of the Enter key looks behind the table. -/
theorem not_staysSafe_along : ¬ ∀ (past : Nat → UInt8) (k : Keyboard) (codes : List KeyEvent),
    k.Holds [] → k.Safe → (∀ e ∈ codes, e.scanCode < 256) →
    Along (Line.next past) (KeyEvent.StaysSafe past) codes ⟨k, []⟩ := by
  intro hall
  have hsafe := hall (fun _ => 0) bareKeyboard [⟨0x9C, []⟩] ⟨rfl, fun _ _ => rfl⟩
    bareKeyboard_safe (by simp)
  have hread := hsafe.1.inBounds (.readScanCodes 0x9C) List.mem_cons_self
  exact absurd hread (by unfold Access.InBounds; decide)

/-! ### Keys without a character -/

/-- The key of a scan code, whether it goes down or up. -/
def KeyEvent.key (e : KeyEvent) : Nat := e.scanCode &&& 0x7F

section Silent

variable (past : Nat → UInt8)

/-- The key has a character. -/
def KeyEvent.Carries (e : KeyEvent) : Prop := keycodeOf past e.key ≠ 0

instance (e : KeyEvent) : Decidable (e.Carries past) := inferInstanceAs (Decidable (_ ≠ _))

/-- The presses and releases of keys that have a character. -/
def carrying (keys : List KeyEvent) : List KeyEvent := keys.filter fun e => e.Carries past

/-- A press or release of a key of the table other than a press of backspace, on a line with room
for it. -/
def KeyEvent.Plain (e : KeyEvent) (k : Keyboard) : Prop :=
  e.scanCode < 256 ∧ e.key < keyboardScanCodes.length ∧ ¬ e.Erases past ∧
    (e.Fills past → k.cmdIndex < 511)

instance (e : KeyEvent) (k : Keyboard) : Decidable (e.Plain past k) :=
  inferInstanceAs (Decidable (_ ∧ _))

/-- Without the keys that have no character the shell gets the same strings, and `cmd_index` is the
same between any two keys. -/
def Unseen (keys : List KeyEvent) (k : Keyboard) : Prop :=
  ∀ pre, pre <+: keys →
    (after (keyboardCallback past) pre k).received.map cString =
        (after (keyboardCallback past) (carrying past pre) k).received.map cString ∧
      (after (keyboardCallback past) pre k).cmdIndex =
        (after (keyboardCallback past) (carrying past pre) k).cmdIndex

variable {past} {e : KeyEvent} {k : Keyboard}

/-- Two drivers with the same pending line and the same lines entered. -/
structure Alike (k k' : Keyboard) (slots : List UInt8) : Prop where
  holds : k.Holds slots
  holds' : k'.Holds slots
  received : k'.received = k.received

theorem Alike.callback {k' : Keyboard} {slots : List UInt8} (h : Alike k k' slots)
    (hlen : slots.length ≤ 512) :
    Alike (keyboardCallback past e k) (keyboardCallback past e k') (pend past e slots) := by
  have hindex := h.holds.cmdIndex
  have hindex' := h.holds'.cmdIndex
  refine ⟨h.holds.callback hlen, h.holds'.callback hlen, ?_⟩
  rw [Keyboard.received_callback (by omega), Keyboard.received_callback (by omega), h.received,
    h.holds.commandBytes_eq hlen, h.holds'.commandBytes_eq hlen]

theorem Alike.release {k' : Keyboard} {slots : List UInt8} (h : Alike k k' slots)
    (hrelease : e.Release) : Alike (keyboardCallback past e k) k' slots := by
  rw [Keyboard.callback_release hrelease]
  split
  · exact ⟨⟨h.holds.cmdIndex, h.holds.command⟩, h.holds', h.received⟩
  · exact ⟨⟨h.holds.cmdIndex, h.holds.command⟩, h.holds', h.received⟩

theorem length_pend_plain {slots : List UInt8} (hplain : e.Plain past k) (hholds : k.Holds slots)
    (hlen : slots.length ≤ 511) : (pend past e slots).length ≤ 511 := by
  by_cases hfill : e.Fills past
  · have hroom := hplain.2.2.2 hfill
    have hindex := hholds.cmdIndex
    have hpend := length_pend_le past e slots
    omega
  · exact (length_pend_of_not_fills past hfill slots).trans hlen

/-- Two drivers stay alike where the one that sees fewer keys misses only releases. -/
theorem Alike.after {keys : List KeyEvent} {k' : Keyboard} {slots : List UInt8}
    (h : Alike k k' slots) (hlen : slots.length ≤ 511)
    (hplain : Along (keyboardCallback past) (KeyEvent.Plain past) keys k)
    (hup : ∀ e ∈ keys, e.Release ∨ e.Carries past) :
    ∃ slots', Alike (after (keyboardCallback past) keys k)
      (after (keyboardCallback past) (carrying past keys) k') slots' := by
  induction keys generalizing k k' slots with
  | nil => exact ⟨slots, h⟩
  | cons e keys ih =>
      obtain ⟨hfirst, hrest⟩ := hplain
      have hup' : ∀ e ∈ keys, e.Release ∨ e.Carries past := fun e he =>
        hup e (List.mem_cons_of_mem _ he)
      by_cases hcarries : e.Carries past
      · have hfilter : carrying past (e :: keys) = e :: carrying past keys :=
          List.filter_cons_of_pos (decide_eq_true hcarries)
        rw [hfilter]
        exact ih (h.callback (by omega)) (length_pend_plain hfirst h.holds hlen) hrest hup'
      · have hfilter : carrying past (e :: keys) = carrying past keys :=
          List.filter_cons_of_neg (by simpa using hcarries)
        have hrelease := (hup e List.mem_cons_self).resolve_right hcarries
        rw [hfilter]
        exact ih (h.release hrelease) hlen hrest hup'

theorem KeyEvent.key_of_press (hbyte : e.scanCode < 256) (hpress : ¬ e.Release) :
    e.key = e.scanCode := by
  have hbit : e.scanCode &&& 0x80 = 0 := not_not.mp hpress
  have hlow : e.key = e.scanCode % 128 := Nat.and_two_pow_sub_one_eq_mod e.scanCode 7
  have htest := Nat.and_two_pow e.scanCode 7
  rw [show (2 : Nat) ^ 7 = 0x80 from rfl, hbit] at htest
  have hclear : e.scanCode.testBit 7 = false := by
    cases hbit7 : e.scanCode.testBit 7
    · rfl
    · rw [hbit7] at htest
      exact absurd htest (by decide)
  have hdiv : e.scanCode / 128 % 2 = 0 := by
    have := Nat.testBit_eq_decide_div_mod_eq (x := e.scanCode) (i := 7)
    rw [hclear] at this
    have hne : ¬ e.scanCode / 2 ^ 7 % 2 = 1 := by simpa using this.symm
    norm_num at hne
    omega
  omega

theorem holds_after {keys : List KeyEvent} {slots : List UInt8} (hholds : k.Holds slots)
    (hlen : slots.length ≤ 511)
    (hplain : Along (keyboardCallback past) (KeyEvent.Plain past) keys k) :
    ∃ slots', (after (keyboardCallback past) keys k).Holds slots' ∧ slots'.length ≤ 511 :=
  along_invariant (fun k => ∃ slots', k.Holds slots' ∧ slots'.length ≤ 511)
    (fun e _ ⟨_, hh, hl⟩ hp => ⟨pend past e _, hh.callback (by omega), length_pend_plain hp hh hl⟩)
    ⟨slots, hholds, hlen⟩ hplain

/-- **Keys without a character go unseen exactly if none of them is pressed.** -/
theorem unseen_iff (hempty : k.Holds []) {keys : List KeyEvent}
    (hplain : Along (keyboardCallback past) (KeyEvent.Plain past) keys k) :
    Unseen past keys k ↔ ∀ e ∈ keys, e.Release ∨ e.Carries past := by
  constructor
  · intro hunseen e he
    by_contra hpressed
    obtain ⟨hpress, hsilent⟩ := not_or.mp hpressed
    obtain ⟨pre, post, rfl⟩ := List.append_of_mem he
    obtain ⟨hpre, hlast, -⟩ := along_append.mp hplain
    obtain ⟨slots, hholds, hlen⟩ := holds_after hempty (Nat.zero_le _) hpre
    -- the press fills a slot, and the run without it has no event at all
    have hzero : keycodeOf past e.scanCode = 0 := by
      rw [← e.key_of_press hlast.1 hpress]
      exact not_not.mp hsilent
    have hfill : e.Fills past := ⟨hpress, by rw [hzero]; decide, by rw [hzero]; decide⟩
    have hbefore := (hunseen pre (List.prefix_append _ _)).2
    have hbehind := (hunseen (pre ++ [e]) ⟨post, by simp⟩).2
    have hfilter : carrying past (pre ++ [e]) = carrying past pre := by
      rw [carrying, List.filter_append, List.filter_cons_of_neg (by simpa using hsilent),
        List.filter_nil, List.append_nil]
      rfl
    have hstep : after (keyboardCallback past) (pre ++ [e]) k =
        keyboardCallback past e (after (keyboardCallback past) pre k) := after_append pre [e] k
    have hone : (keyboardCallback past e (after (keyboardCallback past) pre k)).cmdIndex =
        Word.add32 (after (keyboardCallback past) pre k).cmdIndex 1 := by
      rw [Keyboard.callback_fill hfill]
      rfl
    rw [hfilter, ← hbefore, hstep, hone, hholds.cmdIndex, Word.add32_eq (by omega)] at hbehind
    omega
  · rintro hup pre ⟨post, rfl⟩
    have hpre := (along_append.mp hplain).1
    have halike : Alike k k [] := ⟨hempty, hempty, rfl⟩
    obtain ⟨slots, hend⟩ := halike.after (Nat.zero_le _) hpre
      fun e he => hup e (List.mem_append_left _ he)
    rw [hend.received, hend.holds.cmdIndex, hend.holds'.cmdIndex]
    exact ⟨rfl, rfl⟩

end Silent

/-- `l`, left Shift down and up, `s`, Enter. -/
def shiftedKey : List KeyEvent := [⟨38, []⟩, ⟨0x2A, []⟩, ⟨0xAA, []⟩, ⟨31, []⟩, ⟨28, []⟩]

theorem unseen_iff_bareKeyboard :
    Unseen (fun _ => 0) shiftedKey bareKeyboard ↔
      ∀ e ∈ shiftedKey, e.Release ∨ e.Carries fun _ => 0 :=
  unseen_iff ⟨rfl, fun _ _ => rfl⟩ (by decide +kernel)

/-- With the Shift key in the word the shell gets `l` for `ls`. -/
theorem not_unseen : ¬ ∀ (past : Nat → UInt8) (k : Keyboard) (keys : List KeyEvent), k.Holds [] →
    Along (keyboardCallback past) (KeyEvent.Plain past) keys k → Unseen past keys k := by
  intro hall
  have hkeys := hall (fun _ => 0) bareKeyboard shiftedKey ⟨rfl, fun _ _ => rfl⟩ (by decide +kernel)
  exact absurd (hkeys shiftedKey (List.prefix_refl _)).1 (by decide +kernel)

end Vulcanos
