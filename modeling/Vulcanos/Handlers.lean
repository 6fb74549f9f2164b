import Vulcanos.Library.Simulation
import Vulcanos.Proof.Handlers
import Vulcanos.Typing

/-!
# Interrupts

The kernel from one interrupt to the next. Every interrupt goes through the gate of its vector, and
`interrupts.asm` masks the others until its handler is done, so a run is a list of interrupts. The
timer, the exceptions without a handler and the keyboard leave each other's state alone, and no
request that a chip has handed over keeps a later one waiting.
-/

namespace Vulcanos

open Simulation Word

/-- An interrupt that the processor takes: the argument of its handler, the scan code on the data
port, and what a command would find around it. -/
structure Interrupt where
  regs : Registers
  scanCode : Nat
  around : Surroundings

def Interrupt.vector (i : Interrupt) : Nat := i.regs.intNum.toNat

/-- A vector whose stub comes back to where it came from. The one of vector 17 does not. -/
def Interrupt.ComesBack (i : Interrupt) : Prop := i.vector < 48 ∧ i.vector ≠ 17

instance (i : Interrupt) : Decidable i.ComesBack := inferInstanceAs (Decidable (_ ∧ _))

/-- An interrupt on a machine where every register is 0. -/
def Interrupt.raised (vector scanCode : Nat) : Interrupt :=
  { regs := ⟨0, 0, 0, 0, 0, 0, 0, 0, 0, BitVec.ofNat 32 vector, 0, 0, 0, 0, 0, 0⟩
    scanCode := scanCode
    around :=
      { cpu := ⟨fun _ => 0, fun _ => 0⟩, registers := ⟨0, 0, 0, 0, 0, 0, 0, 0⟩
        rtc := ⟨fun _ _ => 0, id, strictMono_id⟩, cmos := ⟨0, 0⟩, rightFirst := fun _ => false
        fuel := 1, array := ⟨fun _ => 0, []⟩, version := [], status := fun _ => 0 } }

/-! ### Requests -/

namespace InService

variable {c : InService} {n : Nat}

def Idle (c : InService) : Prop := ∀ i, c.line i = false

theorem Idle.not_blocks (h : c.Idle) (n : Nat) : ¬ c.Blocks n := by
  rintro ⟨i, -, hline⟩
  rw [h i] at hline
  cases hline

theorem Idle.eoi (h : c.Idle) : c.eoi = c := by
  have hnone : c.highest = none := by
    rw [highest, List.find?_range_eq_none]
    intro i _
    rw [h i]
    rfl
  rw [InService.eoi, hnone]

theorem Idle.eoi_take (h : c.Idle) (hn : n < 8) : (c.take n).eoi = c := by
  unfold take
  split
  · exact h.eoi
  · have hsome : ({ c with line := Function.update c.line n true } : InService).highest =
        some n := by
      rw [highest, List.find?_range_eq_some]
      refine ⟨Function.update_self .., List.mem_range.mpr hn, ?_⟩
      intro i hi
      change (!Function.update c.line n true i) = true
      rw [Function.update_of_ne (by omega), h i]
      rfl
    rw [InService.eoi, hsome]
    change { c with line := Function.update (Function.update c.line n true) n false } = c
    rw [Function.update_idem, ← h n, Function.update_eq_self]

end InService

namespace System

section Run

-- the bytes behind the table of scan codes, and the strings behind that of messages
variable (past : Nat → UInt8) (behind : Nat → List UInt8)

/-- A request comes through the chips, the ones of the slave through the line it shares with the
master. -/
def request (line : Nat) (s : System) : System :=
  if line < 8 then { s with master := s.master.take line }
  else { s with slave := s.slave.take (line - 8), master := s.master.take 2 }

/-- An interrupt, from its gate to the `iret`. The shell may raise others from the keyboard's
handler, which nest no deeper. -/
def interrupt (i : Interrupt) (s : System) : Except Halt System :=
  let handler := call past behind i.scanCode i.around 2
  if i.vector < 32 then isrHandler behind handler i.regs s
  else irqHandler handler i.regs (s.request (i.vector - 32))

/-- One interrupt after the other. -/
def run (is : List Interrupt) (s : System) : Except Halt System :=
  is.foldlM (fun s i => s.interrupt past behind i) s

end Run

/-- What `init_timer`, `init_keyboard` and `init_paging` register, in this order. -/
def initHandlers (s : System) : System :=
  ((s.registerInterruptHandler irq0 .timerCallback).registerInterruptHandler irq1
    .keyboardCallback).registerInterruptHandler 14 .pageFault

/-- The table holds the kernel's three handlers and nothing else. -/
def Registered (s : System) : Prop := ∀ n, s.interruptHandler n =
  if n = 14 then some .pageFault else if n = irq1 then some .keyboardCallback
  else if n = irq0 then some .timerCallback else none

/-- No request is in service. -/
structure Idle (s : System) : Prop where
  master : s.master.Idle
  slave : s.slave.Idle

section Requests

variable {s : System} {v : Nat}

theorem registered_initHandlers (h : ∀ n, s.interruptHandler n = none) :
    s.initHandlers.Registered := by
  intro n
  change Function.update (Function.update (Function.update s.interruptHandler _ _) _ _) _ _ n = _
  simp only [Function.update_apply, h n]

theorem ackIrq_eq (v : Nat) (s : System) : s.ackIrq v =
    { s with master := s.master.eoi, slave := if v ≥ 40 then s.slave.eoi else s.slave } := by
  unfold ackIrq
  split <;> rfl

/-- **The acknowledgement ends the request that is in service**, and no other. -/
theorem Idle.ackIrq_request (h : s.Idle) (hirq : 32 ≤ v) (hlast : v < 48) :
    (s.request (v - 32)).ackIrq v = s := by
  rw [ackIrq_eq]
  by_cases hslave : v ≥ 40
  · have hline : ¬ v - 32 < 8 := by omega
    rw [request, if_neg hline]
    simp only [if_pos hslave, h.slave.eoi_take (by omega : v - 32 - 8 < 8),
      h.master.eoi_take (by omega : 2 < 8)]
  · have hline : v - 32 < 8 := by omega
    rw [request, if_pos hline]
    simp only [if_neg hslave, h.master.eoi_take hline]

/-- The system when nothing has happened yet. -/
def bare : System :=
  { interruptHandler := fun _ => none, tick := 0, keyboard := bareKeyboard
    master := ⟨fun _ => false, false⟩, slave := ⟨fun _ => false, false⟩ }

theorem idle_bare : bare.Idle := ⟨fun _ => rfl, fun _ => rfl⟩

end Requests

/-! ### The shell in the keyboard's handler -/

/-- What a command prints, if it comes back. -/
def commandPrints (behind : Nat → List UInt8) (tick : Nat) (e : Surroundings) :
    ShellCommand → Option (List Print)
  | .testInterrupts => some (report behind 0 ++ report behind 4 ++ report behind 1)
  | .clearPrompt => some []
  | c => shellOutput tick e c

/-- How a command ends that does not come back. -/
def commandHalt (e : Surroundings) : ShellCommand → Halt
  | .reboot => if (rebootLoop e.status e.fuel 0 []).isSome then .reset else .stop .outOfFuel
  | _ => .undefined

section Shell

variable {past : Nat → UInt8} {behind : Nat → List UInt8} {e : Surroundings} {s s' : System}
  {cmd : List UInt8} {prints : List Print} {scanCode : Nat}
  {call : IsrT → Registers → System → Except Halt System} {regs : Registers}

theorem ok_bind_system (s : System) (f : System → Except Halt System) :
    (Except.ok s >>= f) = f s := rfl

theorem print_print (ps qs : List Print) (s : System) :
    (s.print ps).print qs = s.print (ps ++ qs) := by
  simp only [print, List.foldl_append]

theorem isrHandler_of_none {n : Nat} (hn : n < 256) (h : s.interruptHandler n = none) :
    isrHandler behind call { regs with intNum := BitVec.ofNat 32 n, errCode := 0 } s =
      .ok (s.print (report behind n)) := by
  have hvector : (BitVec.ofNat 32 n).toNat = n := by
    rw [BitVec.toNat_ofNat]
    exact Nat.mod_eq_of_lt (by omega)
  simp only [isrHandler, hvector, h]

theorem testInterrupts_eq (h : ∀ n ∈ [0, 4, 1], s.interruptHandler n = none) :
    (do
      let int := fun n => isrHandler behind call
        { regs with intNum := BitVec.ofNat 32 n, errCode := 0 }
      let s ← int 0 s
      let s ← int 4 s
      int 1 s) =
    Except.ok (s.print (report behind 0 ++ report behind 4 ++ report behind 1)) := by
  dsimp only
  rw [isrHandler_of_none (by decide) (h 0 (by decide)), ok_bind_system,
    isrHandler_of_none (s := s.print _) (by decide) (h 4 (by decide)), ok_bind_system,
    isrHandler_of_none (s := (s.print _).print _) (by decide) (h 1 (by decide)),
    print_print, print_print, List.append_assoc]

theorem processCommand_of_some (call : IsrT → Registers → System → Except Halt System)
    (regs : Registers) (hnone : ∀ n ∈ [0, 4, 1], s.interruptHandler n = none)
    (h : commandPrints behind s.tick e (ShellCommand.select cmd) = some prints) :
    processCommand (fun n => isrHandler behind call
        { regs with intNum := BitVec.ofNat 32 n, errCode := 0 }) e cmd s =
      .ok { s with keyboard := { s.keyboard with
        tty := Vulcanos.processCommand cmd prints s.keyboard.tty } } := by
  have hclear := select_clearPrompt_iff cmd
  by_cases hc : ShellCommand.select cmd = .clearPrompt
  · rw [processCommand, hc, Vulcanos.processCommand, if_pos (hclear.mp hc)]
  · have hfold : Vulcanos.processCommand cmd prints s.keyboard.tty =
        prints.foldl (fun t p => t.kprintC p.buf p.len p.fg p.bg) s.keyboard.tty := by
      rw [Vulcanos.processCommand, if_neg (mt hclear.mpr hc)]
    rw [hfold, processCommand]
    cases hselect : ShellCommand.select cmd with
    | testInterrupts =>
        rw [hselect] at h
        obtain rfl := Option.some.inj h
        exact testInterrupts_eq hnone
    | clearPrompt => exact absurd hselect hc
    | reboot =>
        rw [hselect] at h
        cases h
    | _ =>
        rw [hselect] at h
        simp only [commandPrints] at h
        simp only [h]
        rfl

theorem processCommand_of_none (int : Nat → System → Except Halt System)
    (h : commandPrints behind s.tick e (ShellCommand.select cmd) = none) :
    processCommand int e cmd s = .error (commandHalt e (ShellCommand.select cmd)) := by
  rw [processCommand]
  cases hselect : ShellCommand.select cmd with
  | testInterrupts =>
      rw [hselect] at h
      cases h
  | clearPrompt =>
      rw [hselect] at h
      cases h
  | reboot =>
      dsimp only [commandHalt]
      cases rebootLoop e.status e.fuel 0 [] with
      | some ports => rfl
      | none => rfl
  | _ =>
      rw [hselect] at h
      simp only [commandPrints] at h
      simp only [h]
      rfl

theorem keyboardCallback_of_not_enters (int : Nat → System → Except Halt System)
    (h : ¬ KeyEvent.Enters past ⟨scanCode, prints⟩) :
    s.keyboardCallback past int scanCode e =
      .ok { s with keyboard := Vulcanos.keyboardCallback past ⟨scanCode, prints⟩ s.keyboard } := by
  rcases KeyEvent.kind past ⟨scanCode, prints⟩ with hrelease | herase | henter | hfill
  · have hbit : scanCode &&& 0x80 ≠ 0 := hrelease
    rw [Keyboard.callback_release hrelease]
    simp only [System.keyboardCallback, if_pos hbit]
    split
    · rfl
    · rfl
  · have hbit : ¬ scanCode &&& 0x80 ≠ 0 := herase.1
    have hcode : keycodeOf past scanCode = 0x08 := herase.2
    simp only [System.keyboardCallback, if_neg hbit, if_pos hcode]
    by_cases hempty : s.keyboard.cmdIndex = 0
    · rw [Keyboard.callback_erase_empty herase hempty]
      exact if_pos (Nat.le_of_eq hempty)
    · rw [Keyboard.callback_erase herase hempty]
      refine if_neg ?_
      change ¬ s.keyboard.cmdIndex ≤ 0
      omega
  · exact absurd henter h
  · have hbit : ¬ scanCode &&& 0x80 ≠ 0 := hfill.1
    have hcode : keycodeOf past scanCode ≠ 0x08 ∧ keycodeOf past scanCode ≠ 0x0A := hfill.2
    rw [Keyboard.callback_fill hfill]
    simp only [System.keyboardCallback, if_neg hbit, if_neg hcode.1, if_neg hcode.2]

theorem keyboardCallback_of_enters (int : Nat → System → Except Halt System)
    (h : KeyEvent.Enters past ⟨scanCode, prints⟩) :
    s.keyboardCallback past int scanCode e = (do
      let k := s.keyboard.look scanCode
      let s ← processCommand int e k.commandBytes
        { s with keyboard := { k with received := k.commandBytes :: k.received } }
      let k := { s.keyboard with cmdIndex := 0 }.clear
      .ok { s with keyboard := { k with tty := k.tty.initPrompt } }) := by
  have hbit : ¬ scanCode &&& 0x80 ≠ 0 := h.1
  have hcode : keycodeOf past scanCode = 0x0A := h.2
  have hne : keycodeOf past scanCode ≠ 0x08 := by
    rw [hcode]
    decide
  rw [System.keyboardCallback]
  simp only [if_neg hbit, if_neg hne, if_pos hcode]

theorem keyboardCallback_of_some (hnone : ∀ n ∈ [0, 4, 1], s.interruptHandler n = none)
    (henter : KeyEvent.Enters past ⟨scanCode, prints⟩) (hprints : commandPrints behind s.tick e
      (ShellCommand.select s.keyboard.commandBytes) = some prints) :
    s.keyboardCallback past (fun n => isrHandler behind call
        { regs with intNum := BitVec.ofNat 32 n, errCode := 0 }) scanCode e =
      .ok { s with keyboard := Vulcanos.keyboardCallback past ⟨scanCode, prints⟩ s.keyboard } := by
  have hbytes : (s.keyboard.look scanCode).commandBytes = s.keyboard.commandBytes := rfl
  have hrun := processCommand_of_some (s := { s with
    keyboard := { s.keyboard.look scanCode with
      received := s.keyboard.commandBytes :: (s.keyboard.look scanCode).received } })
    call regs hnone hprints
  rw [keyboardCallback_of_enters _ henter, Keyboard.callback_enter henter]
  dsimp only
  rw [hbytes, hrun, ok_bind_system]
  simp only [Keyboard.runShell, hbytes]

theorem keyboardCallback_of_none (int : Nat → System → Except Halt System)
    (henter : KeyEvent.Enters past ⟨scanCode, prints⟩) (hprints : commandPrints behind s.tick e
      (ShellCommand.select s.keyboard.commandBytes) = none) :
    s.keyboardCallback past int scanCode e =
      .error (commandHalt e (ShellCommand.select s.keyboard.commandBytes)) := by
  have hbytes : (s.keyboard.look scanCode).commandBytes = s.keyboard.commandBytes := rfl
  have hhalt := processCommand_of_none (s := { s with
    keyboard := { s.keyboard.look scanCode with
      received := s.keyboard.commandBytes :: (s.keyboard.look scanCode).received } }) int hprints
  rw [keyboardCallback_of_enters _ henter]
  dsimp only
  rw [hbytes, hhalt]
  rfl

/-- The driver with the shell inside is the driver to which an Enter brings what is printed, and it
comes back unless the command of an Enter does not. -/
theorem keyboardCallback_eq_ok_iff (hnone : ∀ n ∈ [0, 4, 1], s.interruptHandler n = none) :
    s.keyboardCallback past (fun n => isrHandler behind call
        { regs with intNum := BitVec.ofNat 32 n, errCode := 0 }) scanCode e = .ok s' ↔
      ∃ prints,
        (KeyEvent.Enters past ⟨scanCode, prints⟩ → commandPrints behind s.tick e
          (ShellCommand.select s.keyboard.commandBytes) = some prints) ∧
        s' = { s with keyboard :=
          Vulcanos.keyboardCallback past ⟨scanCode, prints⟩ s.keyboard } := by
  by_cases henter : KeyEvent.Enters past ⟨scanCode, []⟩
  · rcases Option.eq_none_or_eq_some (commandPrints behind s.tick e
        (ShellCommand.select s.keyboard.commandBytes)) with hprints | ⟨prints, hprints⟩
    · rw [keyboardCallback_of_none _ henter hprints]
      refine iff_of_false (fun h => by cases h) ?_
      rintro ⟨prints, hall, -⟩
      cases hprints.symm.trans (hall henter)
    · have henter' : KeyEvent.Enters past ⟨scanCode, prints⟩ := henter
      rw [keyboardCallback_of_some hnone henter' hprints]
      constructor
      · intro h
        exact ⟨prints, fun _ => hprints, (Except.ok.inj h).symm⟩
      · rintro ⟨prints', hall, rfl⟩
        rw [Option.some.inj (hprints.symm.trans (hall henter))]
  · rw [keyboardCallback_of_not_enters _ henter]
    constructor
    · intro h
      exact ⟨[], fun hdo => absurd hdo henter, (Except.ok.inj h).symm⟩
    · rintro ⟨prints, -, rfl⟩
      rw [← keyboardCallback_of_not_enters (e := e) (fun _ => .ok) henter]
      exact keyboardCallback_of_not_enters (fun _ => .ok) henter

end Shell

/-! ### One interrupt -/

section Interrupts

variable {past : Nat → UInt8} {behind : Nat → List UInt8} {s s' : System} {i : Interrupt}

theorem Registered.unregistered (h : s.Registered) :
    ∀ n ∈ [0, 4, 1], s.interruptHandler n = none := by
  intro n hn
  rw [h n]
  simp only [List.mem_cons, List.not_mem_nil, or_false] at hn
  rcases hn with rfl | rfl | rfl
  · decide
  · decide
  · decide

theorem interrupt_pageFault (hreg : s.Registered) (hv : i.vector = 14) :
    s.interrupt past behind i = .error (.stop (.panic "Page fault")) := by
  have hhandler : s.interruptHandler i.regs.intNum.toNat = some .pageFault := by
    change s.interruptHandler i.vector = _
    rw [hreg, if_pos hv]
  rw [interrupt, if_pos (by omega : i.vector < 32), isrHandler, hhandler]
  rfl

theorem interrupt_exception (hreg : s.Registered) (hv : i.vector < 32) (hne : i.vector ≠ 14) :
    s.interrupt past behind i = .ok (s.print (report behind i.vector)) := by
  have hhandler : s.interruptHandler i.regs.intNum.toNat = none := by
    change s.interruptHandler i.vector = none
    rw [hreg, if_neg hne, if_neg (by unfold irq1; omega), if_neg (by unfold irq0; omega)]
  rw [interrupt, if_pos hv, isrHandler, hhandler]
  rfl

theorem Idle.interrupt_request (hidle : s.Idle) (hv : 32 ≤ i.vector) (hlast : i.vector < 48) :
    s.interrupt past behind i =
      match s.interruptHandler i.vector with
      | some handler => call past behind i.scanCode i.around 2 handler i.regs s
      | none => .ok s := by
  have hack : (s.request (i.vector - 32)).ackIrq i.regs.intNum.toNat = s :=
    hidle.ackIrq_request hv hlast
  rw [interrupt, if_neg (by omega : ¬ i.vector < 32)]
  simp only [irqHandler, hack]
  rfl

theorem interrupt_timer (hreg : s.Registered) (hidle : s.Idle) (hv : i.vector = irq0) :
    s.interrupt past behind i = .ok { s with tick := timerCallback s.tick } := by
  have hlow : 32 ≤ i.vector := by rw [hv]; decide
  have hhigh : i.vector < 48 := by rw [hv]; decide
  have hhandler : s.interruptHandler i.vector = some .timerCallback := by
    rw [hreg, if_neg (by omega), if_neg (by rw [hv]; decide), if_pos hv]
  rw [hidle.interrupt_request hlow hhigh, hhandler]
  rfl

theorem interrupt_keyboard (hreg : s.Registered) (hidle : s.Idle) (hv : i.vector = irq1) :
    s.interrupt past behind i = s.keyboardCallback past
      (fun n => isrHandler behind (call past behind i.scanCode i.around 1)
        { i.regs with intNum := BitVec.ofNat 32 n, errCode := 0 }) i.scanCode i.around := by
  have hlow : 32 ≤ i.vector := by rw [hv]; decide
  have hhigh : i.vector < 48 := by rw [hv]; decide
  have hhandler : s.interruptHandler i.vector = some .keyboardCallback := by
    rw [hreg, if_neg (by omega), if_pos hv]
  rw [hidle.interrupt_request hlow hhigh, hhandler]
  rfl

/-- What an interrupt that comes back has done. -/
structure Served (past : Nat → UInt8) (i : Interrupt) (s s' : System) : Prop where
  interruptHandler : s'.interruptHandler = s.interruptHandler
  master : s'.master = s.master
  slave : s'.slave = s.slave
  tick : s'.tick = if i.vector = irq0 then timerCallback s.tick else s.tick
  keyboard : (if i.vector = irq1 then Vulcanos.keyboardCallback past ⟨i.scanCode, []⟩ s.keyboard
    else s.keyboard).SameLine s'.keyboard

theorem served_print (prints : List Print) (h0 : i.vector ≠ irq0) (h1 : i.vector ≠ irq1) :
    Served past i s (s.print prints) := by
  refine ⟨rfl, rfl, rfl, (if_neg h0).symm, ?_⟩
  rw [if_neg h1]
  exact ⟨_, rfl⟩

theorem served_of_interrupt (hreg : s.Registered) (hidle : s.Idle) (hv : i.vector < 48)
    (h : s.interrupt past behind i = .ok s') : Served past i s s' := by
  by_cases hexc : i.vector < 32
  · have h0 : i.vector ≠ irq0 := by unfold irq0; omega
    have h1 : i.vector ≠ irq1 := by unfold irq1; omega
    by_cases hfault : i.vector = 14
    · rw [interrupt_pageFault hreg hfault] at h
      cases h
    · rw [interrupt_exception hreg hexc hfault] at h
      obtain rfl := Except.ok.inj h
      exact served_print _ h0 h1
  · by_cases h1 : i.vector = irq1
    · have h0 : i.vector ≠ irq0 := by rw [h1]; decide
      rw [interrupt_keyboard hreg hidle h1] at h
      obtain ⟨prints, -, rfl⟩ := (keyboardCallback_eq_ok_iff hreg.unregistered).mp h
      refine ⟨rfl, rfl, rfl, (if_neg h0).symm, ?_⟩
      rw [if_pos h1]
      exact (Keyboard.SameLine.refl s.keyboard).callback rfl
    · by_cases h0 : i.vector = irq0
      · rw [interrupt_timer hreg hidle h0] at h
        obtain rfl := Except.ok.inj h
        refine ⟨rfl, rfl, rfl, (if_pos h0).symm, ?_⟩
        rw [if_neg h1]
        exact Keyboard.SameLine.refl s.keyboard
      · rw [hidle.interrupt_request (by omega) hv, hreg, if_neg (by omega), if_neg h1,
          if_neg h0] at h
        obtain rfl := Except.ok.inj h
        refine ⟨rfl, rfl, rfl, (if_neg h0).symm, ?_⟩
        rw [if_neg h1]
        exact Keyboard.SameLine.refl s.keyboard

theorem Served.registered (h : Served past i s s') (hreg : s.Registered) : s'.Registered := by
  intro n
  rw [h.interruptHandler]
  exact hreg n

theorem Served.idle (h : Served past i s s') (hidle : s.Idle) : s'.Idle := by
  refine ⟨?_, ?_⟩
  · rw [h.master]
    exact hidle.master
  · rw [h.slave]
    exact hidle.slave

/-- The line has not come to the end of `command`, and a count of ticks that is shown has no more
digits than `timer_dump` has room for. -/
structure KeyFits (past : Nat → UInt8) (i : Interrupt) (s : System) : Prop where
  line : s.keyboard.cmdIndex < 512
  ticks : KeyEvent.Enters past ⟨i.scanCode, []⟩ →
    ShellCommand.select s.keyboard.commandBytes = .timerDump → s.tick < 10000000

/-- **A keyboard interrupt is what the driver does with what the command of the line prints**, and
it stores nowhere but in the driver's arrays. It does not come back when that command is `reboot`,
or when `fetch` prints a string that was never assigned. -/
theorem keyboard_interrupt_iff (hreg : s.Registered) (hidle : s.Idle) (hv : i.vector = irq1)
    (hfits : KeyFits past i s) :
    s.interrupt past behind i = .ok s' ↔
      ∃ prints,
        (KeyEvent.Enters past ⟨i.scanCode, prints⟩ → commandPrints behind s.tick i.around
          (ShellCommand.select s.keyboard.commandBytes) = some prints) ∧
        s' = { s with keyboard :=
          Vulcanos.keyboardCallback past ⟨i.scanCode, prints⟩ s.keyboard } ∧
        s.keyboard.StaysInside s'.keyboard := by
  rw [interrupt_keyboard hreg hidle hv, keyboardCallback_eq_ok_iff hreg.unregistered]
  refine exists_congr fun prints => and_congr_right fun _ => ?_
  refine ⟨fun h => ⟨h, ?_⟩, fun h => h.1⟩
  rw [h]
  exact Keyboard.staysInside_callback hfits.line

/-- The system in which the line `int` has been typed. -/
def typedInt : System :=
  { bare.initHandlers with keyboard := { bareKeyboard with
      command := fun i => (bytesOf "int").getD i 0
      cmdIndex := 3 } }

theorem select_typedInt : ShellCommand.select typedInt.keyboard.commandBytes = .testInterrupts := by
  have hholds : typedInt.keyboard.Holds (bytesOf "int") := ⟨rfl, fun _ _ => rfl⟩
  rw [hholds.commandBytes_eq (by decide), show 512 - (bytesOf "int").length = 508 + 1 from rfl,
    List.replicate_succ]
  exact ShellCommand.select_name (List.mem_singleton_self "int") _

/-- Enter behind `int`, which raises three interrupts in the handler of the key. -/
theorem keyboard_interrupt_iff_int :
    ∃ s', typedInt.interrupt (fun _ => 0) (fun _ => []) (.raised 33 28) = .ok s' ∧
      s'.keyboard.cmdIndex = 0 ∧ typedInt.keyboard.StaysInside s'.keyboard := by
  have hprints : commandPrints (fun _ => []) typedInt.tick (Interrupt.raised 33 28).around
      (ShellCommand.select typedInt.keyboard.commandBytes) =
        some (report (fun _ => []) 0 ++ report (fun _ => []) 4 ++ report (fun _ => []) 1) := by
    rw [select_typedInt]
    rfl
  have hfits : KeyFits (fun _ => 0) (.raised 33 28) typedInt := by
    refine ⟨by decide, fun _ hselect => ?_⟩
    rw [select_typedInt] at hselect
    cases hselect
  have henter : KeyEvent.Enters (fun _ => 0) ⟨28, []⟩ := by decide
  refine ⟨_, (keyboard_interrupt_iff (s := typedInt) (registered_initHandlers fun _ => rfl)
    ⟨idle_bare.1, idle_bare.2⟩ rfl hfits).mpr ⟨_, fun _ => hprints, rfl, ?_⟩, ?_, ?_⟩
  · exact Keyboard.staysInside_callback hfits.line
  · exact ((⟨rfl, fun _ _ => rfl⟩ : typedInt.keyboard.Holds (bytesOf "int")).callback
      (by decide)).cmdIndex.trans (by decide)
  · exact Keyboard.staysInside_callback hfits.line

end Interrupts

/-! ### Runs -/

section Runs

variable {past : Nat → UInt8} {behind : Nat → List UInt8} {s s' : System} {is : List Interrupt}

theorem run_cons {i : Interrupt} (h : s.run past behind (i :: is) = .ok s') :
    ∃ mid, s.interrupt past behind i = .ok mid ∧ mid.run past behind is = .ok s' := by
  rw [run, List.foldlM_cons] at h
  cases hstep : s.interrupt past behind i with
  | error halt =>
      rw [hstep] at h
      cases h
  | ok mid =>
      rw [hstep] at h
      exact ⟨mid, rfl, h⟩

/-- The keys of a run, one after the other, on a driver whose shell prints nothing. -/
def keys (past : Nat → UInt8) (is : List Interrupt) (k : Keyboard) : Keyboard :=
  (is.filter fun i => i.vector = irq1).foldl
    (fun k i => Vulcanos.keyboardCallback past ⟨i.scanCode, []⟩ k) k

theorem keys_cons (i : Interrupt) (is : List Interrupt) (k : Keyboard) :
    keys past (i :: is) k = keys past is
      (if i.vector = irq1 then Vulcanos.keyboardCallback past ⟨i.scanCode, []⟩ k else k) := by
  rw [keys, List.filter_cons]
  by_cases h : i.vector = irq1
  · rw [if_pos (decide_eq_true h), if_pos h]
    rfl
  · rw [if_neg (by simpa using h), if_neg h]
    rfl

theorem keys_sameLine (is : List Interrupt) {k k' : Keyboard} (h : k.SameLine k') :
    (keys past is k).SameLine (keys past is k') := by
  induction is generalizing k k' with
  | nil => exact h
  | cons i is ih =>
      rw [keys_cons, keys_cons]
      split
      · exact ih (h.callback rfl)
      · exact ih h

/-- What a run of interrupts that come back has left. -/
structure Ran (past : Nat → UInt8) (is : List Interrupt) (s s' : System) : Prop where
  registered : s'.Registered
  idle : s'.Idle
  tick : s'.tick = (s.tick + is.countP fun i => i.vector = irq0) % 4294967296
  line : (keys past is s.keyboard).SameLine s'.keyboard
  inside : s.keyboard.StaysInside s'.keyboard

/-- The vector has a stub that comes back, and a key finds room. -/
def Fits (past : Nat → UInt8) (i : Interrupt) (s : System) : Prop :=
  i.ComesBack ∧ (i.vector = irq1 → KeyFits past i s)

theorem Served.staysInside {i : Interrupt} (h : Served past i s s') (hfits : Fits past i s) :
    s.keyboard.StaysInside s'.keyboard := by
  obtain ⟨t, ht⟩ := h.keyboard
  by_cases h1 : i.vector = irq1
  · rw [if_pos h1] at ht
    rw [ht]
    exact Keyboard.staysInside_callback (hfits.2 h1).line
  · rw [if_neg h1] at ht
    rw [ht]
    exact Keyboard.StaysInside.refl s.keyboard

theorem ran_of_registered (hreg : s.Registered) (hidle : s.Idle) (htick : s.tick < 4294967296)
    (hfits : Within (fun i s => s.interrupt past behind i) (Fits past) is s)
    (hrun : s.run past behind is = .ok s') : Ran past is s s' := by
  induction is generalizing s with
  | nil =>
      obtain rfl := Except.ok.inj hrun
      exact ⟨hreg, hidle, (Nat.mod_eq_of_lt htick).symm, Keyboard.SameLine.refl _,
        Keyboard.StaysInside.refl _⟩
  | cons i is ih =>
      obtain ⟨mid, hstep, hrest⟩ := run_cons hrun
      obtain ⟨hhead, htail⟩ := hfits
      have hserved := served_of_interrupt hreg hidle hhead.1.1 hstep
      have hmid : mid.tick < 4294967296 := by
        rw [hserved.tick]
        split
        · exact Nat.mod_lt _ (by decide)
        · exact htick
      have hran := ih (hserved.registered hreg) (hserved.idle hidle) hmid (htail mid hstep) hrest
      refine ⟨hran.registered, hran.idle, ?_, ?_, (hserved.staysInside hhead).trans hran.inside⟩
      · rw [hran.tick, hserved.tick, List.countP_cons]
        by_cases h0 : i.vector = irq0
        · simp only [if_pos h0, timerCallback, add32, decide_eq_true h0, if_true]
          omega
        · simp only [if_neg h0, decide_eq_false h0]
          rfl
      · rw [keys_cons]
        exact (keys_sameLine is hserved.keyboard).trans hran.line

/-- **The interrupts leave each other alone**: after a run the table of handlers is as it was, no
request is in service or keeps another one waiting, the timer has counted its own interrupts, and
the line that is being typed is the one that the keys alone make. -/
theorem run_interrupts (hzero : ∀ n, s.interruptHandler n = none) (hidle : s.Idle)
    (htick : s.tick < 4294967296)
    (hfits : Within (fun i s => s.interrupt past behind i) (Fits past) is s.initHandlers)
    (hrun : s.initHandlers.run past behind is = .ok s') :
    Ran past is s s' ∧ ∀ n, ¬ s'.master.Blocks n ∧ ¬ s'.slave.Blocks n := by
  have hran := ran_of_registered (s := s.initHandlers) (registered_initHandlers hzero)
    ⟨hidle.master, hidle.slave⟩ htick hfits hrun
  refine ⟨⟨hran.registered, hran.idle, hran.tick, hran.line, hran.inside⟩, fun n => ⟨?_, ?_⟩⟩
  · exact hran.idle.master.not_blocks n
  · exact hran.idle.slave.not_blocks n

/-- The timer, a division by zero, a key, a request that nothing is registered for, and a
backspace. -/
theorem run_interrupts_five : ∃ s',
    bare.initHandlers.run (fun _ => 0) (fun _ => [])
      [.raised 32 0, .raised 0 0, .raised 33 30, .raised 47 0, .raised 33 14] = .ok s' ∧
    s'.tick = 1 ∧ bareKeyboard.StaysInside s'.keyboard ∧ ∀ n, ¬ s'.slave.Blocks n := by
  have hfits : Within (fun i s => s.interrupt (fun _ => 0) (fun _ => []) i) (Fits fun _ => 0)
      [.raised 32 0, .raised 0 0, .raised 33 30, .raised 47 0, .raised 33 14]
      bare.initHandlers := by
    have hno : ∀ scanCode ∈ [30, 14], ¬ KeyEvent.Enters (fun _ => 0) ⟨scanCode, []⟩ := by decide
    refine .cons ⟨by decide, fun h => absurd h (by decide)⟩ rfl ?_
    refine .cons ⟨by decide, fun h => absurd h (by decide)⟩ rfl ?_
    refine .cons ⟨by decide, fun _ => ⟨by decide, fun h => absurd h (hno 30 (by decide))⟩⟩ rfl ?_
    refine .cons ⟨by decide, fun h => absurd h (by decide)⟩ rfl ?_
    refine .cons ⟨by decide, fun _ => ⟨by decide, fun h => absurd h (hno 14 (by decide))⟩⟩ rfl ?_
    trivial
  have h := run_interrupts (fun _ => rfl) idle_bare (by decide) hfits rfl
  exact ⟨_, rfl, h.1.tick, h.1.inside, fun n => (h.2 n).2⟩

end Runs

end System

end Vulcanos
