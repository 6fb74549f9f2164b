import Vulcanos.Kernel.Commands
import Vulcanos.Kernel.Interrupts
import Vulcanos.Kernel.Pic

/-!
# `isr.c`, and the handlers it calls

The C side of an interrupt: the table of handlers, the message for a vector without one, the
acknowledgement of a request, and the kernel's three handlers. The shell runs inside the keyboard's,
and its `int` command raises interrupts of its own, so a call is given the depth to which it may
nest.
-/

namespace Vulcanos

def interruptsMessages : List String :=
  ["Division by Zero", "Debug", "Non-maskable interrupt", "Breakpoint", "Detected overflow",
    "Out-of-bounds", "Invalid opcode", "No coprocessor", "Double fault",
    "Coprocessor segment overrun", "Bad TSS", "Segment not present", "Stack fault",
    "General protection fault", "Page fault", "Unknown interrupt", "Coprocessor fault",
    "Alignment check", "Machine check", "Reserved", "Reserved", "Reserved", "Reserved", "Reserved",
    "Reserved", "Reserved", "Reserved", "Reserved", "Reserved", "Reserved", "Reserved", "Reserved"]

/-- `isr_t`: the functions whose addresses the kernel registers. -/
inductive IsrT where
  | timerCallback
  | keyboardCallback
  | pageFault
deriving Repr, DecidableEq

def irq0 : Nat := 32

def irq1 : Nat := 33

/-- The requests that a chip has handed to the processor and that have not been ended. -/
structure InService where
  line : Nat → Bool
  /-- The chip ends a request by itself as it hands it over. -/
  autoEoi : Bool

namespace InService

/-- Handing over a request. -/
def take (n : Nat) (c : InService) : InService :=
  if c.autoEoi then c else { c with line := Function.update c.line n true }

/-- The line of the highest priority, which is the lowest, of those in service. -/
def highest (c : InService) : Option Nat := (List.range 8).find? c.line

/-- The unspecific end of interrupt. -/
def eoi (c : InService) : InService :=
  match c.highest with
  | some n => { c with line := Function.update c.line n false }
  | none => c

/-- A request on the line has to wait for one of at least its priority. -/
def Blocks (n : Nat) (c : InService) : Prop := ∃ i ≤ n, c.line i = true

end InService

/-- What the handlers work on. -/
structure System where
  interruptHandler : Nat → Option IsrT
  tick : Nat
  keyboard : Keyboard
  master : InService
  slave : InService

/-- How a call ends that does not return: it loops, or the processor is reset, or the source does
not say what happens. -/
inductive Halt where
  | stop (s : Stop)
  | reset
  | undefined
deriving Repr, DecidableEq

def picEoi : Nat := 0x20

namespace System

/-- `outb`, as far as the two chips take it for an end of interrupt. -/
def outb (port data : Nat) (s : System) : System :=
  if data = picEoi then
    if port = pic1Command then { s with master := s.master.eoi }
    else if port = pic2Command then { s with slave := s.slave.eoi }
    else s
  else s

def ackIrq (intNum : Nat) (s : System) : System :=
  let s := if intNum ≥ 40 then s.outb pic2Command picEoi else s
  s.outb pic1Command picEoi

def registerInterruptHandler (n : Nat) (handler : IsrT) (s : System) : System :=
  { s with interruptHandler := Function.update s.interruptHandler n (some handler) }

/-- `kprint_c` on the console. -/
def print (prints : List Print) (s : System) : System :=
  { s with keyboard := { s.keyboard with
    tty := prints.foldl (fun t p => t.kprintC p.buf p.len p.fg p.bg) s.keyboard.tty } }

section Handlers

-- the bytes behind the table of scan codes, and the strings behind that of messages
variable (past : Nat → UInt8) (behind : Nat → List UInt8)

/-- `interrupts_messages[(uint8_t)int_num]`. -/
def messageOf (intNum : Nat) : List UInt8 :=
  (interruptsMessages[intNum % 256]?.map bytesOf).getD (behind (intNum % 256))

/-- What `isr_handler` prints for a vector without a handler. -/
def report (intNum : Nat) : List Print :=
  [inColor "\nReceived interrupt: " .lightBrown, printed (messageOf behind intNum) .white .black]

/-- `isr_handler`, with what a handler does. -/
def isrHandler (call : IsrT → Registers → System → Except Halt System) (regs : Registers)
    (s : System) : Except Halt System :=
  match s.interruptHandler regs.intNum.toNat with
  | some handler => call handler regs s
  | none => .ok (s.print (report behind regs.intNum.toNat))

def irqHandler (call : IsrT → Registers → System → Except Halt System) (regs : Registers)
    (s : System) : Except Halt System :=
  let s := s.ackIrq regs.intNum.toNat
  match s.interruptHandler regs.intNum.toNat with
  | some handler => call handler regs s
  | none => .ok s

/-- `processCommand`, with what `int $n` does. -/
def processCommand (int : Nat → System → Except Halt System) (e : Surroundings) (cmd : List UInt8)
    (s : System) : Except Halt System :=
  match ShellCommand.select cmd with
  | .testInterrupts => do
      let s ← int 0 s
      let s ← int 4 s
      int 1 s
  | .clearPrompt => .ok { s with keyboard := { s.keyboard with tty := s.keyboard.tty.clearPrompt } }
  | .reboot =>
      match rebootLoop e.status e.fuel 0 [] with
      | some _ => .error .reset
      | none => .error (.stop .outOfFuel)
  | c =>
      match shellOutput s.tick e c with
      | some prints => .ok (s.print prints)
      | none => .error .undefined

/-- `keyboard_callback`, for the scan code on the data port. -/
def keyboardCallback (int : Nat → System → Except Halt System) (scanCode : Nat) (e : Surroundings)
    (s : System) : Except Halt System :=
  let keycode := keycodeOf past scanCode
  let s := { s with keyboard := s.keyboard.look scanCode }
  let k := s.keyboard
  if scanCode &&& 0x80 ≠ 0 then
    if scanCode = 0xAA ∨ scanCode = 0x86 then .ok { s with keyboard := { k with shiftdown := 0 } }
    else .ok s
  else if keycode = 0x08 then
    if k.cmdIndex ≤ 0 then .ok s
    else
      let k := k.dropLast
      .ok { s with keyboard := { k with tty := k.tty.backspace } }
  else if keycode = 0x0A then do
    let s ← processCommand int e k.commandBytes
      { s with keyboard := { k with received := k.commandBytes :: k.received } }
    let k := { s.keyboard with cmdIndex := 0 }.clear
    .ok { s with keyboard := { k with tty := k.tty.initPrompt } }
  else .ok { s with keyboard := k.fill keycode }

/-- The handlers, to a depth. The scan code and the surroundings are those of this interrupt. -/
def call (scanCode : Nat) (e : Surroundings) :
    Nat → IsrT → Registers → System → Except Halt System
  | 0, _, _, _ => .error (.stop .outOfFuel)
  | depth + 1, handler, regs, s =>
      match handler with
      | .timerCallback => .ok { s with tick := Vulcanos.timerCallback s.tick }
      | .pageFault => .error (.stop (.panic "Page fault"))
      | .keyboardCallback =>
          s.keyboardCallback past
            (fun n => isrHandler behind (call scanCode e depth)
              { regs with intNum := BitVec.ofNat 32 n, errCode := 0 })
            scanCode e

end Handlers

end System

end Vulcanos
