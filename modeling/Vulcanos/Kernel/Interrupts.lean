import Vulcanos.Library.X86

/-!
# `interrupts.asm` and `idt.c`

The stubs of the 48 vectors, the two common tails, and the descriptor table whose gates point to the
stubs. Where the linker puts a stub is a parameter.
-/

namespace Vulcanos

open X86

inductive Label where
  | isr (n : Nat)
  | irq (n : Nat)
  | isrCommon
  | irqCommon
deriving Repr, DecidableEq

inductive Callee where
  | isrHandler
  | irqHandler
deriving Repr, DecidableEq

def isrNoErrCode (n : Nat) : List (Instr Label Callee) :=
  [.cli, .pushByte 0, .pushByte n, .jmp .isrCommon]

def isrErrCode (n : Nat) : List (Instr Label Callee) := [.cli, .pushByte n, .jmp .isrCommon]

/-- `IRQ`, for the vector `n` the request is remapped to. -/
def irqStub (n : Nat) : List (Instr Label Callee) :=
  [.cli, .pushByte 0, .pushByte n, .jmp .irqCommon]

def isrCommon : List (Instr Label Callee) :=
  [.pusha, .movFromSeg .eax .ds, .push .eax,
    .movImm16 .eax 0x10, .movToSeg .ds .eax, .movToSeg .es .eax, .movToSeg .fs .eax,
    .movToSeg .gs .eax,
    .call .isrHandler,
    .pop .eax, .movToSeg .ds .eax, .movToSeg .es .eax, .movToSeg .fs .eax, .movToSeg .gs .eax,
    .popa, .addEsp 8, .sti, .iret]

def irqCommon : List (Instr Label Callee) :=
  [.pusha, .movFromSeg .eax .ds, .push .eax,
    .movImm16 .eax 0x10, .movToSeg .ds .eax, .movToSeg .es .eax, .movToSeg .fs .eax,
    .movToSeg .gs .eax,
    .call .irqHandler,
    .pop .ebx, .movToSeg .ds .ebx, .movToSeg .es .ebx, .movToSeg .fs .ebx, .movToSeg .gs .ebx,
    .popa, .addEsp 8, .sti, .iret]

/-- The stubs of the exceptions, in the order of the file. -/
def isrStubs : List (List (Instr Label Callee)) :=
  [isrNoErrCode 0, isrNoErrCode 1, isrNoErrCode 2, isrNoErrCode 3,
    isrNoErrCode 4, isrNoErrCode 5, isrNoErrCode 6, isrNoErrCode 7,
    isrErrCode 8, isrNoErrCode 9, isrErrCode 10, isrErrCode 11,
    isrErrCode 12, isrErrCode 13, isrErrCode 14, isrNoErrCode 15,
    isrNoErrCode 16, isrNoErrCode 17, isrNoErrCode 18, isrNoErrCode 19,
    isrNoErrCode 20, isrNoErrCode 21, isrNoErrCode 22, isrNoErrCode 23,
    isrNoErrCode 24, isrNoErrCode 25, isrNoErrCode 26, isrNoErrCode 27,
    isrNoErrCode 28, isrNoErrCode 29, isrNoErrCode 30, isrNoErrCode 31]

/-- The stubs of the interrupt requests. -/
def irqStubs : List (List (Instr Label Callee)) :=
  [irqStub 32, irqStub 33, irqStub 34, irqStub 35, irqStub 36, irqStub 37, irqStub 38, irqStub 39,
    irqStub 40, irqStub 41, irqStub 42, irqStub 43, irqStub 44, irqStub 45, irqStub 46, irqStub 47]

/-- The code behind a label. -/
def codeOf : Label → List (Instr Label Callee)
  | .isr n => isrStubs.getD n []
  | .irq n => irqStubs.getD n []
  | .isrCommon => isrCommon
  | .irqCommon => irqCommon

/-- `registers_t`. -/
structure Registers where
  ds : BitVec 32
  edi : BitVec 32
  esi : BitVec 32
  ebp : BitVec 32
  esp : BitVec 32
  ebx : BitVec 32
  edx : BitVec 32
  ecx : BitVec 32
  eax : BitVec 32
  intNum : BitVec 32
  errCode : BitVec 32
  eip : BitVec 32
  cs : BitVec 32
  eflags : BitVec 32
  usereap : BitVec 32
  ss : BitVec 32
deriving Repr, DecidableEq

/-- The argument a called function sees: the words behind its return address. -/
def registersOf (m : Machine) : Registers :=
  { ds := m.word 1, edi := m.word 2, esi := m.word 3, ebp := m.word 4, esp := m.word 5,
    ebx := m.word 6, edx := m.word 7, ecx := m.word 8, eax := m.word 9, intNum := m.word 10,
    errCode := m.word 11, eip := m.word 12, cs := m.word 13, eflags := m.word 14,
    usereap := m.word 15, ss := m.word 16 }

/-- `idt_flags_t`. -/
structure IdtFlags where
  reserved : Nat
  dpl : Nat
  p : Nat
deriving Repr, DecidableEq

/-- `idt_entry_t`. -/
structure IdtEntry where
  baseLow : BitVec 16
  segSel : BitVec 16
  reserved : Nat
  flags : IdtFlags
  baseHigh : BitVec 16
deriving Repr, DecidableEq

def idtSetGate (idx : Nat) (base : BitVec 32) (selector : BitVec 16) (flags : IdtFlags)
    (entries : Nat → IdtEntry) : Nat → IdtEntry :=
  Function.update entries idx
    { baseLow := base.setWidth 16, segSel := selector, reserved := 0, flags := flags
      baseHigh := (base >>> 16).setWidth 16 }

/-- The gates `init_idt` sets, in its order. -/
def gates : List (Nat × Label) :=
  (List.range 32).map (fun n => (n, .isr n)) ++ (List.range 16).map (fun n => (n + 32, .irq n))

/-- `init_idt`, as the table it leaves. -/
def initIdt (addr : Label → BitVec 32) : Nat → IdtEntry :=
  gates.foldl (fun entries g => idtSetGate g.1 (addr g.2) 0x08 ⟨0x0E, 0, 1⟩ entries)
    fun _ => ⟨0, 0, 0, ⟨0, 0, 0⟩, 0⟩

/-- Where the processor goes on for a gate. -/
def IdtEntry.target (g : IdtEntry) : BitVec 32 := g.baseHigh ++ g.baseLow

/-- The kernel in memory: where the labels are, and what code is found there. -/
structure Image where
  addr : Label → BitVec 32
  codeAt : BitVec 32 → List (Instr Label Callee)
  linked : ∀ l, codeAt (addr l) = codeOf l
  /-- Where a called function returns to. -/
  ret : BitVec 32

/-- A function that returns, with the frame of its caller as it was: its argument, and the words the
processor pushed. -/
structure Handler where
  body : Machine → Machine
  returns : ∀ m, (body m).reg .esp = m.reg .esp + 4
  frame : ∀ m i, i < 14 → (body m).word i = m.word (i + 1)

/-- The vectors for which the processor pushes an error code. -/
def PushesErrorCode (vector : Nat) : Prop :=
  vector = 8 ∨ 10 ≤ vector ∧ vector ≤ 14 ∨ vector = 17

instance (vector : Nat) : Decidable (PushesErrorCode vector) :=
  inferInstanceAs (Decidable (_ ∨ _))

/-- The processor takes a vector through its gate. -/
def Image.take (img : Image) (vector : Nat) (errorCode : BitVec 32) (m : Machine) : Machine :=
  m.interrupt (initIdt img.addr vector).segSel (initIdt img.addr vector).target
    (if PushesErrorCode vector then some errorCode else none)

/-- From the gate to the `iret`. The longest stub and its tail have 22 instructions. -/
def Image.serve (img : Image) (handler : Callee → Handler) (vector : Nat)
    (errorCode : BitVec 32) (m : Machine) : Option (Machine × List Machine) :=
  let entry := img.take vector errorCode m
  exec codeOf (fun f => (handler f).body) img.ret 32 (img.codeAt entry.eip) entry []

end Vulcanos
