import Mathlib.Logic.Function.Basic

/-!
# A machine with a stack

The part of a 32-bit x86 processor that interrupt stubs are written for: registers, segment
registers, a stack of double words, and straight code with jumps and calls that runs to an `iret`.
The stack is read by position: `word 0` is what `esp` points to. Flags that arithmetic sets are left
out.
-/

namespace Vulcanos.X86

inductive Reg where
  | eax | ecx | edx | ebx | esp | ebp | esi | edi
deriving Repr, DecidableEq

inductive Seg where
  | cs | ds | es | fs | gs
deriving Repr, DecidableEq

structure Machine where
  reg : Reg → BitVec 32
  seg : Seg → BitVec 16
  eip : BitVec 32
  eflags : BitVec 32
  stack : BitVec 32 → BitVec 32

/-- The interrupt flag. -/
def interruptFlag : BitVec 32 := 0x200

namespace Machine

/-- The double word `i` places above the top of the stack. -/
def word (m : Machine) (i : Nat) : BitVec 32 := m.stack (m.reg .esp + 4 * BitVec.ofNat 32 i)

def setReg (r : Reg) (v : BitVec 32) (m : Machine) : Machine :=
  { m with reg := Function.update m.reg r v }

def setSeg (s : Seg) (v : BitVec 16) (m : Machine) : Machine :=
  { m with seg := Function.update m.seg s v }

def push (v : BitVec 32) (m : Machine) : Machine :=
  { m.setReg .esp (m.reg .esp - 4) with
    stack := Function.update m.stack (m.reg .esp - 4) v }

/-- `n` double words off the stack. -/
def drop (n : Nat) (m : Machine) : Machine := m.setReg .esp (m.reg .esp + 4 * BitVec.ofNat 32 n)

def pop (r : Reg) (m : Machine) : Machine := (m.drop 1).setReg r (m.word 0)

def pusha (m : Machine) : Machine :=
  (((((((m.push (m.reg .eax)).push (m.reg .ecx)).push (m.reg .edx)).push (m.reg .ebx)).push
    (m.reg .esp)).push (m.reg .ebp)).push (m.reg .esi)).push (m.reg .edi)

/-- `popa`, which leaves out the `esp` it finds. -/
def popa (m : Machine) : Machine :=
  { m.drop 8 with
    reg := fun
      | .edi => m.word 0
      | .esi => m.word 1
      | .ebp => m.word 2
      | .esp => m.reg .esp + 4 * BitVec.ofNat 32 8
      | .ebx => m.word 4
      | .edx => m.word 5
      | .ecx => m.word 6
      | .eax => m.word 7 }

/-- Replace the low half of a register. -/
def setLow (r : Reg) (v : BitVec 16) (m : Machine) : Machine :=
  m.setReg r ((m.reg r).extractLsb' 16 16 ++ v)

def iret (m : Machine) : Machine :=
  { m.drop 3 with
    eip := m.word 0
    seg := Function.update m.seg .cs ((m.word 1).setWidth 16)
    eflags := m.word 2 }

/-- An interrupt without a change of ring: the processor pushes flags, code segment and instruction
pointer, an error code if there is one, and goes on where the gate says. -/
def interrupt (selector : BitVec 16) (target : BitVec 32) (errorCode : Option (BitVec 32))
    (m : Machine) : Machine :=
  let pushed := ((m.push m.eflags).push ((m.seg .cs).setWidth 32)).push m.eip
  let pushed := errorCode.elim pushed pushed.push
  { pushed.setSeg .cs selector with
    eip := target
    eflags := m.eflags &&& ~~~interruptFlag }

end Machine

/-! ### The laws of the stack -/

section Stack

variable {m : Machine} {r : Reg} {v : BitVec 32} {i n : Nat}

@[simp]
theorem reg_push_esp (m : Machine) (v : BitVec 32) : (m.push v).reg .esp = m.reg .esp - 4 := by
  simp only [Machine.push, Machine.setReg, Function.update_self]

@[simp]
theorem reg_push_of_ne (h : r ≠ .esp) : (m.push v).reg r = m.reg r := by
  simp only [Machine.push, Machine.setReg, Function.update_of_ne h]

@[simp]
theorem seg_push (m : Machine) (v : BitVec 32) : (m.push v).seg = m.seg := rfl

@[simp]
theorem word_push_zero (m : Machine) (v : BitVec 32) : (m.push v).word 0 = v := by
  simp [Machine.word, Machine.push, Machine.setReg]

theorem word_push_succ (m : Machine) (v : BitVec 32) (hi : i + 1 < 1073741824) :
    (m.push v).word (i + 1) = m.word i := by
  have haddr : m.reg .esp - 4 + 4 * BitVec.ofNat 32 (i + 1) =
      m.reg .esp + 4 * BitVec.ofNat 32 i := by
    bv_omega
  have hne : m.reg .esp + 4 * BitVec.ofNat 32 i ≠ m.reg .esp - 4 := by
    bv_omega
  rw [Machine.word, reg_push_esp, haddr]
  exact Function.update_of_ne hne v m.stack

@[simp]
theorem word_drop (n i : Nat) (m : Machine) : (m.drop n).word i = m.word (n + i) := by
  have haddr : m.reg .esp + 4 * BitVec.ofNat 32 n + 4 * BitVec.ofNat 32 i =
      m.reg .esp + 4 * BitVec.ofNat 32 (n + i) := by
    bv_omega
  simp only [Machine.word, Machine.drop, Machine.setReg, Function.update_self, haddr]

@[simp]
theorem word_setReg (h : r ≠ .esp) : (m.setReg r v).word i = m.word i := by
  simp only [Machine.word, Machine.setReg, Function.update_of_ne (Ne.symm h)]

@[simp]
theorem word_setSeg (s : Seg) (w : BitVec 16) : (m.setSeg s w).word i = m.word i := rfl

theorem word_pusha_add (m : Machine) (hi : i + 8 < 1073741824) :
    m.pusha.word (i + 8) = m.word i := by
  unfold Machine.pusha
  rw [word_push_succ _ _ hi, word_push_succ _ _ (by omega), word_push_succ _ _ (by omega),
    word_push_succ _ _ (by omega), word_push_succ _ _ (by omega), word_push_succ _ _ (by omega),
    word_push_succ _ _ (by omega), word_push_succ _ _ (by omega)]

/-- Where `pusha` leaves a register. -/
def slotOf : Reg → Nat
  | .edi => 0
  | .esi => 1
  | .ebp => 2
  | .esp => 3
  | .ebx => 4
  | .edx => 5
  | .ecx => 6
  | .eax => 7

theorem word_pusha_slotOf (m : Machine) (r : Reg) : m.pusha.word (slotOf r) = m.reg r := by
  cases r <;> simp [Machine.pusha, slotOf, word_push_succ]

theorem reg_popa (h : r ≠ .esp) : m.popa.reg r = m.word (slotOf r) := by
  cases r with
  | esp => exact absurd rfl h
  | _ => rfl

end Stack

/-! ### Straight code -/

/-- The instructions of a stub. Labels and called functions are the program's own. -/
inductive Instr (Label Callee : Type) where
  | cli
  | sti
  | pushByte (n : Nat)
  | pusha
  | popa
  | push (r : Reg)
  | pop (r : Reg)
  /-- `mov ax, ds` and the like. -/
  | movFromSeg (r : Reg) (s : Seg)
  | movImm16 (r : Reg) (n : Nat)
  | movToSeg (s : Seg) (r : Reg)
  | addEsp (n : Nat)
  | jmp (l : Label)
  | call (f : Callee)
  | iret
deriving Repr, DecidableEq

section Exec

variable {Label Callee : Type}

/-- One instruction, as far as it is not a jump, a call or a return. -/
def Instr.step : Instr Label Callee → Machine → Machine
  | .cli, m => { m with eflags := m.eflags &&& ~~~interruptFlag }
  | .sti, m => { m with eflags := m.eflags ||| interruptFlag }
  | .pushByte n, m => m.push ((BitVec.ofNat 8 n).signExtend 32)
  | .pusha, m => m.pusha
  | .popa, m => m.popa
  | .push r, m => m.push (m.reg r)
  | .pop r, m => m.pop r
  | .movFromSeg r s, m => m.setLow r (m.seg s)
  | .movImm16 r n, m => m.setLow r (BitVec.ofNat 16 n)
  | .movToSeg s r, m => m.setSeg s ((m.reg r).setWidth 16)
  | .addEsp n, m => m.setReg .esp (m.reg .esp + BitVec.ofNat 32 n)
  | .jmp _, m => m
  | .call _, m => m
  | .iret, m => m

/-- Run to the first `iret`. The result is the state before it and, latest first, the states the
called functions were entered in. -/
def exec (code : Label → List (Instr Label Callee)) (body : Callee → Machine → Machine)
    (ret : BitVec 32) :
    Nat → List (Instr Label Callee) → Machine → List Machine → Option (Machine × List Machine)
  | 0, _, _, _ => none
  | _ + 1, [], _, _ => none
  | _ + 1, .iret :: _, m, entered => some (m, entered)
  | n + 1, .jmp l :: _, m, entered => exec code body ret n (code l) m entered
  | n + 1, .call f :: is, m, entered =>
      exec code body ret n is (body f (m.push ret)) (m.push ret :: entered)
  | n + 1, i :: is, m, entered => exec code body ret n is (i.step m) entered

end Exec

end Vulcanos.X86
