import Mathlib.Data.List.GetD
import Vulcanos.Kernel.Interrupts
import Vulcanos.Kernel.Pic

/-!
# A vector from its gate to its `iret`

Each stub has to leave a number and an error code on the stack, whichever of the two the processor
has not pushed itself; then one struct layout fits the two common tails. Vector 17 pushes a dummy
error code on top of the one the processor has pushed, so all that lies below is one word off.
-/

namespace Vulcanos

open X86

/-! ### The gates -/

def labelOf (vector : Nat) : Label := if vector < 32 then .isr vector else .irq (vector - 32)

def gateTo (base : BitVec 32) : IdtEntry :=
  { baseLow := base.setWidth 16, segSel := 0x08, reserved := 0, flags := ⟨0x0E, 0, 1⟩
    baseHigh := (base >>> 16).setWidth 16 }

theorem target_gateTo (base : BitVec 32) : (gateTo base).target = base := by
  rw [gateTo, IdtEntry.target]
  refine BitVec.eq_of_getLsbD_eq fun i hi => ?_
  rw [BitVec.getLsbD_append, BitVec.getLsbD_setWidth, BitVec.getLsbD_setWidth,
    BitVec.getLsbD_ushiftRight]
  by_cases hlow : i < 16
  · simp [hlow]
  · have hhigh : i - 16 < 16 := by omega
    have hplace : 16 + (i - 16) = i := by omega
    simp [hlow, hhigh, hplace]

section Updates

variable {ι β γ : Type} [DecidableEq ι] {w : γ → β} {gs : List (ι × γ)} {i : ι} {f : ι → β}

theorem foldl_update_of_not_mem (hout : i ∉ gs.map Prod.fst) :
    gs.foldl (fun f g => Function.update f g.1 (w g.2)) f i = f i := by
  induction gs generalizing f with
  | nil => rfl
  | cons g gs ih =>
      rw [List.map_cons, List.mem_cons, not_or] at hout
      exact (ih hout.2).trans (Function.update_of_ne hout.1 (w g.2) f)

theorem foldl_update_of_mem {c : γ} (hnodup : (gs.map Prod.fst).Nodup) (hmem : (i, c) ∈ gs) :
    gs.foldl (fun f g => Function.update f g.1 (w g.2)) f i = w c := by
  induction gs generalizing f with
  | nil => exact absurd hmem List.not_mem_nil
  | cons g gs ih =>
      rw [List.map_cons, List.nodup_cons] at hnodup
      rcases List.mem_cons.mp hmem with rfl | hlater
      · exact (foldl_update_of_not_mem hnodup.1).trans (Function.update_self i (w c) f)
      · exact ih hnodup.2 hlater

end Updates

theorem initIdt_gate (addr : Label → BitVec 32) {vector : Nat} {l : Label}
    (hgate : (vector, l) ∈ gates) : initIdt addr vector = gateTo (addr l) :=
  foldl_update_of_mem (w := fun l => gateTo (addr l)) (by decide) hgate

theorem labelOf_mem_gates : ∀ vector, vector < 48 → (vector, labelOf vector) ∈ gates := by
  decide

theorem codeOf_labelOf : ∀ vector, vector < 48 → codeOf (labelOf vector) =
    if 32 ≤ vector then irqStub vector
    else if vector = 8 ∨ 10 ≤ vector ∧ vector ≤ 14 then isrErrCode vector
    else isrNoErrCode vector := by
  decide

theorem signExtend_vector : ∀ vector, vector < 48 →
    (BitVec.ofNat 8 vector).signExtend 32 = BitVec.ofNat 32 vector := by
  decide

/-! ### The common tails -/

/-- The registers and `ds` on the stack, the kernel's segments loaded. -/
def saveFrame (m : Machine) : Machine :=
  let m := m.pusha
  let m := m.setLow .eax (m.seg .ds)
  let m := (m.push (m.reg .eax)).setLow .eax (BitVec.ofNat 16 0x10)
  let m := m.setSeg .ds ((m.reg .eax).setWidth 16)
  let m := m.setSeg .es ((m.reg .eax).setWidth 16)
  let m := m.setSeg .fs ((m.reg .eax).setWidth 16)
  m.setSeg .gs ((m.reg .eax).setWidth 16)

/-- The segments back from the stack through a register, then the registers. -/
def restoreFrame (r : Reg) (m : Machine) : Machine :=
  let m := m.pop r
  let m := m.setSeg .ds ((m.reg r).setWidth 16)
  let m := m.setSeg .es ((m.reg r).setWidth 16)
  let m := m.setSeg .fs ((m.reg r).setWidth 16)
  let m := m.setSeg .gs ((m.reg r).setWidth 16)
  let m := m.popa
  let m := m.setReg .esp (m.reg .esp + BitVec.ofNat 32 8)
  { m with eflags := m.eflags ||| interruptFlag }

section Tails

variable {code : Label → List (Instr Label Callee)} {body : Callee → Machine → Machine}
  {ret : BitVec 32} {m : Machine} {r : Reg} {i : Nat}

theorem exec_isrCommon (n : Nat) (m : Machine) :
    exec code body ret (n + 18) isrCommon m [] =
      some (restoreFrame .eax (body .isrHandler ((saveFrame m).push ret)),
        [(saveFrame m).push ret]) := rfl

theorem exec_irqCommon (n : Nat) (m : Machine) :
    exec code body ret (n + 18) irqCommon m [] =
      some (restoreFrame .ebx (body .irqHandler ((saveFrame m).push ret)),
        [(saveFrame m).push ret]) := rfl

theorem reg_esp_pusha (m : Machine) : m.pusha.reg .esp = m.reg .esp - 32 := by
  simp only [Machine.pusha, reg_push_esp]
  bv_omega

theorem word_setLow (h : r ≠ .esp) (v : BitVec 16) : (m.setLow r v).word i = m.word i :=
  word_setReg h

theorem reg_esp_saveFrame (m : Machine) : (saveFrame m).reg .esp = m.reg .esp - 36 := by
  let pushed := m.pusha.setLow .eax (m.seg .ds)
  change (pushed.push (pushed.reg .eax)).reg .esp = _
  rw [reg_push_esp]
  change m.pusha.reg .esp - 4 = _
  rw [reg_esp_pusha]
  bv_omega

theorem word_saveFrame (m : Machine) (i : Nat) :
    (saveFrame m).word i = ((m.pusha.setLow .eax (m.seg .ds)).push
      ((m.pusha.setLow .eax (m.seg .ds)).reg .eax)).word i := by
  simp only [saveFrame, word_setSeg]
  exact word_setLow (by decide) _

theorem word_saveFrame_zero (m : Machine) : ((saveFrame m).word 0).setWidth 16 = m.seg .ds := by
  rw [word_saveFrame, word_push_zero]
  change (BitVec.extractLsb' 16 16 (m.pusha.reg .eax) ++ m.seg .ds).setWidth 16 = _
  refine BitVec.eq_of_getLsbD_eq fun i hi => ?_
  rw [BitVec.getLsbD_setWidth, BitVec.getLsbD_append]
  simp [hi]

theorem word_saveFrame_succ (m : Machine) (hi : i + 1 < 1073741824) :
    (saveFrame m).word (i + 1) = m.pusha.word i := by
  rw [word_saveFrame, word_push_succ _ _ hi, word_setLow (by decide)]

theorem word_saveFrame_slotOf (m : Machine) (r : Reg) :
    (saveFrame m).word (slotOf r + 1) = m.reg r := by
  rw [word_saveFrame_succ m (by cases r <;> decide), word_pusha_slotOf]

theorem word_saveFrame_add (m : Machine) (hi : i + 9 < 1073741824) :
    (saveFrame m).word (i + 9) = m.word i := by
  rw [word_saveFrame_succ m hi, word_pusha_add m (by omega)]

theorem word_pop (h : r ≠ .esp) : (m.pop r).word i = m.word (1 + i) := by
  rw [Machine.pop, word_setReg h, word_drop]

theorem reg_restoreFrame (h : r ≠ .esp) {r' : Reg} (h' : r' ≠ .esp) :
    (restoreFrame r m).reg r' = m.word (slotOf r' + 1) := by
  have hpopa : (m.pop r).popa.reg r' = m.word (slotOf r' + 1) := by
    rw [reg_popa h', word_pop h, Nat.add_comm]
  cases r' <;> first | exact absurd rfl h' | exact hpopa

theorem reg_esp_restoreFrame (h : r ≠ .esp) :
    (restoreFrame r m).reg .esp = m.reg .esp + 44 := by
  have hpop : (m.pop r).reg .esp = m.reg .esp + 4 := by
    simp only [Machine.pop, Machine.setReg, Machine.drop, Function.update_of_ne (Ne.symm h),
      Function.update_self]
    rfl
  change (m.pop r).reg .esp + 4 * BitVec.ofNat 32 8 + BitVec.ofNat 32 8 = _
  rw [hpop]
  bv_omega

theorem seg_ds_restoreFrame (r : Reg) (m : Machine) :
    (restoreFrame r m).seg .ds = (m.word 0).setWidth 16 := by
  have hreg : (m.pop r).reg r = m.word 0 := by
    simp only [Machine.pop, Machine.setReg, Function.update_self]
  change ((m.pop r).reg r).setWidth 16 = _
  rw [hreg]

theorem word_restoreFrame (h : r ≠ .esp) : (restoreFrame r m).word i = m.word (i + 11) := by
  have hesp := reg_esp_restoreFrame (m := m) h
  have hstack : (restoreFrame r m).stack = m.stack := rfl
  rw [Machine.word, hesp, hstack, Machine.word]
  exact congrArg m.stack (by bv_omega)

end Tails

/-- What a common tail makes of the state a stub leaves: the frame its function sees and the state
at the `iret`. -/
structure Tailed (m m' entered : Machine) : Prop where
  intNum : (registersOf entered).intNum = m.word 0
  eip : (registersOf entered).eip = m.word 2
  cs : (registersOf entered).cs = m.word 3
  eflags : (registersOf entered).eflags = m.word 4
  reg : ∀ r, r ≠ .esp → m'.reg r = m.reg r
  ds : m'.seg .ds = m.seg .ds
  esp : m'.reg .esp = m.reg .esp + 8
  top : m'.word 0 = m.word 2

theorem tailed (m : Machine) (ret : BitVec 32) (h : Handler) {r : Reg} (hr : r ≠ .esp) :
    Tailed m (restoreFrame r (h.body ((saveFrame m).push ret))) ((saveFrame m).push ret) := by
  have hword : ∀ i, i < 14 → (h.body ((saveFrame m).push ret)).word i = (saveFrame m).word i := by
    intro i hi
    rw [h.frame _ i hi, word_push_succ _ _ (by omega)]
  have hargs : ∀ i, i < 8 → ((saveFrame m).push ret).word (i + 10) = m.word i := by
    intro i hi
    rw [word_push_succ _ _ (by omega), word_saveFrame_add m (by omega)]
  refine ⟨?_, ?_, ?_, ?_, ?_, ?_, ?_, ?_⟩
  · simp only [registersOf]
    exact hargs 0 (by decide)
  · simp only [registersOf]
    exact hargs 2 (by decide)
  · simp only [registersOf]
    exact hargs 3 (by decide)
  · simp only [registersOf]
    exact hargs 4 (by decide)
  · intro r' hr'
    rw [reg_restoreFrame hr hr', hword _ (by cases r' <;> decide), word_saveFrame_slotOf]
  · rw [seg_ds_restoreFrame, hword 0 (by decide), word_saveFrame_zero]
  · rw [reg_esp_restoreFrame hr, h.returns, reg_push_esp, reg_esp_saveFrame]
    bv_omega
  · rw [word_restoreFrame hr, hword 11 (by decide), word_saveFrame_add m (i := 2) (by decide)]

/-! ### The stubs -/

section Stubs

variable {img : Image} {handler : Callee → Handler} {vector : Nat} {errorCode : BitVec 32}
  {m : Machine}

/-- Interrupts off. -/
def cleared (m : Machine) : Machine := { m with eflags := m.eflags &&& ~~~interruptFlag }

/-- The state a stub leaves for its tail. -/
def stubbed (dummy : Bool) (vector : Nat) (m : Machine) : Machine :=
  (if dummy then (cleared m).push ((BitVec.ofNat 8 0).signExtend 32) else cleared m).push
    ((BitVec.ofNat 8 vector).signExtend 32)

/-- A stub pushes a dummy error code, or relies on the processor's. -/
def PushesDummy (vector : Nat) : Prop := ¬ (vector = 8 ∨ 10 ≤ vector ∧ vector ≤ 14)

instance (vector : Nat) : Decidable (PushesDummy vector) := inferInstanceAs (Decidable (¬ _))

section Macros

variable {body : Callee → Machine → Machine} {ret : BitVec 32}

theorem exec_isrNoErrCode (n : Nat) (m : Machine) :
    exec codeOf body ret (n + 4) (isrNoErrCode vector) m [] =
      exec codeOf body ret n isrCommon (stubbed true vector m) [] := rfl

theorem exec_isrErrCode (n : Nat) (m : Machine) :
    exec codeOf body ret (n + 3) (isrErrCode vector) m [] =
      exec codeOf body ret n isrCommon (stubbed false vector m) [] := rfl

theorem exec_irqStub (n : Nat) (m : Machine) :
    exec codeOf body ret (n + 4) (irqStub vector) m [] =
      exec codeOf body ret n irqCommon (stubbed true vector m) [] := rfl

end Macros

theorem take_eip (hvector : vector < 48) :
    (img.take vector errorCode m).eip = img.addr (labelOf vector) := by
  change (initIdt img.addr vector).target = _
  rw [initIdt_gate img.addr (labelOf_mem_gates vector hvector), target_gateTo]

theorem serve_eq (hvector : vector < 48) : ∃ f r, r ≠ Reg.esp ∧
    img.serve handler vector errorCode m =
      some (restoreFrame r ((handler f).body ((saveFrame (stubbed (PushesDummy vector) vector
          (img.take vector errorCode m))).push img.ret)),
        [(saveFrame (stubbed (PushesDummy vector) vector
          (img.take vector errorCode m))).push img.ret]) := by
  have hcode : img.codeAt (img.take vector errorCode m).eip = codeOf (labelOf vector) := by
    rw [take_eip hvector, img.linked]
  obtain ⟨entry, hentry⟩ : ∃ entry, entry = img.take vector errorCode m := ⟨_, rfl⟩
  simp only [Image.serve]
  rw [hcode, codeOf_labelOf vector hvector, ← hentry]
  split
  · rename_i hirq
    have hdummy : PushesDummy vector := by
      unfold PushesDummy
      omega
    rw [decide_eq_true hdummy]
    exact ⟨.irqHandler, .ebx, by decide,
      (exec_irqStub 28 entry).trans (exec_irqCommon 10 (stubbed true vector entry))⟩
  · split
    · rename_i herror
      have hnone : ¬ PushesDummy vector := not_not.mpr herror
      rw [decide_eq_false hnone]
      exact ⟨.isrHandler, .eax, by decide,
        (exec_isrErrCode 29 entry).trans (exec_isrCommon 11 (stubbed false vector entry))⟩
    · rename_i hplain
      rw [decide_eq_true (show PushesDummy vector from hplain)]
      exact ⟨.isrHandler, .eax, by decide,
        (exec_isrNoErrCode 28 entry).trans (exec_isrCommon 10 (stubbed true vector entry))⟩

/-- The handler sees its vector and what the processor pushed, and the interrupted program finds all
as it was: the registers and `ds` at the `iret`, `esp` at the pushed instruction pointer, from where
the `iret` brings it back. -/
structure Served (vector : Nat) (m m' entered : Machine) : Prop where
  intNum : (registersOf entered).intNum = BitVec.ofNat 32 vector
  eip : (registersOf entered).eip = m.eip
  cs : (registersOf entered).cs = (m.seg .cs).setWidth 32
  eflags : (registersOf entered).eflags = m.eflags
  reg : ∀ r, r ≠ .esp → m'.reg r = m.reg r
  ds : m'.seg .ds = m.seg .ds
  esp : m'.reg .esp = m.reg .esp - 12
  top : m'.word 0 = m.eip
  resumed : m'.iret.reg .esp = m.reg .esp

/-- The three words the processor always pushes, with `esp` at the last of them. -/
structure Entered (m entry : Machine) : Prop where
  eip : entry.word 0 = m.eip
  cs : entry.word 1 = (m.seg .cs).setWidth 32
  eflags : entry.word 2 = m.eflags
  reg : ∀ r, r ≠ .esp → entry.reg r = m.reg r
  ds : entry.seg .ds = m.seg .ds
  esp : entry.reg .esp = m.reg .esp - 12

theorem entered_interrupt (selector : BitVec 16) (target : BitVec 32) (m : Machine) :
    Entered m (m.interrupt selector target none) := by
  let first := m.push m.eflags
  let second := first.push ((m.seg .cs).setWidth 32)
  have hsecond : ∀ i, i < 2 → (second.push m.eip).word (i + 1) = second.word i := fun i hi =>
    word_push_succ second m.eip (by omega)
  refine ⟨word_push_zero second m.eip, ?_, ?_, ?_, rfl, ?_⟩
  · exact (hsecond 0 (by decide)).trans (word_push_zero first _)
  · exact (hsecond 1 (by decide)).trans
      ((word_push_succ first _ (by decide)).trans (word_push_zero m m.eflags))
  · intro r hr
    change (second.push m.eip).reg r = m.reg r
    rw [reg_push_of_ne hr, reg_push_of_ne hr, reg_push_of_ne hr]
  · change (second.push m.eip).reg .esp = _
    rw [reg_push_esp, reg_push_esp, reg_push_esp]
    bv_omega

theorem interrupt_errorCode (selector : BitVec 16) (target errorCode : BitVec 32) (m : Machine) :
    (∀ i, i < 8 → (m.interrupt selector target (some errorCode)).word (i + 1) =
        (m.interrupt selector target none).word i) ∧
      (∀ r, r ≠ .esp → (m.interrupt selector target (some errorCode)).reg r = m.reg r) ∧
      (m.interrupt selector target (some errorCode)).seg .ds = m.seg .ds ∧
      (m.interrupt selector target (some errorCode)).reg .esp = m.reg .esp - 16 := by
  let pushed := ((m.push m.eflags).push ((m.seg .cs).setWidth 32)).push m.eip
  refine ⟨?_, ?_, rfl, ?_⟩
  · intro i hi
    exact word_push_succ pushed errorCode (by omega)
  · intro r hr
    change (pushed.push errorCode).reg r = m.reg r
    rw [reg_push_of_ne hr, reg_push_of_ne hr, reg_push_of_ne hr, reg_push_of_ne hr]
  · change (pushed.push errorCode).reg .esp = _
    rw [reg_push_esp, reg_push_esp, reg_push_esp, reg_push_esp]
    bv_omega

theorem stubbed_frame (dummy : Bool) (entry : Machine) :
    (stubbed dummy vector entry).word 0 = (BitVec.ofNat 8 vector).signExtend 32 ∧
      (∀ i, i < 8 → (stubbed dummy vector entry).word (i + (if dummy then 2 else 1)) =
        entry.word i) ∧
      (∀ r, r ≠ .esp → (stubbed dummy vector entry).reg r = entry.reg r) ∧
      (stubbed dummy vector entry).seg .ds = entry.seg .ds ∧
      (stubbed dummy vector entry).reg .esp = entry.reg .esp - (if dummy then 8 else 4) := by
  cases dummy with
  | false =>
      refine ⟨word_push_zero _ _, ?_, ?_, rfl, ?_⟩
      · intro i hi
        exact word_push_succ (cleared entry) _ (by omega)
      · intro r hr
        exact reg_push_of_ne hr
      · exact reg_push_esp (cleared entry) _
  | true =>
      let dummied := (cleared entry).push ((BitVec.ofNat 8 0).signExtend 32)
      refine ⟨word_push_zero _ _, ?_, ?_, rfl, ?_⟩
      · intro i hi
        exact (word_push_succ dummied _ (by omega)).trans (word_push_succ (cleared entry) _
            (by omega))
      · intro r hr
        exact (reg_push_of_ne (m := dummied) hr).trans (reg_push_of_ne hr)
      · change (dummied.push _).reg .esp = _
        rw [reg_push_esp, reg_push_esp]
        change entry.reg .esp - 4 - 4 = entry.reg .esp - 8
        bv_omega

/-- A stub and a processor that push one error code between them leave the frame the tails expect.
-/
theorem stubbed_take (h17 : vector ≠ 17) (entry : Machine)
    (hentry : entry = img.take vector errorCode m) :
    let m₀ := stubbed (PushesDummy vector) vector entry
    m₀.word 0 = (BitVec.ofNat 8 vector).signExtend 32 ∧
      m₀.word 2 = m.eip ∧ m₀.word 3 = (m.seg .cs).setWidth 32 ∧ m₀.word 4 = m.eflags ∧
      (∀ r, r ≠ .esp → m₀.reg r = m.reg r) ∧ m₀.seg .ds = m.seg .ds ∧
      m₀.reg .esp = m.reg .esp - 20 := by
  have hpushed := entered_interrupt (initIdt img.addr vector).segSel
    (initIdt img.addr vector).target m
  by_cases hdummy : PushesDummy vector
  · have hnone : ¬ PushesErrorCode vector := by
      unfold PushesDummy at hdummy
      unfold PushesErrorCode
      omega
    rw [Image.take, if_neg hnone] at hentry
    rw [← hentry] at hpushed
    obtain ⟨hnum, hwords, hreg, hds, hesp⟩ := @stubbed_frame vector true entry
    rw [decide_eq_true hdummy]
    refine ⟨hnum, (hwords 0 (by decide)).trans hpushed.eip, (hwords 1 (by decide)).trans hpushed.cs,
      (hwords 2 (by decide)).trans hpushed.eflags,
      fun r hr => (hreg r hr).trans (hpushed.reg r hr), hds.trans hpushed.ds, ?_⟩
    rw [hesp, hpushed.esp]
    change m.reg .esp - 12 - 8 = m.reg .esp - 20
    bv_omega
  · have hsome : PushesErrorCode vector := by
      unfold PushesDummy at hdummy
      unfold PushesErrorCode
      omega
    rw [Image.take, if_pos hsome] at hentry
    obtain ⟨hup, hregs, hseg, htop⟩ := interrupt_errorCode (initIdt img.addr vector).segSel
      (initIdt img.addr vector).target errorCode m
    rw [← hentry] at hup hregs hseg htop
    obtain ⟨hnum, hwords, hreg, hds, hesp⟩ := @stubbed_frame vector false entry
    rw [decide_eq_false hdummy]
    refine ⟨hnum, ?_, ?_, ?_, fun r hr => (hreg r hr).trans (hregs r hr), hds.trans hseg, ?_⟩
    · calc
        (stubbed false vector entry).word 2 = entry.word 1 := hwords 1 (by decide)
        _ = _ := hup 0 (by decide)
        _ = m.eip := hpushed.eip
    · calc
        (stubbed false vector entry).word 3 = entry.word 2 := hwords 2 (by decide)
        _ = _ := hup 1 (by decide)
        _ = (m.seg .cs).setWidth 32 := hpushed.cs
    · calc
        (stubbed false vector entry).word 4 = entry.word 3 := hwords 3 (by decide)
        _ = _ := hup 2 (by decide)
        _ = m.eflags := hpushed.eflags
    · rw [hesp, htop]
      change m.reg .esp - 16 - 4 = m.reg .esp - 20
      bv_omega

/-- For vector 17 the stack is one word lower than the tails expect. -/
theorem esp_stubbed_take_17 (entry : Machine) (hentry : entry = img.take 17 errorCode m) :
    (stubbed (PushesDummy 17) 17 entry).reg .esp = m.reg .esp - 24 := by
  rw [Image.take, if_pos (by decide)] at hentry
  obtain ⟨-, -, -, htop⟩ := interrupt_errorCode (initIdt img.addr 17).segSel
    (initIdt img.addr 17).target errorCode m
  rw [← hentry] at htop
  have hesp := (@stubbed_frame 17 true entry).2.2.2.2
  rw [decide_eq_true (show PushesDummy 17 by decide), hesp, htop]
  change m.reg .esp - 16 - 8 = m.reg .esp - 24
  bv_omega

/-- **Every vector but 17 is served.** -/
theorem served_iff (img : Image) (handler : Callee → Handler) {vector : Nat} (hvector : vector < 48)
    (errorCode : BitVec 32) (m : Machine) :
    (∃ m' entered, img.serve handler vector errorCode m = some (m', [entered]) ∧
      Served vector m m' entered) ↔ vector ≠ 17 := by
  obtain ⟨f, r, hr, hserve⟩ := @serve_eq img handler vector errorCode m hvector
  obtain ⟨entry, hentry⟩ : ∃ entry, entry = img.take vector errorCode m := ⟨_, rfl⟩
  rw [← hentry] at hserve
  have htail := tailed (stubbed (PushesDummy vector) vector entry) img.ret (handler f) hr
  constructor
  · rintro ⟨m', entered, hresult, hserved⟩ rfl
    obtain ⟨rfl, -⟩ := Prod.mk.inj (Option.some.inj (hserve.symm.trans hresult))
    have hesp := htail.esp
    rw [esp_stubbed_take_17 entry hentry, hserved.esp] at hesp
    bv_omega
  · intro h17
    obtain ⟨hnum, heip, hcs, hflags, hreg, hds, hesp⟩ := stubbed_take h17 entry hentry
    have hfinal : (restoreFrame r ((handler f).body
        ((saveFrame (stubbed (PushesDummy vector) vector entry)).push img.ret))).reg .esp =
        m.reg .esp - 12 := by
      rw [htail.esp, hesp]
      bv_omega
    refine ⟨_, _, hserve, htail.intNum.trans (hnum.trans (signExtend_vector vector hvector)),
      htail.eip.trans heip, htail.cs.trans hcs, htail.eflags.trans hflags,
      fun r' hr' => (htail.reg r' hr').trans (hreg r' hr'), htail.ds.trans hds, hfinal,
      htail.top.trans heip, ?_⟩
    simp only [Machine.iret, Machine.drop, Machine.setReg, Function.update_self, hfinal]
    bv_omega

end Stubs

/-- The exceptions' stubs at even and the requests' at odd addresses. -/
def evenOddAddr : Label → BitVec 32
  | .isr n => BitVec.ofNat 32 (2 * min n 32)
  | .irq n => BitVec.ofNat 32 (2 * min n 16 + 1)
  | .isrCommon => 100
  | .irqCommon => 101

def evenOddCode (a : BitVec 32) : List (Instr Label Callee) :=
  if a.toNat = 100 then isrCommon
  else if a.toNat = 101 then irqCommon
  else if a.toNat % 2 = 0 then isrStubs.getD (a.toNat / 2) []
  else irqStubs.getD (a.toNat / 2) []

theorem evenOddCode_addr (l : Label) : evenOddCode (evenOddAddr l) = codeOf l := by
  cases l with
  | isr n =>
      have haddr : (BitVec.ofNat 32 (2 * min n 32)).toNat = 2 * min n 32 := by
        rw [BitVec.toNat_ofNat, Nat.mod_eq_of_lt (by omega)]
      simp only [evenOddCode, evenOddAddr, haddr]
      rw [if_neg (by omega), if_neg (by omega), if_pos (by omega),
        Nat.mul_div_cancel_left _ (by decide), codeOf]
      rcases Nat.lt_or_ge n 32 with hlt | hge
      · rw [Nat.min_eq_left (Nat.le_of_lt hlt)]
      · rw [List.getD_eq_default _ _ (by rw [Nat.min_eq_right hge]; decide),
          List.getD_eq_default _ _ hge]
  | irq n =>
      have haddr : (BitVec.ofNat 32 (2 * min n 16 + 1)).toNat = 2 * min n 16 + 1 := by
        rw [BitVec.toNat_ofNat, Nat.mod_eq_of_lt (by omega)]
      have hhalf : (2 * min n 16 + 1) / 2 = min n 16 := by omega
      simp only [evenOddCode, evenOddAddr, haddr]
      rw [if_neg (by omega), if_neg (by omega), if_neg (by omega), hhalf, codeOf]
      rcases Nat.lt_or_ge n 16 with hlt | hge
      · rw [Nat.min_eq_left (Nat.le_of_lt hlt)]
      · rw [List.getD_eq_default _ _ (by rw [Nat.min_eq_right hge]; decide),
          List.getD_eq_default _ _ hge]
  | isrCommon => rfl
  | irqCommon => rfl

/-- A kernel that is linked so. -/
def evenOddImage : Image := ⟨evenOddAddr, evenOddCode, evenOddCode_addr, 0⟩

/-- A function that only returns. -/
def idleHandler : Handler where
  body m := m.drop 1
  returns _ := rfl
  frame m i _ := by rw [word_drop, Nat.add_comm]

def zeroMachine : Machine :=
  { reg := fun _ => 0, seg := fun _ => 0, eip := 0, eflags := 0, stack := fun _ => 0 }

theorem served_iff_zeroMachine :
    (∃ m' entered, evenOddImage.serve (fun _ => idleHandler) 14 4 zeroMachine = some (m',
        [entered]) ∧
      Served 14 zeroMachine m' entered) ↔ (14 : Nat) ≠ 17 :=
  served_iff evenOddImage (fun _ => idleHandler) (by decide) 4 zeroMachine

/-- At vector 17 the `iret` pops the error code as the instruction pointer. -/
theorem not_served : ¬ ∀ (img : Image) (handler : Callee → Handler) (vector : Nat)
    (errorCode : BitVec 32) (m : Machine), vector < 48 →
    ∃ m' entered, img.serve handler vector errorCode m = some (m', [entered]) ∧
      Served vector m m' entered := by
  intro hall
  obtain ⟨m', entered, hserve, hserved⟩ :=
    hall evenOddImage (fun _ => idleHandler) 17 0 zeroMachine (by decide)
  have htop : (evenOddImage.serve (fun _ => idleHandler) 17 0 zeroMachine).map
      (fun p => p.1.reg .esp) = some (-16) := by decide +kernel
  rw [hserve] at htop
  have hesp : m'.reg .esp = -16 := Option.some.inj htop
  rw [hserved.esp] at hesp
  exact absurd hesp (by decide)

/-! ### The interrupt controllers -/

/-- What `pic_remap` is to leave: both chips initialised, each told where the other is, and the
masks as they were. -/
structure Remapped (offset1 offset2 : UInt8) (p p' : Pics) : Prop where
  masterReady : p'.master.stage = .ready
  slaveReady : p'.slave.stage = .ready
  masterIcw2 : p'.master.icw2 = offset1
  slaveIcw2 : p'.slave.icw2 = offset2
  masterIcw3 : p'.master.icw3 = 4
  slaveIcw3 : p'.slave.icw3 = 2
  masterIcw4 : p'.master.icw4 = icw4Mode8086
  slaveIcw4 : p'.slave.icw4 = icw4Mode8086
  masterMask : p'.master.mask = p.master.mask
  slaveMask : p'.slave.mask = p.slave.mask

namespace Pic

variable {c d2 d3 d4 d : UInt8}

theorem data_of_command (p : Pic) (hinit : c &&& 0x10 ≠ 0) :
    (((p.command c).data d2).data d3).data d4 = ⟨.ready, d2, d3, d4, p.mask⟩ := by
  unfold command
  rw [if_pos hinit]
  rfl

theorem data_of_ready {p : Pic} (hready : p.stage = .ready) : p.data d = { p with mask := d } := by
  unfold data
  rw [hready]

end Pic

/-- **What `pic_remap` leaves.** The master has had one byte too many and the slave one too few:
each takes the bytes behind it for something else. -/
theorem picRemap_eq (offset1 offset2 : UInt8) (p : Pics) :
    p.picRemap offset1 offset2 =
      ⟨⟨.ready, offset1, 4, 2, p.master.mask⟩,
        ⟨.ready, offset2, icw4Mode8086, p.slave.mask, p.slave.mask⟩⟩ := by
  have hinit : (icw1Init + icw1Icw4) &&& 0x10 ≠ 0 := by decide
  have hmaster : (p.picRemap offset1 offset2).master =
      (((((p.master.command (icw1Init + icw1Icw4)).data offset1).data 4).data 2).data
        icw4Mode8086).data p.master.mask := rfl
  have hslave : (p.picRemap offset1 offset2).slave =
      (((p.slave.command (icw1Init + icw1Icw4)).data offset2).data icw4Mode8086).data
        p.slave.mask := rfl
  rw [Pic.data_of_command p.master hinit, Pic.data_of_ready rfl, Pic.data_of_ready rfl] at hmaster
  rw [Pic.data_of_command p.slave hinit] at hslave
  calc p.picRemap offset1 offset2
      = ⟨(p.picRemap offset1 offset2).master, (p.picRemap offset1 offset2).slave⟩ := rfl
    _ = _ := by rw [hmaster, hslave]

/-- **No call of `pic_remap`** leaves the chips as it should. -/
theorem not_remapped (offset1 offset2 : UInt8) (p : Pics) :
    ¬ Remapped offset1 offset2 p (p.picRemap offset1 offset2) := by
  rw [picRemap_eq]
  intro hremapped
  have hicw3 : icw4Mode8086 = 2 := hremapped.slaveIcw3
  exact absurd hicw3 (by decide)

/-- The kernel's own call, on chips that have all their interrupts masked. -/
theorem not_forall_remapped : ¬ ∀ (offset1 offset2 : UInt8) (p : Pics),
    Remapped offset1 offset2 p (p.picRemap offset1 offset2) := by
  intro hall
  have hremapped := hall 0x20 0x28 ⟨⟨.ready, 0, 0, 0, 0xFF⟩, ⟨.ready, 0, 0, 0, 0xFF⟩⟩
  exact absurd hremapped.masterIcw4 (by decide)

end Vulcanos
