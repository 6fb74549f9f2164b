import Vulcanos.Interrupts
import Vulcanos.Kernel.Gdt
import Vulcanos.Library.Descriptor

/-!
# From a vector to its stub

Where the processor goes for a vector is decided by two tables in memory, bytes that the kernel
writes as packed structures. Every segment is flat, so a gate leads to the address that it was
given, and the vectors without a gate lead nowhere.
-/

namespace Vulcanos

open Memory Descriptor

/-- An access whose members fit in their bit fields. -/
structure GdtAccess.Fits (a : GdtAccess) : Prop where
  type : a.type < 16
  dt : a.dt < 2
  dpl : a.dpl < 4
  p : a.p < 2

def bytesAt0 (bytes : List UInt8) : Mem := fun x => bytes.getD x 0

theorem GdtAccess.Fits.byte {a : GdtAccess} (h : a.Fits) :
    a.byte.toNat = a.type + 16 * a.dt + 32 * a.dpl + 128 * a.p := by
  obtain ⟨htype, hdt, hdpl, hp⟩ := h
  rw [GdtAccess.byte, UInt8.toNat_ofNat']
  omega

theorem bytes_constructEntry (a : GdtAccess) :
    (constructEntry a).bytes = [0xFF, 0xFF, 0, 0, 0, a.byte, 0xCF, 0] := by
  have hlimit : UInt8.ofNat (gdtLimit &&& 0xFFFF) = 0xFF ∧
      UInt8.ofNat ((gdtLimit &&& 0xFFFF) / 256) = 0xFF := by decide
  have hbase : UInt8.ofNat (gdtBase &&& 0xFFFF) = 0 ∧
      UInt8.ofNat ((gdtBase &&& 0xFFFF) / 256) = 0 ∧
      UInt8.ofNat ((gdtBase >>> 16) &&& 0xFF) = 0 ∧
      UInt8.ofNat ((gdtBase >>> 24) &&& 0xFF) = 0 := by decide
  have hgran :
      (⟨gdtSegmentLength, 0, gdtOperandSize32, gdtGranularity4K⟩ : GdtGran).byte = 0xCF := by
    decide
  obtain ⟨hb0, hb1, hb2, hb3⟩ := hbase
  simp only [constructEntry, GdtEntry.bytes, hlimit.1, hlimit.2, hb0, hb1, hb2, hb3, hgran]

theorem readSegment_constructEntry {a : GdtAccess} (h : a.Fits) :
    readSegment (bytesAt0 (constructEntry a).bytes) 0 =
      { base := 0, limit := 0xFFFFF, type := a.type, s := a.dt, dpl := a.dpl, p := a.p, db := 1
        g := 1 } := by
  have hbyte : read8 (bytesAt0 [0xFF, 0xFF, 0, 0, 0, a.byte, 0xCF, 0]) (0 + 5) =
      a.type + 16 * a.dt + 32 * a.dpl + 128 * a.p := h.byte
  have hgran : read8 (bytesAt0 [0xFF, 0xFF, 0, 0, 0, a.byte, 0xCF, 0]) (0 + 6) = 0xCF := rfl
  have hlow : read8 (bytesAt0 [0xFF, 0xFF, 0, 0, 0, a.byte, 0xCF, 0]) 0 = 0xFF := rfl
  have hnext : read8 (bytesAt0 [0xFF, 0xFF, 0, 0, 0, a.byte, 0xCF, 0]) (0 + 1) = 0xFF := rfl
  obtain ⟨htype, hdt, hdpl, hp⟩ := h
  rw [bytes_constructEntry, readSegment, hbyte, hgran, hlow, hnext, Segment.mk.injEq]
  refine ⟨rfl, rfl, ?_, ?_, ?_, ?_, rfl, rfl⟩
  · omega
  · omega
  · omega
  · omega

/-- The processor reads from the bytes of a gate to a stub the stub's address. -/
theorem readGate_gateTo (base : BitVec 32) : readGate (bytesAt0 (gateTo base).bytes) 0 =
    { offset := base.toNat, selector := 0x08, type := 0x0E, dpl := 0, p := 1 } := by
  have hlow : (gateTo base).baseLow.toNat = base.toNat % 65536 := BitVec.toNat_setWidth 16 base
  have hhigh : (gateTo base).baseHigh.toNat = base.toNat / 65536 := by
    have hlt := base.isLt
    rw [gateTo, BitVec.toNat_setWidth, BitVec.toNat_ushiftRight, Nat.shiftRight_eq_div_pow]
    omega
  have hlt := base.isLt
  have hsel : read8 (bytesAt0 (gateTo base).bytes) (0 + 2) = 0x08 := rfl
  have hnext : read8 (bytesAt0 (gateTo base).bytes) (0 + 3) = 0 := by
    change (UInt8.ofNat ((0x08 : BitVec 16).toNat / 256)).toNat = 0
    decide
  have hflags : read8 (bytesAt0 (gateTo base).bytes) (0 + 5) = 0x8E := rfl
  rw [readGate, hsel, hnext, hflags, Gate.mk.injEq]
  refine ⟨?_, rfl, rfl, rfl, rfl⟩
  change (UInt8.ofNat (gateTo base).baseLow.toNat).toNat +
    256 * (UInt8.ofNat ((gateTo base).baseLow.toNat / 256)).toNat +
    65536 * (UInt8.ofNat (gateTo base).baseHigh.toNat).toNat +
    16777216 * (UInt8.ofNat ((gateTo base).baseHigh.toNat / 256)).toNat = base.toNat
  rw [hlow, hhigh]
  simp only [UInt8.toNat_ofNat']
  omega

/-! ### The two tables in memory -/

/-- The two tables are in memory, and the processor's registers point to them. -/
structure Loaded (addr : Label → BitVec 32) (gdtr idtr : TableRegister) (m : Mem) : Prop where
  gdtLimit : gdtr.limit = gdtPtrLimit
  idtLimit : idtr.limit = idtPtrLimit
  gdt : TableAt m gdtr.base 5 fun i => (initGdt.getD i constructNullEntry).bytes
  idt : TableAt m idtr.base 256 fun i => (initIdt addr i).bytes

def flatSegment (a : GdtAccess) : Segment :=
  { base := 0, limit := 0xFFFFF, type := a.type, s := a.dt, dpl := a.dpl, p := a.p, db := 1
    g := 1 }

theorem flat_flatSegment (a : GdtAccess) : (flatSegment a).Flat :=
  Segment.flat_of_eq rfl rfl rfl

theorem fits_gdtAccesses : ∀ a ∈ gdtAccesses, a.Fits := by
  intro a ha
  simp only [gdtAccesses, List.mem_cons, List.not_mem_nil, or_false] at ha
  rcases ha with rfl | rfl | rfl | rfl
  · exact ⟨by decide, by decide, by decide, by decide⟩
  · exact ⟨by decide, by decide, by decide, by decide⟩
  · exact ⟨by decide, by decide, by decide, by decide⟩
  · exact ⟨by decide, by decide, by decide, by decide⟩

section Tables

variable {addr : Label → BitVec 32} {gdtr idtr : TableRegister} {m : Mem} {vector : Nat}

theorem Loaded.segmentOf (h : Loaded addr gdtr idtr m) (selector : Nat) :
    segmentOf gdtr m selector =
      if selector / 4 % 2 = 1 ∨ selector / 8 = 0 then none
      else (gdtAccesses[selector / 8 - 1]?).map flatSegment := by
  rw [Descriptor.segmentOf, h.gdtLimit]
  by_cases hnull : selector / 4 % 2 = 1 ∨ selector / 8 = 0
  · rw [if_pos hnull, if_pos (by omega)]
  · rw [if_neg hnull, if_neg (by omega)]
    by_cases hout : gdtPtrLimit < 8 * (selector / 8) + 7
    · have hlen : gdtAccesses.length ≤ selector / 8 - 1 := by
        change 4 ≤ selector / 8 - 1
        unfold gdtPtrLimit at hout
        omega
      rw [if_pos hout, List.getElem?_eq_none hlen]
      rfl
    · obtain ⟨i, hi⟩ : ∃ i, selector / 8 = i + 1 := ⟨selector / 8 - 1, by omega⟩
      rw [hi] at hout ⊢
      rw [if_neg hout]
      have hlt : i < gdtAccesses.length := by
        change i < 4
        unfold gdtPtrLimit at hout
        omega
      have hentry : initGdt.getD (i + 1) constructNullEntry =
          constructEntry (gdtAccesses.get ⟨i, hlt⟩) := by
        rw [initGdt, List.getD_cons_succ, List.getD_eq_getElem _ _ (by simpa using hlt),
          List.getElem_map]
        rfl
      have hread := h.gdt.readSegment (i := i + 1) (by change i < 4 at hlt; omega)
      rw [hentry] at hread
      rw [hread, Nat.add_sub_cancel, List.getElem?_eq_getElem hlt]
      exact congrArg some (readSegment_constructEntry (fits_gdtAccesses _ (List.get_mem ..)))

theorem labelOf_of_mem_gates : ∀ g ∈ gates, g.1 < 48 := by decide

theorem initIdt_of_ge (addr : Label → BitVec 32) (hge : 48 ≤ vector) :
    initIdt addr vector = ⟨0, 0, 0, ⟨0, 0, 0⟩, 0⟩ := by
  refine foldl_update_of_not_mem (w := fun l => gateTo (addr l)) ?_
  intro hmem
  obtain ⟨g, hg, rfl⟩ := List.mem_map.mp hmem
  exact absurd (labelOf_of_mem_gates g hg) (by omega)

/-- The processor finds the stub of each vector that has one. -/
theorem Loaded.deliver (h : Loaded addr gdtr idtr m) (vector : Nat) :
    deliver gdtr idtr m vector =
      if vector < 48 then some (addr (labelOf vector)).toNat else none := by
  rw [Descriptor.deliver, h.idtLimit]
  by_cases hout : idtPtrLimit < 8 * vector + 7
  · have hge : ¬ vector < 48 := by
      unfold idtPtrLimit at hout
      omega
    rw [if_pos hout, if_neg hge]
  · have hin : vector < 256 := by
      unfold idtPtrLimit at hout
      omega
    rw [if_neg hout]
    dsimp only
    rw [h.idt.readGate hin]
    by_cases hvector : vector < 48
    · have hgate : Descriptor.readGate (fun x => (initIdt addr vector).bytes.getD x 0) 0 =
          { offset := (addr (labelOf vector)).toNat, selector := 0x08, type := 0x0E, dpl := 0
            p := 1 } := by
        rw [initIdt_gate addr (labelOf_mem_gates vector hvector)]
        exact readGate_gateTo _
      have hsegment : Descriptor.segmentOf gdtr m 0x08 =
          some (flatSegment ⟨gdtCodeTypeExecRead, gdtCodeAndDataDescriptor, gdtRing0,
            gdtSegmentPresent⟩) := h.segmentOf 0x08
      rw [hgate, if_neg (by simp), if_pos hvector]
      dsimp only
      rw [hsegment]
      dsimp only
      rw [if_pos (by decide)]
      exact flat_flatSegment _ _ (BitVec.isLt _)
    · have hnone :
          (Descriptor.readGate (fun x => (initIdt addr vector).bytes.getD x 0) 0).p ≠ 1 := by
        rw [initIdt_of_ge addr (by omega)]
        decide
      rw [if_neg hvector, if_pos (Or.inl hnone)]

/-- **From the tables in memory the processor finds the stub of each vector that has one**, and
nothing for the others, and no selector that it can load moves an address. -/
theorem vector_reaches_stub (h : Loaded addr gdtr idtr m) :
    (∀ vector, Descriptor.deliver gdtr idtr m vector =
      if vector < 48 then some (addr (labelOf vector)).toNat else none) ∧
    ∀ selector d, Descriptor.segmentOf gdtr m selector = some d → d.Flat ∧ d.p = 1 := by
  refine ⟨h.deliver, fun selector d hd => ?_⟩
  rw [h.segmentOf] at hd
  split at hd
  · cases hd
  · obtain ⟨a, ha, rfl⟩ := Option.map_eq_some_iff.mp hd
    refine ⟨flat_flatSegment a, ?_⟩
    have hmem := List.mem_of_getElem? ha
    simp only [gdtAccesses, List.mem_cons, List.not_mem_nil, or_false] at hmem
    rcases hmem with rfl | rfl | rfl | rfl
    · rfl
    · rfl
    · rfl
    · rfl

end Tables

/-- The segment table at 0 and the interrupt table at 64. -/
def tablesMem (addr : Label → BitVec 32) : Mem := fun x =>
  if x < 64 then (initGdt.getD (x / 8) constructNullEntry).bytes.getD (x % 8) 0
  else (initIdt addr ((x - 64) / 8)).bytes.getD ((x - 64) % 8) 0

theorem loaded_tablesMem (addr : Label → BitVec 32) :
    Loaded addr ⟨0, gdtPtrLimit⟩ ⟨64, idtPtrLimit⟩ (tablesMem addr) := by
  refine ⟨rfl, rfl, ?_, ?_⟩
  · intro i hi j hj
    have hentry : (0 + 8 * i + j) / 8 = i := by omega
    have hbyte : (0 + 8 * i + j) % 8 = j := by omega
    simp only [tablesMem, hentry, hbyte]
    rw [if_pos (by omega)]
  · intro i _ j hj
    have hentry : (64 + 8 * i + j - 64) / 8 = i := by omega
    have hbyte : (64 + 8 * i + j - 64) % 8 = j := by omega
    simp only [tablesMem, hentry, hbyte]
    rw [if_neg (by omega)]

/-- The timer's vector. -/
theorem vector_reaches_stub_timer : Descriptor.deliver ⟨0, gdtPtrLimit⟩ ⟨64, idtPtrLimit⟩
    (tablesMem evenOddAddr) 32 = some 1 :=
  (vector_reaches_stub (loaded_tablesMem evenOddAddr)).1 32

end Vulcanos
