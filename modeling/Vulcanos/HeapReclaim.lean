import Vulcanos.HeapSafety
import Vulcanos.Proof.Tidy

/-!
# Freed memory comes back

When every block has been freed, in whatever order, the heap is one hole again. That rests on `free`
seeing the holes around each block, which a stale footer can keep it from.
-/

namespace Vulcanos

open Memory Word Layout

/-- The heap is a single hole, which the index lists and nothing else. -/
def HeapRun.WholeHole (s : HeapRun) : Prop :=
  s.kernel.heap.index.entries s.kernel.mem = [s.kernel.heap.startAddress] ∧
    headerIsHole s.kernel.mem s.kernel.heap.startAddress = 1 ∧
    headerSize s.kernel.mem s.kernel.heap.startAddress =
      s.kernel.heap.endAddress - s.kernel.heap.startAddress

instance (s : HeapRun) : Decidable s.WholeHole := by
  unfold HeapRun.WholeHole
  infer_instance

section Whole

variable {s s' : HeapRun} {cs : List Chunk}

theorem exists_hole_of_no_blocks {a : Nat} (hne : cs ≠ []) (happart : cs.IsChain Separated)
    (hnone : blocks a cs = []) : ∃ t, cs = [⟨t, true⟩] := by
  have hall : ∀ (a : Nat) (cs : List Chunk), blocks a cs = [] → ∀ c ∈ cs, c.hole = true := by
    intro a cs
    induction cs generalizing a with
    | nil => intro _ c hc; simp at hc
    | cons d cs ih =>
        intro hblocks c hc
        rw [blocks_cons, List.append_eq_nil_iff] at hblocks
        rcases List.mem_cons.mp hc with rfl | hc
        · cases hhole : c.hole with
          | true => rfl
          | false => simp [hhole] at hblocks
        · exact ih _ hblocks.2 c hc
  cases cs with
  | nil => exact absurd rfl hne
  | cons c cs =>
      obtain ⟨t, hole⟩ := c
      obtain rfl : hole = true := hall a _ hnone ⟨t, hole⟩ List.mem_cons_self
      cases cs with
      | nil => exact ⟨t, rfl⟩
      | cons d cs =>
          have hd := hall a _ hnone d (by simp)
          have hsep := (List.isChain_cons_cons.mp happart).1 rfl
          rw [hd] at hsep
          simp at hsep

theorem TidyInv.wholeHole (h : TidyInv s cs) (hlive : s.live = []) : s.WholeHole := by
  obtain ⟨hinv, htidy, hheld⟩ := h
  have hwf := hinv.wellFormed
  have htiles := hwf.tiles
  have hfloor := hinv.floor
  have hpos : 0 < heapMinSize := by decide
  have hnone : blocks s.kernel.heap.startAddress cs = [] := by
    rw [List.eq_nil_iff_forall_not_mem]
    intro u hu
    obtain ⟨v, hv, -⟩ := hheld u hu
    simp [hlive] at hv
  obtain ⟨t, rfl⟩ := exists_hole_of_no_blocks
      (by rintro rfl; simp at htiles; omega) htidy.apart hnone
  have hchunk := (chunksAt_cons.mp hwf.chunksAt).1
  have hindex := hwf.index
  simp only [holes_cons, holes_nil, if_true, List.append_nil, List.perm_singleton] at hindex
  simp only [total_cons, total_nil] at htiles
  refine ⟨hindex, hchunk.header.isHole, ?_⟩
  rw [hchunk.header.size]
  simp only
  omega

/-- **When every block is freed** at the end of a run without an expansion, within the guards, the
heap is one hole. -/
theorem wholeHole_of_run (hfresh : Fresh s) (hrun : Run.Reaches Call.step
    (fun c t => c.Good heapGuards t ∧ c.InPlace t) s s') (hlive : s'.live = []) : s'.WholeHole := by
  obtain ⟨cs, hinv⟩ := hfresh.tidyRun hrun
  exact hinv.wholeHole hlive

end Whole

/-- Three blocks, freed in the order of their addresses. -/
def orderedCalls : List Call :=
  [.alloc 1 8 0, .alloc 1 8 0, .alloc 1 8 0, .free 0xC008100C, .free 0xC0081028, .free 0xC0081044]

theorem wholeHole_of_run_orderedCalls :
    ∃ s', Run.Reaches Call.step (fun c t => c.Good heapGuards t ∧ c.InPlace t) bareStart s' ∧
      s'.WholeHole := by
  obtain ⟨t, hrun, hlive⟩ := Run.exists_reaches_of_runAll
    (show (Run.runAll Call.step (fun c t => c.Good heapGuards t ∧ c.InPlace t) orderedCalls
      bareStart).any (fun t => decide (t.live = [])) = true by decide +kernel)
  exact ⟨t, hrun, wholeHole_of_run fresh_bareStart hrun (of_decide_eq_true hlive)⟩

theorem not_wholeHole_of_legal : ¬ ∀ s s', Fresh s →
    Run.Reaches Call.step (fun c t => c.Legal t ∧ c.InPlace t) s s' → s'.live = [] →
      s'.WholeHole := by
  intro hall
  obtain ⟨t, hrun, hcheck⟩ := Run.exists_reaches_of_runAll
    (show (Run.runAll Call.step (fun c t => c.Legal t ∧ c.InPlace t) staleCalls bareStart).any
      (fun t => decide (t.live = [] ∧ ¬ t.WholeHole)) = true by decide +kernel)
  obtain ⟨hlive, hnot⟩ := of_decide_eq_true hcheck
  exact hnot (hall _ _ fresh_bareStart hrun hlive)

end Vulcanos
