import Vulcanos.HeapSafety
import Vulcanos.Proof.IndexOrder

/-!
# The search finds a smallest hole

`find_smallest_hole` takes the first hole that is large enough, which is a smallest one when the
index is sorted. A hole that a merge has enlarged where it was listed breaks the order.
-/

namespace Vulcanos

open Memory KeyOrder

/-- The hole that `find_smallest_hole` returns for a plain request of `size` bytes is in the index,
large enough, and no larger than any other that is. -/
def FindsSmallest (size : Nat) (k : Kernel) : Prop :=
  ∀ it ∈ Kernel.findSmallestHole size 0 k,
    k.heap.index.lookup it k.mem ∈ k.heap.index.entries k.mem ∧
    size ≤ headerSize k.mem (k.heap.index.lookup it k.mem) ∧
    ∀ x ∈ k.heap.index.entries k.mem, size ≤ headerSize k.mem x →
      headerSize k.mem (k.heap.index.lookup it k.mem) ≤ headerSize k.mem x

instance (size : Nat) (k : Kernel) : Decidable (FindsSmallest size k) := by
  unfold FindsSmallest
  infer_instance

/-- The index is sorted by size, and every plain request that does not wrap is served best fit. -/
def HeapRun.BestFit (s : HeapRun) : Prop :=
  SortedIndex s.kernel ∧ ∀ size, size + 20 < 4294967296 → FindsSmallest (size + 20) s.kernel

theorem SortedIndex.findsSmallest {k : Kernel} (h : SortedIndex k) (size : Nat) :
    FindsSmallest size k := by
  intro it hit
  obtain ⟨hlt, hfits, hbefore⟩ := findSmallestHole_spec (Option.mem_def.mp hit)
  rw [holeFits_plain] at hfits
  refine ⟨OrderedArray.lookup_mem hlt, of_decide_eq_true hfits, ?_⟩
  obtain ⟨left, right, hsplit, hlength⟩ := OrderedArray.entries_split k.mem hlt
  unfold SortedIndex at h
  rw [hsplit] at h ⊢
  refine h.first_fit fun y hy => ?_
  -- an entry to the left of slot `it` is in a slot before it
  obtain ⟨j, hj, rfl⟩ := List.mem_iff_getElem.mp hy
  have hslot : k.heap.index.lookup j k.mem = left[j] := by
    have hget : (k.heap.index.entries k.mem)[j]? = some left[j] := by
      rw [hsplit, List.getElem?_append_left hj, List.getElem?_eq_getElem hj]
    have hrange : j < k.heap.index.size := by omega
    simpa [OrderedArray.entries, OrderedArray.lookup, hrange] using hget
  have hnot := hbefore j (by omega)
  rw [holeFits_plain, hslot] at hnot
  exact fun hle => hnot (decide_eq_true hle)

section BestFit

variable {s s' : HeapRun} {cs : List Chunk} {c : Call}

theorem OrderInv.bestFit (h : OrderInv s cs) : s.BestFit :=
  ⟨h.sorted, fun size _ => h.sorted.findsSmallest (size + 20)⟩

/-- **In every run within the order guards** the search is best fit. -/
theorem bestFit_of_run (hfresh : Fresh s)
    (hrun : Run.Reaches Call.step (Call.Good orderGuards) s s') : s'.BestFit := by
  obtain ⟨cs, hinv⟩ := hfresh.orderRun hrun
  exact hinv.bestFit

end BestFit

/-- Holes of several sizes, the last one made by a merge to the left that keeps its place. -/
def fittingCalls : List Call :=
  [.alloc 1 8 0, .alloc 1 8 0, .alloc 1 8 0, .alloc 1 90 0, .alloc 1 8 0, .free 0xC0081060,
    .free 0xC008100C, .free 0xC0081028]

theorem bestFit_of_run_fittingCalls :
    ∃ s', Run.Reaches Call.step (Call.Good orderGuards) bareStart s' ∧
      s'.kernel.heap.index.size = 3 ∧ s'.BestFit := by
  obtain ⟨t, hrun, hsize⟩ := Run.exists_reaches_of_runAll
    (show (Run.runAll Call.step (Call.Good orderGuards) fittingCalls bareStart).any
      (fun t => decide (t.kernel.heap.index.size = 3)) = true by decide +kernel)
  exact ⟨t, hrun, of_decide_eq_true hsize, bestFit_of_run fresh_bareStart hrun⟩

/-- Two holes of 28 and 38 bytes, and the block behind the first is freed: the merged hole of 56
bytes stays listed in front of the other. -/
def outgrownCalls : List Call :=
  [.alloc 1 8 0, .alloc 1 8 0, .alloc 1 8 0, .alloc 1 18 0, .alloc 1 8 0, .free 0xC008100C,
    .free 0xC0081060, .free 0xC0081028]

theorem not_bestFit_of_legal : ¬ ∀ s s', Fresh s →
    Run.Reaches Call.step (fun c t => c.Legal t ∧ c.Plain) s s' → s'.BestFit := by
  intro hall
  obtain ⟨t, hrun, hcheck⟩ := Run.exists_reaches_of_runAll
    (show (Run.runAll Call.step (fun c t => c.Legal t ∧ c.Plain) outgrownCalls bareStart).any
      (fun t => decide (¬ SortedIndex t.kernel ∧ ¬ FindsSmallest 38 t.kernel)) = true by
        decide +kernel)
  obtain ⟨-, hworse⟩ := of_decide_eq_true hcheck
  exact hworse ((hall _ _ fresh_bareStart hrun).2 18 (by decide))

end Vulcanos
