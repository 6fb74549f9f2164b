import Vulcanos.HeapAlign
import Vulcanos.HeapGrowth

/-!
# Page-aligned pointers

`kmalloc_a` and `kmalloc_ap` rely on `alloc` for page boundaries: page tables and the directory go
there. The boundary comes from the address of the hole alone, so it does not matter whether the hole
fits, or how often the heap is expanded before one is found, as long as every entry of the index is
an address from the second page on.
-/

namespace Vulcanos

open Memory Word

/-- The page loop of `expand` finds every page table it needs. -/
def TablesAhead (newSize : Nat) : Nat → Nat → Kernel → Prop
  | 0, _, _ => True
  | n + 1, it, k => it < newSize →
      Kernel.lookupPage (add32 k.heap.startAddress it) k ≠ 0 ∧
        TablesAhead newSize n (add32 it 0x1000) k

instance TablesAhead.decidable (newSize : Nat) :
    ∀ n it k, Decidable (TablesAhead newSize n it k)
  | 0, _, _ => .isTrue trivial
  | n + 1, it, k =>
    have := TablesAhead.decidable newSize n (add32 it 0x1000) k
    inferInstanceAs (Decidable (_ < _ → _ ≠ 0 ∧ _))

/-- Expansions find their page tables, and behind each of them, before the new bytes are added to a
hole, `P` holds of the length that the heap had and of the kernel. -/
def ExpandsWith (P : Nat → Kernel → Prop) : Nat → Nat → Kernel → Prop
  | 0, _, _ => True
  | fuel + 1, size, k =>
      Kernel.findSmallestHole (size + 20) 1 k = none →
        let oldLen := sub32 k.heap.endAddress k.heap.startAddress
        TablesAhead (expandedSize size k) (expandedSize size k / 0x1000 + 1) oldLen k ∧
        ∀ k1, Kernel.expand (Kernel.alloc fuel) (add32 oldLen (size + 20)) k = .ok k1 →
          P oldLen k1 ∧ ExpandsWith P fuel size (Kernel.growHoles oldLen k.heap.endAddress k1)

instance ExpandsWith.decidable (P : Nat → Kernel → Prop) [∀ oldLen k, Decidable (P oldLen k)] :
    ∀ fuel size k, Decidable (ExpandsWith P fuel size k)
  | 0, _, _ => .isTrue trivial
  | fuel + 1, size, _ =>
    have := ExpandsWith.decidable P fuel size
    inferInstanceAs (Decidable (_ = none → _ ∧ ∀ k1, _ = Except.ok k1 → _ ∧ _))

/-- The size field and the footer of the hole that takes the new bytes keep out of the index. -/
def GrowsOutside (oldLen : Nat) (k : Kernel) : Prop :=
  ∀ idx, Kernel.highestHole k k.heap.index.size 0 none 0 = some idx →
    let head := k.heap.index.lookup idx k.mem
    let newLen := sub32 k.heap.endAddress k.heap.startAddress
    let foot := sub32 (add32 head (add32 (headerSize k.mem head)
        (sub32 newLen oldLen))) sizeofFooter
    let storageEnd := k.heap.index.array + 4 * k.heap.index.size
    (head + 12 ≤ k.heap.index.array ∨ storageEnd ≤ head + 8) ∧
      (foot + 8 ≤ k.heap.index.array ∨ storageEnd ≤ foot)

instance (oldLen : Nat) (k : Kernel) : Decidable (GrowsOutside oldLen k) :=
  inferInstanceAs (Decidable (∀ idx, _ = some idx → (_ ∨ _) ∧ (_ ∨ _)))

/-- Every entry is an address from the second page on; while there is none, the end of the heap is.
-/
structure OffFirstPage (k : Kernel) : Prop where
  entries : ∀ x ∈ k.heap.index.entries k.mem, 0x1000 ≤ x
  endAddr : k.heap.index.size = 0 → 0x1000 ≤ k.heap.endAddress ∧ k.heap.endAddress < 4294967296

section Align

variable {alloc : Kernel.Allocator} {k k1 k' : Kernel} {size n newSize it oldLen oldEnd : Nat}

/-- **Growing the holes** leaves no entry in the first page. -/
theorem OffFirstPage.growHoles (h : OffFirstPage k) (hmem : k1.mem = k.mem)
    (hindex : k1.heap.index = k.heap.index) (hgrows : GrowsOutside oldLen k1) :
    OffFirstPage (Kernel.growHoles oldLen k.heap.endAddress k1) := by
  have hentries : ∀ x ∈ k1.heap.index.entries k1.mem, 0x1000 ≤ x := by
    rw [hmem, hindex]
    exact h.entries
  have hspec := highestHole_spec k1 k1.heap.index.size 0 none 0 (by simp)
  unfold Kernel.growHoles
  cases hhighest : Kernel.highestHole k1 k1.heap.index.size 0 none 0 with
  | none =>
      -- no entry is 0, so there is none, and the old end becomes the first
      have hsize : k1.heap.index.size = 0 := by
        rcases hspec with ⟨-, hlow⟩ | ⟨i, hi, -⟩
        · by_contra hne
          have hzero := hlow 0 (Nat.le_refl 0) (by omega)
          have hpage := hentries _ (OrderedArray.lookup_mem (Nat.pos_of_ne_zero hne))
          omega
        · rw [hhighest] at hi
          simp at hi
      obtain ⟨hend, hlt⟩ := h.endAddr (by rw [← hindex]; exact hsize)
      dsimp only
      generalize writeFooter (writeHeader k1.mem k.heap.endAddress 1 _) _ _ = m
      refine ⟨fun x hx => ?_, fun hzero => ?_⟩
      · have hperm := perm_insertHole k.heap.endAddress { k1 with mem := m } hlt
        have hempty : k1.heap.index.entries m = [] :=
          List.eq_nil_of_length_eq_zero (by rw [OrderedArray.length_entries, hsize])
        simp only [hempty] at hperm
        rw [List.mem_singleton.mp (hperm.mem_iff.mp hx)]
        exact hend
      · rw [insertHole_heap] at hzero
        simp at hzero
  | some idx =>
      obtain ⟨hfield, hfoot⟩ := hgrows idx hhighest
      dsimp only at hfield hfoot ⊢
      generalize k1.heap.index.lookup idx k1.mem = head at hfield hfoot ⊢
      generalize add32 (headerSize k1.mem head) _ = size at hfoot ⊢
      generalize sub32 (add32 head size) sizeofFooter = foot at hfoot ⊢
      have hsame1 : SameOutside (head + 8) (head + 12) k1.mem (write32 k1.mem (head + 8) size) :=
        (SameOutside.refl _ _ _).write32 (Nat.le_refl _) (by omega)
      have hsame2 : SameOutside foot (foot + 8) (write32 k1.mem (head + 8) size)
          (writeFooter (write32 k1.mem (head + 8) size) foot head) :=
        (SameOutside.refl _ _ _).writeFooter (Nat.le_refl _) (by omega)
      have hkept := OrderedArray.entries_congr
        ((hsame1.sameOn hfield.symm).trans (hsame2.sameOn hfoot.symm))
      refine ⟨fun x hx => hentries x ?_, fun hzero => ?_⟩
      · rw [← hkept]
        exact hx
      · -- the scan found an entry
        rcases hspec with ⟨hnone, -⟩ | ⟨i, hi, -, hlt, -⟩
        · rw [hhighest] at hnone
          simp at hnone
        · simp only at hzero
          omega

end Align

end Vulcanos
