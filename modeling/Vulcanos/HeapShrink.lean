import Vulcanos.HeapAlloc
import Vulcanos.Proof.Merge

/-!
# Freeing the last block

A freed block at the end of the heap gives its pages back: `free` asks `contract` for a heap that
ends where the merged hole begins, and cuts the hole by what it gets. `contract` does not round up
to a page. It keeps one bit of the size or all of it, and raises the result to `HEAP_MIN_SIZE`.
-/

namespace Vulcanos

open Memory Word Layout

/-- No header or footer begins right behind the heap, and none ends right in front of it. -/
def QuietOutside (k : Kernel) : Prop :=
  footerMagic k.mem (sub32 k.heap.startAddress sizeofFooter) ≠ heapMagic ∧
    headerMagic k.mem k.heap.endAddress ≠ heapMagic

instance (k : Kernel) : Decidable (QuietOutside k) := by
  unfold QuietOutside
  infer_instance

/-- Where the hole begins that a block behind the chunks `left` becomes: at the block, or at the
hole in front of it. -/
def mergedStart (a : Nat) (left : List Chunk) : Nat :=
  match left.getLast? with
  | some ⟨t, true⟩ => a + total Chunk.size left - t
  | _ => a + total Chunk.size left

/-! ### Contracting -/

section Contract

variable {k : Kernel} {x : Nat}

/-- From `HEAP_MIN_SIZE` on a size is kept, unless it has the bit of the page size. -/
theorem contractSize_of_ge (hx : heapMinSize ≤ x) :
    Kernel.contractSize x = if x &&& 0x1000 ≠ 0 then heapMinSize else x := by
  unfold Kernel.contractSize
  rcases and_pageBit x with hbit | hbit
  · simp only [hbit, ne_eq, not_true_eq_false, if_false]
    rw [if_neg (by omega)]
  · simp only [hbit]
    rfl

end Contract

/-! ### The footer of a short rest -/

section Footer

variable {m : Mem} {hd r : Nat}

/-- A footer that ends at most 8 bytes into the chunk does not reach the size. -/
theorem headerSize_cut_short (hwide : 8 ≤ hd + r) (hsize : headerSize m hd = r) (hr : r ≤ 8) :
    headerSize (writeFooter m (hd + r - 8) hd) hd = r := by
  have hsame : SameOutside (hd + r - 8) (hd + r) m (writeFooter m (hd + r - 8) hd) :=
    (SameOutside.refl _ _ m).writeFooter (Nat.le_refl _) (by omega)
  have hfield : SameOn (hd + 8) (hd + 12) m (writeFooter m (hd + r - 8) hd) :=
    hsame.sameOn (Or.inr (by omega))
  exact (hfield.read32 (Nat.le_refl _) (Nat.le_refl _)).trans hsize

/-- With 9 to 12 bytes left the high bytes of the footer's address become low bytes of the size. -/
theorem headerSize_cut_address (hhd : hd < 4294967296) (hsize : headerSize m hd = r)
    (hlo : 9 ≤ r) (hhi : r ≤ 12) :
    headerSize (writeFooter m (hd + r - 8) hd) hd = hd / 256 ^ (12 - r) := by
  unfold headerSize at hsize ⊢
  obtain ⟨-, hbyte1, hbyte2, hbyte3⟩ := bytes_of_read32 hsize (by omega)
  have hsame : SameOutside (hd + r - 8) (hd + r) m (writeFooter m (hd + r - 8) hd) :=
    (SameOutside.refl _ _ m).writeFooter (Nat.le_refl _) (by omega)
  have hkept : ∀ x, hd + r ≤ x → writeFooter m (hd + r - 8) hd x = m x :=
    fun x hx => hsame x (Or.inr hx)
  have hlow : ∀ x, hd + 8 ≤ x → x < hd + r →
      (writeFooter m (hd + r - 8) hd x).toNat = hd / 256 ^ (x - (hd + r - 8 + 4)) % 256 :=
    fun x hlo' hhi' => writeFooter_header m (by omega) (by omega)
  generalize writeFooter m (hd + r - 8) hd = w at hkept hlow
  unfold read32
  rw [show hd + 8 + 1 = hd + 9 by omega] at hbyte1 ⊢
  rw [show hd + 8 + 2 = hd + 10 by omega] at hbyte2 ⊢
  rw [show hd + 8 + 3 = hd + 11 by omega] at hbyte3 ⊢
  have hcases : r = 9 ∨ r = 10 ∨ r = 11 ∨ r = 12 := by omega
  rcases hcases with rfl | rfl | rfl | rfl
  · rw [hlow (hd + 8) (by omega) (by omega), hkept (hd + 9) (by omega),
      hkept (hd + 10) (by omega), hkept (hd + 11) (by omega), hbyte1, hbyte2, hbyte3,
      show hd + 8 - (hd + 9 - 8 + 4) = 3 by omega]
    omega
  · rw [hlow (hd + 8) (by omega) (by omega), hlow (hd + 9) (by omega) (by omega),
      hkept (hd + 10) (by omega), hkept (hd + 11) (by omega), hbyte2, hbyte3,
      show hd + 8 - (hd + 10 - 8 + 4) = 2 by omega, show hd + 9 - (hd + 10 - 8 + 4) = 3 by omega]
    omega
  · rw [hlow (hd + 8) (by omega) (by omega), hlow (hd + 9) (by omega) (by omega),
      hlow (hd + 10) (by omega) (by omega), hkept (hd + 11) (by omega), hbyte3,
      show hd + 8 - (hd + 11 - 8 + 4) = 1 by omega, show hd + 9 - (hd + 11 - 8 + 4) = 2 by omega,
      show hd + 10 - (hd + 11 - 8 + 4) = 3 by omega]
    omega
  · rw [hlow (hd + 8) (by omega) (by omega), hlow (hd + 9) (by omega) (by omega),
      hlow (hd + 10) (by omega) (by omega), hlow (hd + 11) (by omega) (by omega),
      show hd + 8 - (hd + 12 - 8 + 4) = 0 by omega, show hd + 9 - (hd + 12 - 8 + 4) = 1 by omega,
      show hd + 10 - (hd + 12 - 8 + 4) = 2 by omega, show hd + 11 - (hd + 12 - 8 + 4) = 3 by omega]
    omega

/-- With 13 to 19 bytes left a byte of `HEAP_MAGIC` stands in the size, and makes it too large. -/
theorem headerSize_cut_magic (hlo : 13 ≤ r) (hhi : r ≤ 19) :
    r < headerSize (writeFooter m (hd + r - 8) hd) hd := by
  have hmagic : ∀ x, hd + r - 8 ≤ x → x < hd + r - 4 →
      (writeFooter m (hd + r - 8) hd x).toNat = heapMagic / 256 ^ (x - (hd + r - 8)) % 256 :=
    fun x hlo' hhi' => writeFooter_magic m hlo' (by omega)
  generalize writeFooter m (hd + r - 8) hd = w at hmagic
  unfold headerSize read32
  by_cases hlow : r ≤ 16
  · -- in the lowest byte
    have hbyte := magic_byte (show hd + 8 - (hd + r - 8) < 4 by omega)
    rw [← hmagic (hd + 8) (by omega) (by omega)] at hbyte
    omega
  · -- the first byte of the footer is in one of the others
    have hfirst : (w (hd + r - 8)).toNat = 171 := by
      rw [hmagic (hd + r - 8) (Nat.le_refl _) (by omega), Nat.sub_self]
      rfl
    have hcases : hd + r - 8 = hd + 8 + 1 ∨ hd + r - 8 = hd + 8 + 2 ∨ hd + r - 8 = hd + 8 + 3 := by
      omega
    rcases hcases with hslot | hslot | hslot <;> rw [hslot] at hfirst <;> omega

/-- What is left of the hole at `hd` when the heap ends at `newEnd`: nothing of the footer that is
written there may lie over the size, unless the address bytes it puts there are small. -/
def CutFits (hd newEnd : Nat) : Prop :=
  hd + 20 ≤ newEnd ∨ (hd < newEnd ∧ newEnd ≤ hd + 8) ∨
    (hd + 9 ≤ newEnd ∧ newEnd ≤ hd + 12 ∧ hd / 256 ^ (hd + 12 - newEnd) ≤ newEnd - hd)

instance (hd newEnd : Nat) : Decidable (CutFits hd newEnd) := by
  unfold CutFits
  infer_instance

/-- The rest of the hole ends with the heap exactly when its footer lets it. -/
theorem cut_inside_iff (hwide : 8 ≤ hd + r) (hlt : hd < 4294967296) (hpos : 0 < r)
    (hsize : headerSize m hd = r) :
    hd + headerSize (writeFooter m (hd + r - 8) hd) hd ≤ hd + r ↔ CutFits hd (hd + r) := by
  unfold CutFits
  by_cases hlong : 20 ≤ r
  · have hsame : SameOutside (hd + r - 8) (hd + r) m (writeFooter m (hd + r - 8) hd) :=
      (SameOutside.refl _ _ m).writeFooter (Nat.le_refl _) (by omega)
    have hfield : SameOn (hd + 8) (hd + 12) m (writeFooter m (hd + r - 8) hd) :=
      hsame.sameOn (Or.inl (by omega))
    have hkept : headerSize (writeFooter m (hd + r - 8) hd) hd = r :=
      (hfield.read32 (Nat.le_refl _) (Nat.le_refl _)).trans hsize
    omega
  · by_cases hshort : r ≤ 8
    · rw [headerSize_cut_short hwide hsize hshort]
      omega
    · by_cases haddress : r ≤ 12
      · rw [headerSize_cut_address hlt hsize (by omega) haddress,
          show hd + 12 - (hd + r) = 12 - r by omega, show hd + r - hd = r by omega]
        omega
      · have hmagic : r < headerSize (writeFooter m (hd + r - 8) hd) hd :=
          headerSize_cut_magic (by omega) (by omega)
        omega

end Footer

/-! ### Freeing the last block -/

/-- The subtraction in which `free` cuts the merged hole stays above zero, and so does the one it
subtracts. -/
def CutWithin (k : Kernel) (head s : Nat) : Prop :=
  ∀ f newLen k2, Kernel.rightUnify
      (Kernel.leftUnify head (head + s - 8) { k with mem := markHole head k.mem }) = .ok f →
    Kernel.contract (sub32 f.head f.kernel.heap.startAddress) f.kernel = .ok (newLen, k2) →
    newLen ≤ sub32 f.kernel.heap.endAddress f.kernel.heap.startAddress ∧
      sub32 f.kernel.heap.endAddress f.kernel.heap.startAddress - newLen ≤ headerSize k2.mem f.head

/-- The heap `k'` after the last block of `k`, of `s` bytes behind the chunks `left`, is freed: the
other blocks end inside it, the cut did not wrap, and every entry of the index lies inside. -/
structure FreedLast (k : Kernel) (left : List Chunk) (s : Nat) (k' : Kernel) : Prop where
  live : ∀ u ∈ blocks k.heap.startAddress left, u.1 + u.2 ≤ k'.heap.endAddress
  noWrap : CutWithin k (k.heap.startAddress + total Chunk.size left) s
  listed : ∀ x ∈ k'.heap.index.entries k'.mem,
    k'.heap.startAddress ≤ x ∧ x + headerSize k'.mem x ≤ k'.heap.endAddress

section Last

variable {k k1 k2 : Kernel} {left left' lh : List Chunk} {s hd n x testHead : Nat}

theorem findEntry_found {it : Nat} (hit : Kernel.findEntry hd k n it < it + n) :
    k.heap.index.lookup (Kernel.findEntry hd k n it) k.mem = hd := by
  induction n generalizing it with
  | zero =>
      rw [Kernel.findEntry] at hit
      omega
  | succ n ih =>
      rw [Kernel.findEntry] at hit ⊢
      split
      · rename_i hne
        rw [if_pos hne] at hit
        exact ih (by omega)
      · rename_i heq
        exact not_not.mp heq

theorem findEntry_absent (habsent : hd ∉ k.heap.index.entries k.mem) :
    ¬ Kernel.findEntry hd k k.heap.index.size 0 < k.heap.index.size := by
  intro hit
  apply habsent
  have hfound : k.heap.index.lookup (Kernel.findEntry hd k k.heap.index.size 0) k.mem = hd :=
    findEntry_found (by rwa [Nat.zero_add])
  rw [← hfound]
  exact OrderedArray.lookup_mem hit

theorem Tiled.entry_before_last (h : Tiled k (left ++ lh ++ [⟨s, false⟩]))
    (hlh : lh = [] ∨ ∃ t, lh = [⟨t, true⟩]) (hx : x ∈ k.heap.index.entries k.mem) :
    (x = k.heap.startAddress + total Chunk.size left ∧ lh ≠ []) ∨
      x + headerSize k.mem x ≤ k.heap.startAddress + total Chunk.size left := by
  have htiles := h.tiles
  obtain ⟨-, hhi, hmin⟩ := h.entry_bounds hx
  have hlast := h.entry_apart hx (h.entry_ne_block hx)
  simp only [total_append, total_cons, total_nil] at htiles hlast
  rcases hlh with rfl | ⟨t, rfl⟩
  · simp only [total_nil] at htiles hlast
    omega
  · by_cases hhole : x = k.heap.startAddress + total Chunk.size left
    · exact Or.inl ⟨hhole, by simp⟩
    · have hsplit : Tiled k (left ++ ⟨t, true⟩ :: [⟨s, false⟩]) := by simpa using h
      have hapart := hsplit.entry_apart hx hhole
      simp only [total_cons, total_nil] at htiles hlast hapart
      omega

theorem LeftUnified.mergedStart_eq (hleft : LeftUnified k left s left' lh k1) :
    mergedStart k.heap.startAddress left = k.heap.startAddress + total Chunk.size left' := by
  obtain ⟨rfl, hhole, halone, -, -⟩ := hleft
  unfold mergedStart
  rcases hhole with rfl | ⟨t, rfl⟩
  · have hlast := halone rfl
    split
    · rename_i t hsome
      exact absurd (hlast _ hsome) (by simp)
    · rw [List.append_nil]
  · simp only [List.getLast?_append, List.getLast?_singleton, Option.some_or, total_append,
      total_cons, total_nil]
    omega

theorem LeftUnified.rightUnify_last (h : Tiled k (left ++ [⟨s, false⟩])) (hquiet : QuietOutside k)
    (hleft : LeftUnified k left s left' lh k1) :
    Kernel.rightUnify (Kernel.leftUnify (k.heap.startAddress + total Chunk.size left)
        (k.heap.startAddress + total Chunk.size left + s - 8)
        { k with mem := markHole (k.heap.startAddress + total Chunk.size left) k.mem }) =
      .ok ⟨k.heap.startAddress + total Chunk.size left',
        k.heap.startAddress + total Chunk.size left' + (total Chunk.size lh + s) - 8,
        sub32 (k.heap.startAddress + total Chunk.size left) sizeofFooter, decide (lh = []),
        k1⟩ := by
  have hlt := h.end_lt
  have htiles := h.tiles
  have hmin := h.minSize ⟨s, false⟩ (by simp)
  have hsplit := congrArg (total Chunk.size) hleft.split
  simp only [total_append, total_cons, total_nil] at htiles hmin hsplit
  have hend : k.heap.startAddress + total Chunk.size left' + (total Chunk.size lh + s) =
      k.heap.endAddress := by omega
  rw [hleft.call]
  apply rightUnify_not (by omega) (by omega)
  rintro ⟨hmagic, -⟩
  have hsame := hleft.joined.same
  rw [hend] at hsame hmagic
  apply hquiet.2
  rw [← hmagic]
  have hword : SameOn k.heap.endAddress (k.heap.endAddress + 4) k.mem k1.mem :=
    hsame.sameOn (Or.inr (Nat.le_refl _))
  exact (hword.read32 (Nat.le_refl _) (Nat.le_refl _)).symm

/-- The cut stays within its bounds when the length that `contract` keeps does. -/
theorem LeftUnified.cutWithin_iff (h : Tiled k (left ++ [⟨s, false⟩])) (hquiet : QuietOutside k)
    (hleft : LeftUnified k left s left' lh k1) :
    CutWithin k (k.heap.startAddress + total Chunk.size left) s ↔
      Kernel.contractSize (total Chunk.size left') ≤
          k.heap.endAddress - k.heap.startAddress ∧
        k.heap.endAddress - k.heap.startAddress - Kernel.contractSize (total Chunk.size left') ≤
          total Chunk.size lh + s := by
  have hlt := h.end_lt
  have htiles := h.tiles
  have hmin := h.minSize ⟨s, false⟩ (by simp)
  have hsplit := congrArg (total Chunk.size) hleft.split
  simp only [total_append, total_cons, total_nil] at htiles hmin hsplit
  obtain ⟨hheap, hheader, -, -⟩ := hleft.joined
  have hlen : sub32 k1.heap.endAddress k1.heap.startAddress =
      k.heap.endAddress - k.heap.startAddress := by
    rw [hheap, sub32_eq (by omega) hlt]
  have hoffset : sub32 (k.heap.startAddress + total Chunk.size left') k1.heap.startAddress =
      total Chunk.size left' := by
    rw [hheap, sub32_eq (by omega) (by omega)]
    omega
  obtain ⟨k2, hcontract, hmem2, -⟩ :=
    contract_returns (k := k1) (total Chunk.size left') (by omega)
  unfold CutWithin
  constructor
  · intro hcut
    have hcut' := hcut _ _ k2 (hleft.rightUnify_last h hquiet) (by rw [hoffset]; exact hcontract)
    simp only [hlen, hmem2, hheader.size] at hcut'
    exact hcut'
  · rintro ⟨hle, hcut⟩ f newLen k2' hf hcontract'
    rw [hleft.rightUnify_last h hquiet] at hf
    obtain rfl := Except.ok.inj hf
    simp only [hoffset] at hcontract'
    rw [hcontract] at hcontract'
    obtain ⟨rfl, rfl⟩ := Prod.mk.inj (Except.ok.inj hcontract')
    simp only [hlen, hmem2, hheader.size]
    exact ⟨hle, hcut⟩

/-- What listing the merged hole leaves, when the chunks' bytes and the end may have changed. -/
theorem finish_last (h : Tiled k (left ++ lh ++ [⟨s, false⟩]))
    (hlh : lh = [] ∨ ∃ t, lh = [⟨t, true⟩]) {newEnd : Nat}
    (hheap : k2.heap = { k.heap with endAddress := newEnd })
    (hsame : SameOutside k.heap.startAddress k.heap.endAddress k.mem k2.mem)
    (hhd : hd = k.heap.startAddress + total Chunk.size left) :
    (finishFree lh hd k2).heap.startAddress = k.heap.startAddress ∧
      (finishFree lh hd k2).heap.endAddress = newEnd ∧
      (∀ x, x ∈ (finishFree lh hd k2).heap.index.entries (finishFree lh hd k2).mem ↔
        x = hd ∨ x ∈ k.heap.index.entries k.mem) ∧
      SameOn (k.heap.startAddress + 4) k.heap.endAddress k2.mem (finishFree lh hd k2).mem := by
  have hlt := h.end_lt
  have htiles := h.tiles
  have hapart := h.apart
  have hmin := h.minSize ⟨s, false⟩ (by simp)
  simp only [total_append, total_cons, total_nil] at htiles hmin
  have hentries : k2.heap.index.entries k2.mem = k.heap.index.entries k.mem := by
    rw [hheap]
    exact h.entries_eq hsame
  obtain ⟨index, hfinish⟩ := finishFree_heap lh hd k2
  refine ⟨by rw [hfinish, hheap], by rw [hfinish, hheap], ?_, ?_⟩
  · intro x
    unfold finishFree
    split
    · rw [(perm_insertHole hd k2 (by omega)).mem_iff, hentries, List.mem_cons]
    · rename_i hne
      obtain ⟨t, rfl⟩ := hlh.resolve_left hne
      rw [hentries]
      refine ⟨Or.inr, ?_⟩
      rintro (rfl | hx)
      · rw [h.index.mem_iff, mem_holes_iff, hhd]
        exact ⟨left, t, [⟨s, false⟩], by simp, rfl⟩
      · exact hx
  · unfold finishFree
    split
    · have hinsert := insertHole_sameOutside hd k2
      rw [hheap] at hinsert
      exact hinsert.sameOn (by simp only; omega)
    · exact fun _ _ _ => rfl

/-- Freeing the last block: the merged hole keeps `r` bytes in front of the new end, or none. -/
theorem LeftUnified.free_last (h : Tiled k (left ++ [⟨s, false⟩])) (hquiet : QuietOutside k)
    (hleft : LeftUnified k left s left' lh k1) :
    ∃ k2, k2.mem = k1.mem ∧
      k2.heap = { k.heap with
        endAddress := add32 k.heap.startAddress (Kernel.contractSize (total Chunk.size left')) } ∧
      ∀ hd r, hd = k.heap.startAddress + total Chunk.size left' →
        r = sub32 (total Chunk.size lh + s) (sub32 (k.heap.endAddress - k.heap.startAddress)
          (Kernel.contractSize (total Chunk.size left'))) →
        Kernel.free (k.heap.startAddress + total Chunk.size left + 12) k =
          .ok (finishFree lh hd
            (if r > 0 then
              { k2 with
                mem := writeFooter (write32 k1.mem (hd + 8) r) (sub32 (add32 hd r) sizeofFooter)
                  hd }
            else if Kernel.findEntry k.heap.endAddress k2 k2.heap.index.size 0 <
                k2.heap.index.size then
              Kernel.removeHole (Kernel.findEntry k.heap.endAddress k2 k2.heap.index.size 0) k2
            else k2)) := by
  have hsteps := free_steps h rfl
  have hlt := h.end_lt
  have htiles := h.tiles
  have hmin := h.minSize ⟨s, false⟩ (by simp)
  have hsplit := congrArg (total Chunk.size) hleft.split
  simp only [total_append, total_cons, total_nil] at htiles hmin hsplit
  have hheap := hleft.joined.heap
  obtain ⟨k2, hmem2, hheap2, hcontract⟩ := contractHeap_last hleft.joined.header
    (by rw [hheap]; omega) (by rw [hheap]; omega) (by omega) (by rw [hheap]; exact hlt)
    (sub32 (k.heap.startAddress + total Chunk.size left) sizeofFooter) (decide (lh = []))
  rw [hheap, Nat.add_sub_cancel_left] at hheap2 hcontract
  refine ⟨k2, hmem2, hheap2, fun hd r hhd hr => ?_⟩
  subst hhd
  -- the header that is looked up behind the footer would lie at the end of the heap
  have htest : add32 (k.heap.startAddress + total Chunk.size left' + (total Chunk.size lh + s) - 8)
      sizeofFooter = k.heap.endAddress := by
    unfold sizeofFooter
    rw [add32_eq (by omega)]
    omega
  have hsize : headerSize (write32 k1.mem (k.heap.startAddress + total Chunk.size left' + 8) r)
      (k.heap.startAddress + total Chunk.size left') = r :=
    read32_write32_self _ _ (hr ▸ sub32_lt _ _)
  rw [hleft.rightUnify_last h hquiet, ok_bind, hleft.call] at hsteps
  simp only [htest] at hsteps
  rw [hcontract k.heap.endAddress r hr, hsize] at hsteps
  rw [hsteps]
  unfold finishFree
  split <;> simp only [ok_bind, decide_eq_true_eq]

/-- A call that contracts below `HEAP_MIN_SIZE` stores the size of the rest and a footer for it. -/
theorem free_cut_steps {hd r : Nat} (h : Tiled k (left ++ [⟨s, false⟩])) (hquiet : QuietOutside k)
    (hleft : LeftUnified k left s left' lh k1)
    (hfloor : k.heap.startAddress + heapMinSize ≤ k.heap.endAddress)
    (hbelow : total Chunk.size left' < heapMinSize)
    (hhd : hd = k.heap.startAddress + total Chunk.size left')
    (hr : r = heapMinSize - total Chunk.size left') :
    ∃ k3, Kernel.free (k.heap.startAddress + total Chunk.size left + 12) k =
        .ok (finishFree lh hd k3) ∧
      k3.mem = writeFooter (write32 k1.mem (hd + 8) r) (hd + r - 8) hd ∧
      k3.heap = { k.heap with endAddress := k.heap.startAddress + heapMinSize } := by
  obtain ⟨k2, -, hheap2, hfree⟩ := hleft.free_last h hquiet
  have hlt := h.end_lt
  have htiles := h.tiles
  have hsplit := congrArg (total Chunk.size) hleft.split
  simp only [total_append, total_cons, total_nil] at htiles hsplit
  rw [contractSize_eq hbelow] at hheap2 hfree
  have hdrop : sub32 (k.heap.endAddress - k.heap.startAddress) heapMinSize =
      k.heap.endAddress - k.heap.startAddress - heapMinSize := sub32_eq (by omega) (by omega)
  have hrest : r = sub32 (total Chunk.size lh + s)
      (sub32 (k.heap.endAddress - k.heap.startAddress) heapMinSize) := by
    rw [hdrop, sub32_eq (by omega) (by omega)]
    omega
  have hfoot : sub32 (add32 hd r) sizeofFooter = hd + r - 8 := by
    have hwide : 8 ≤ hd + r := by
      unfold heapMinSize at hr hbelow
      omega
    unfold sizeofFooter
    rw [add32_eq (by omega), sub32_eq hwide (by omega)]
  have hfreed := hfree hd r hhd hrest
  rw [if_pos (by omega), hfoot] at hfreed
  refine ⟨_, hfreed, rfl, ?_⟩
  rw [withMem_heap, hheap2, add32_eq (by omega)]

/-- A hole that begins below `HEAP_MIN_SIZE` is cut to what is left in front of the new end. -/
theorem free_cuts (h : Tiled k (left ++ [⟨s, false⟩])) (hquiet : QuietOutside k)
    (hleft : LeftUnified k left s left' lh k1)
    (hfloor : k.heap.startAddress + heapMinSize ≤ k.heap.endAddress)
    (hbelow : total Chunk.size left' < heapMinSize) :
    ∃ k' m, Kernel.free (k.heap.startAddress + total Chunk.size left + 12) k = .ok k' ∧
      k'.heap.startAddress = k.heap.startAddress ∧
      k'.heap.endAddress = k.heap.startAddress + heapMinSize ∧
      (∀ x, x ∈ k'.heap.index.entries k'.mem ↔
        x = k.heap.startAddress + total Chunk.size left' ∨ x ∈ k.heap.index.entries k.mem) ∧
      (∀ x ∈ k.heap.index.entries k.mem, x ≠ k.heap.startAddress + total Chunk.size left' →
        headerSize k'.mem x = headerSize k.mem x) ∧
      headerSize m (k.heap.startAddress + total Chunk.size left') =
        heapMinSize - total Chunk.size left' ∧
      headerSize k'.mem (k.heap.startAddress + total Chunk.size left') =
        headerSize (writeFooter m (k.heap.startAddress + total Chunk.size left' +
          (heapMinSize - total Chunk.size left') - 8)
            (k.heap.startAddress + total Chunk.size left'))
          (k.heap.startAddress + total Chunk.size left') := by
  obtain ⟨hd, hhd⟩ : ∃ hd, hd = k.heap.startAddress + total Chunk.size left' := ⟨_, rfl⟩
  obtain ⟨r, hr⟩ : ∃ r, r = heapMinSize - total Chunk.size left' := ⟨_, rfl⟩
  obtain ⟨k3, hfree, hmem3, hheap3⟩ := free_cut_steps h hquiet hleft hfloor hbelow hhd hr
  have hlt := h.end_lt
  have htiles := h.tiles
  have hmins := h.minSize ⟨s, false⟩ (by simp)
  obtain rfl := hleft.split
  have hentryMin : left' ≠ [] → 20 ≤ total Chunk.size left' := by
    intro hne
    obtain ⟨c, rest, rfl⟩ := List.exists_cons_of_ne_nil hne
    have hc := h.minSize c (by simp)
    rw [total_cons]
    omega
  simp only [total_append, total_cons, total_nil] at htiles hmins
  rw [← hhd, ← hr]
  have hwide : k.heap.startAddress + 8 ≤ hd + r := by
    unfold heapMinSize at hr hbelow
    omega
  obtain ⟨m, hm⟩ : ∃ m, m = write32 k1.mem (hd + 8) r := ⟨_, rfl⟩
  have hsizem : headerSize m hd = r := by
    rw [hm]
    exact read32_write32_self _ _ (by omega)
  rw [← hm] at hmem3
  -- what changed lies at the merged hole, and at most 7 bytes before it
  have hsame1 : SameOutside hd k.heap.endAddress k.mem k1.mem :=
    hleft.joined.same.mono (by omega) (by omega)
  have hsamem : SameOutside hd k.heap.endAddress k.mem m := by
    rw [hm]
    exact hsame1.write32 (by omega) (by omega)
  have hsame2 : SameOutside (hd + r - 8) (hd + r) m k3.mem := by
    rw [hmem3]
    exact (SameOutside.refl _ _ m).writeFooter (Nat.le_refl _) (by omega)
  have hwrites : ∀ lo, k.heap.startAddress ≤ lo → lo ≤ hd → lo + 8 ≤ hd + r →
      SameOutside lo k.heap.endAddress k.mem k3.mem := fun lo _ hlo hlo' =>
    (hsamem.mono hlo (Nat.le_refl _)).trans (hsame2.mono (by omega) (by omega))
  obtain ⟨hstart', hend', hmem', hkept⟩ := finish_last h hleft.hole hheap3
    (hwrites k.heap.startAddress (Nat.le_refl _) (by omega) hwide) hhd
  refine ⟨finishFree lh hd k3, m, hfree, hstart', hend', hmem', ?_, hsizem, ?_⟩
  · intro x hx hne
    obtain ⟨hlo, hhi, hminx⟩ := h.entry_bounds hx
    rcases h.entry_before_last hleft.hole hx with ⟨heq, -⟩ | hbefore
    · exact absurd (heq.trans hhd.symm) hne
    · -- a hole in front of it is a chunk, so its header is out of reach
      have hnear : left' ≠ [] := by
        rintro rfl
        simp only [total_nil, Nat.add_zero] at hbefore
        omega
      have hfar := hentryMin hnear
      have hword : SameOn (x + 8) (x + 12) k.mem k3.mem := by
        refine (hwrites (hd - 8) (by omega) (by omega) (by omega)).sameOn (Or.inl ?_)
        omega
      exact ((hword.trans (hkept.mono (by omega) (by omega))).read32 (Nat.le_refl _)
        (Nat.le_refl _))
  · rw [← hmem3]
    exact hkept.read32 (by omega) (by omega)

/-- A hole that begins at `HEAP_MIN_SIZE` or behind it, where `contract` keeps the length, stays
listed behind the new end. -/
theorem free_keeps (h : Tiled k (left ++ [⟨s, false⟩])) (hquiet : QuietOutside k)
    (hleft : LeftUnified k left s left' lh k1)
    (hkeep : Kernel.contractSize (total Chunk.size left') = total Chunk.size left') :
    ∃ k', Kernel.free (k.heap.startAddress + total Chunk.size left + 12) k = .ok k' ∧
      k'.heap.endAddress = k.heap.startAddress + total Chunk.size left' ∧
      k.heap.startAddress + total Chunk.size left' ∈ k'.heap.index.entries k'.mem ∧
      headerSize k'.mem (k.heap.startAddress + total Chunk.size left') =
        total Chunk.size lh + s := by
  obtain ⟨k2, hmem2, hheap2, hfree⟩ := hleft.free_last h hquiet
  have hlt := h.end_lt
  have htiles := h.tiles
  have hmins := h.minSize ⟨s, false⟩ (by simp)
  obtain rfl := hleft.split
  simp only [total_append, total_cons, total_nil] at htiles hmins
  rw [hkeep] at hheap2 hfree
  obtain ⟨hd, hhd⟩ : ∃ hd, hd = k.heap.startAddress + total Chunk.size left' := ⟨_, rfl⟩
  have hjoined := hleft.joined
  rw [← hhd] at hjoined ⊢
  have hrest : 0 = sub32 (total Chunk.size lh + s)
      (sub32 (k.heap.endAddress - k.heap.startAddress) (total Chunk.size left')) := by
    rw [sub32_eq (show total Chunk.size left' ≤ k.heap.endAddress - k.heap.startAddress by omega)
      (by omega), sub32_eq (by omega) (by omega)]
    omega
  have hfreed := hfree hd 0 hhd hrest
  have hsame : SameOutside k.heap.startAddress k.heap.endAddress k.mem k2.mem := by
    rw [hmem2]
    exact hjoined.same.mono (by omega) (by omega)
  rw [add32_eq (by omega), ← hhd] at hheap2
  -- no entry is the end of the heap, so the index stays as it is
  have habsent : k.heap.endAddress ∉ k2.heap.index.entries k2.mem := by
    rw [hheap2]
    simp only
    rw [h.entries_eq hsame]
    intro hmem
    obtain ⟨-, hhi, hmin⟩ := h.entry_bounds hmem
    omega
  rw [if_neg (Nat.lt_irrefl 0), if_neg (findEntry_absent habsent)] at hfreed
  obtain ⟨-, hend', hmem', hkept⟩ := finish_last h hleft.hole hheap2 hsame hhd
  refine ⟨finishFree lh hd k2, hfreed, hend', (hmem' hd).mpr (Or.inl rfl), ?_⟩
  have hword : headerSize (finishFree lh hd k2).mem hd = headerSize k2.mem hd :=
    hkept.read32 (by omega) (by omega)
  rw [hword, hmem2]
  exact hjoined.header.size

theorem free_last_returns (h : Tiled k (left ++ [⟨s, false⟩])) (hquiet : QuietOutside k)
    (hleft : LeftUnified k left s left' lh k1) :
    ∃ k', Kernel.free (k.heap.startAddress + total Chunk.size left + 12) k = .ok k' := by
  obtain ⟨k2, -, -, hfree⟩ := hleft.free_last h hquiet
  exact ⟨_, hfree _ _ rfl rfl⟩

/-- **Freeing the last block** gives its pages back as it should exactly when the merged hole leaves
room for its footer in front of `HEAP_MIN_SIZE`. -/
theorem free_last_iff (h : Tiled k (left ++ [⟨s, false⟩])) (hfeet : Footed k (left ++ [⟨s, false⟩]))
    (hquiet : QuietOutside k) (hfloor : k.heap.startAddress + heapMinSize ≤ k.heap.endAddress) :
    ∃ k', Kernel.free (k.heap.startAddress + total Chunk.size left + 12) k = .ok k' ∧
      (FreedLast k left s k' ↔
        CutFits (mergedStart k.heap.startAddress left) (k.heap.startAddress + heapMinSize)) := by
  obtain ⟨left', lh, k1, hleft⟩ := leftUnified h (fun _ => not_unifiesFront hquiet.1)
    fun _ _ hsplit => hfeet.inFront hsplit
  rw [hleft.mergedStart_eq]
  have hlt := h.end_lt
  have htiles := h.tiles
  have hmins := h.minSize ⟨s, false⟩ (by simp)
  have hwithin := hleft.cutWithin_iff h hquiet
  obtain rfl := hleft.split
  simp only [total_append, total_cons, total_nil] at htiles hmins
  obtain ⟨hd, hhd⟩ : ∃ hd, hd = k.heap.startAddress + total Chunk.size left' := ⟨_, rfl⟩
  rw [← hhd]
  by_cases hbelow : total Chunk.size left' < heapMinSize
  · obtain ⟨k', m, hfree, hstart', hend', hentries, hothers, hsizem, hcut⟩ :=
      free_cuts h hquiet hleft hfloor hbelow
    rw [← hhd] at hentries hothers hsizem hcut
    have hr : k.heap.startAddress + heapMinSize = hd + (heapMinSize - total Chunk.size left') := by
      omega
    have hwide : 8 ≤ hd + (heapMinSize - total Chunk.size left') := by
      rw [← hr]
      unfold heapMinSize
      omega
    have hiff := cut_inside_iff hwide (by omega) (by omega) hsizem
    rw [← hcut, ← hr] at hiff
    refine ⟨k', hfree, ?_⟩
    constructor
    · intro hfreed
      have hinside := (hfreed.listed hd ((hentries hd).mpr (Or.inl rfl))).2
      rw [hend'] at hinside
      exact hiff.mp hinside
    · intro hfits
      refine ⟨?_, ?_, ?_⟩
      · rintro ⟨a, b⟩ hblock
        have hnone : ∀ a, blocks a lh = [] := by
          intro a
          rcases hleft.hole with rfl | ⟨t, rfl⟩ <;> simp
        rw [blocks_append, hnone, List.append_nil] at hblock
        obtain ⟨l, r, rfl, rfl⟩ := mem_blocks_iff.mp hblock
        simp only [total_append, total_cons] at hhd hr
        rw [hend']
        simp only
        omega
      · rw [hwithin, contractSize_eq hbelow]
        omega
      · intro x hx
        rw [hstart', hend']
        rcases (hentries x).mp hx with rfl | hx
        · exact ⟨by omega, hiff.mpr hfits⟩
        · by_cases hne : x = hd
          · rw [hne]
            exact ⟨by omega, hiff.mpr hfits⟩
          · obtain ⟨hlo, -, -⟩ := h.entry_bounds hx
            rw [hothers x hx hne]
            rcases h.entry_before_last hleft.hole hx with ⟨heq, -⟩ | hbefore
            · exact absurd (heq.trans hhd.symm) hne
            · omega
  · have hnot : ¬ CutFits hd (k.heap.startAddress + heapMinSize) := by
      unfold CutFits
      omega
    rcases and_pageBit (total Chunk.size left') with hbit | hbit
    · have hkeep : Kernel.contractSize (total Chunk.size left') = total Chunk.size left' := by
        rw [contractSize_of_ge (by omega), hbit]
        rfl
      obtain ⟨k', hfree, hend', hlisted, hsize⟩ := free_keeps h hquiet hleft hkeep
      refine ⟨k', hfree, fun hfreed => ?_, fun hfits => absurd hfits hnot⟩
      have hinside := (hfreed.listed _ hlisted).2
      rw [hend', hsize] at hinside
      omega
    · obtain ⟨k', hfree⟩ := free_last_returns h hquiet hleft
      refine ⟨k', hfree, fun hfreed => ?_, fun hfits => absurd hfits hnot⟩
      have hcut := hwithin.mp hfreed.noWrap
      have hne : total Chunk.size left' ≠ heapMinSize := by
        intro heq
        rw [heq] at hbit
        exact absurd hbit (by decide)
      rw [contractSize_of_ge (by omega), hbit, if_pos (by decide)] at hcut
      omega

end Last

/-! ### A heap whose last block begins at the minimum size -/

/-- Two blocks, of `HEAP_MIN_SIZE` bytes and of a page. -/
def twoBlocksMem : Mem :=
  writeFooter (writeHeader
    (writeFooter (writeHeader (fun _ => 0) 0xC0081000 0 0x70000) 0xC00F0FF8 0xC0081000)
    0xC00F1000 0 0x1000) 0xC00F1FF8 0xC00F1000

def twoBlocksKernel : Kernel :=
  { bareKernel with
    mem := twoBlocksMem
    kheap := 0x200000
    heap := ⟨⟨0xC0000000, 0, 0x20000⟩, 0xC0081000, 0xC00F2000, 0xCFFFF000, 0, 0⟩ }

theorem twoBlocksKernel_tiled :
    Tiled twoBlocksKernel ([⟨0x70000, false⟩] ++ [⟨0x1000, false⟩]) where
  end_lt := by decide
  tiles := by decide
  chunksAt := by
    refine chunksAt_cons.mpr ⟨⟨by decide, ?_, ?_⟩, chunksAt_cons.mpr ⟨⟨by decide, ?_, ?_⟩,
      chunksAt_nil⟩⟩
    · exact ⟨by decide +kernel, by decide +kernel, by decide +kernel⟩
    · exact fun _ => ⟨by decide +kernel, by decide +kernel⟩
    · exact ⟨by decide +kernel, by decide +kernel, by decide +kernel⟩
    · exact fun _ => ⟨by decide +kernel, by decide +kernel⟩
  index := by
    have hentries : twoBlocksKernel.heap.index.entries twoBlocksKernel.mem = [] := rfl
    rw [hentries]
    simp
  apart := Or.inl (by decide)

theorem twoBlocksKernel_footed :
    Footed twoBlocksKernel ([⟨0x70000, false⟩] ++ [⟨0x1000, false⟩]) := by
  intro u hu
  simp only [List.singleton_append, layout_cons, layout_nil, List.mem_cons, List.not_mem_nil,
    or_false] at hu
  rcases hu with rfl | rfl
  · exact ⟨by decide +kernel, by decide +kernel⟩
  · exact ⟨by decide +kernel, by decide +kernel⟩

theorem free_last_iff_twoBlocksKernel :
    ∃ k', Kernel.free (twoBlocksKernel.heap.startAddress +
        total Chunk.size [⟨0x70000, false⟩] + 12) twoBlocksKernel = .ok k' ∧
      (FreedLast twoBlocksKernel [⟨0x70000, false⟩] 0x1000 k' ↔
        CutFits (mergedStart twoBlocksKernel.heap.startAddress [⟨0x70000, false⟩])
          (twoBlocksKernel.heap.startAddress + heapMinSize)) :=
  free_last_iff twoBlocksKernel_tiled twoBlocksKernel_footed (by decide +kernel) (by decide)

/-- The freed block stays listed, all of it behind the new end of the heap. -/
theorem not_freedLast : ¬ ∀ k left s, Tiled k (left ++ [⟨s, false⟩]) →
    Footed k (left ++ [⟨s, false⟩]) → QuietOutside k → k.heap.startAddress % 0x1000 = 0 →
    k.heap.endAddress % 0x1000 = 0 →
    k.heap.startAddress + heapMinSize ≤ k.heap.endAddress →
    ∃ k', Kernel.free (k.heap.startAddress + total Chunk.size left + 12) k = .ok k' ∧
      FreedLast k left s k' := by
  intro hall
  have hquiet : QuietOutside twoBlocksKernel := by decide +kernel
  obtain ⟨k', hfree, hfreed⟩ := hall _ _ _ twoBlocksKernel_tiled twoBlocksKernel_footed hquiet
    (by decide) (by decide) (by decide)
  obtain ⟨left', lh, k1, hleft⟩ := leftUnified twoBlocksKernel_tiled (by simp)
    fun _ _ hsplit => twoBlocksKernel_footed.inFront hsplit
  have hsplit := hleft.split
  rcases hleft.hole with rfl | ⟨t, rfl⟩
  · rw [List.append_nil] at hsplit
    subst hsplit
    obtain ⟨k'', hfree', hend, hlisted, hsize⟩ :=
      free_keeps twoBlocksKernel_tiled hquiet hleft (by decide)
    obtain rfl := Except.ok.inj (hfree.symm.trans hfree')
    have hinside := (hfreed.listed _ hlisted).2
    rw [hend, hsize, total_nil] at hinside
    omega
  · have hlast := congrArg List.getLast? hsplit
    simp at hlast

end Vulcanos
