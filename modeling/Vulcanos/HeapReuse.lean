import Vulcanos.HeapAlign
import Vulcanos.Proof.Merge

/-!
# Freeing and allocating again

The boot code frees a block and asks for a smaller one, and expects to get the same address. So it
is for any heap, since the hole comes back with the size it had, in front of the holes of that size,
and is again the first of the index that fits.
-/

namespace Vulcanos

open Memory Word Layout

section Search

variable {k : Kernel} {left right : List Nat} {n x : Nat}

theorem lookup_of_entries {a : OrderedArray} {m : Mem} (hsplit : a.entries m = left ++ x :: right) :
    left.length < a.size ∧ a.lookup left.length m = x ∧
      ∀ j < left.length, a.lookup j m ∈ left := by
  have hlength := congrArg List.length hsplit
  rw [OrderedArray.length_entries, List.length_append, List.length_cons] at hlength
  have hget : ∀ j < a.size, (left ++ x :: right)[j]? = some (a.lookup j m) := by
    intro j hj
    rw [← hsplit]
    simp [OrderedArray.entries, OrderedArray.lookup, hj]
  refine ⟨by omega, ?_, fun j hj => ?_⟩
  · have hhere := hget left.length (by omega)
    rw [List.getElem?_append_right (Nat.le_refl _), Nat.sub_self] at hhere
    exact (Option.some.inj hhere).symm
  · have hthere := hget j (by omega)
    rw [List.getElem?_append_left hj] at hthere
    exact List.mem_of_getElem? hthere

theorem findSmallestHole_of_entries (hsplit : k.heap.index.entries k.mem = left ++ x :: right)
    (hleft : ∀ y ∈ left, headerSize k.mem y < n) (hx : n ≤ headerSize k.mem x) :
    ∃ it, Kernel.findSmallestHole n 0 k = some it ∧ k.heap.index.lookup it k.mem = x := by
  obtain ⟨hlt, hlookup, hbefore⟩ := lookup_of_entries hsplit
  have hfits : Kernel.holeFits n 0 k.mem (k.heap.index.lookup left.length k.mem) := by
    rw [holeFits_plain, hlookup]
    exact decide_eq_true hx
  cases hfind : Kernel.findSmallestHole n 0 k with
  | none => exact absurd hfits (findSmallestHole_none hfind _ hlt)
  | some it =>
      obtain ⟨-, hhere, hnot⟩ := findSmallestHole_spec hfind
      refine ⟨it, rfl, ?_⟩
      rcases Nat.lt_trichotomy it left.length with hless | rfl | hmore
      · have hsmall := hleft _ (hbefore it hless)
        rw [holeFits_plain, decide_eq_true_eq] at hhere
        omega
      · exact hlookup
      · exact absurd hfits (hnot _ hmore)

theorem alloc_at (fuel : Nat) {size it : Nat} (hsize : size + 20 < 4294967296)
    (hfind : Kernel.findSmallestHole (size + 20) 0 k = some it) :
    ∃ k', Kernel.alloc (fuel + 1) size 0 k =
      .ok (add32 (k.heap.index.lookup it k.mem) sizeofHeader, k') := by
  rw [alloc_of_find fuel hsize hfind, carveBlock_plain_eq rfl rfl]
  exact ⟨_, by rw [← writeBlock_fst]⟩

end Search

/-! ### The hole that comes back -/

section Reuse

variable {k k1 : Kernel} {cs left right : List Chunk} {s t b p w : Nat}

/-- In front of the hole that a request was served from stands no hole. -/
theorem Intact.block_in_front (h : Intact k (left ++ [⟨w, true⟩] ++ right)) :
    (∀ c ∈ left.getLast?, c.hole = false) ∧ ∀ c ∈ right.head?, c.hole = false := by
  have hchain := h.apart
  rw [List.append_assoc, List.isChain_append] at hchain
  obtain ⟨-, hrest, hfront⟩ := hchain
  rw [List.singleton_append, List.isChain_cons] at hrest
  refine ⟨fun c hc => ?_, fun c hc => hrest.1 c hc rfl⟩
  by_contra hhole
  have hnext := hfront c hc ⟨w, true⟩ (by simp) (by simpa using hhole)
  simp at hnext

/-- **Freeing the block again** brings the hole back as it was, listed in front of those of its
size. -/
theorem ServedPlain.free_back (h : Intact k cs) (hserved : ServedPlain k cs s left w right b p k1)
    (hword : footerMagic k1.mem (sub32 k1.heap.startAddress sizeofFooter) ≠ heapMagic)
    (hinside : p - 12 + b ≠ k1.heap.endAddress) :
    ∃ k2 l r, Kernel.free p k1 = .ok k2 ∧ k2.heap.startAddress = k.heap.startAddress ∧
      Tiled k2 cs ∧ k2.heap.index.entries k2.mem = l ++ (p - 12) :: r ∧
      ∀ x ∈ l, headerSize k2.mem x < w := by
  obtain ⟨rfl, rfl, -, -, hle, -, -, -, hstart, hend, hintact⟩ := hserved
  obtain ⟨hfrontBlock, hbehindBlock⟩ := h.block_in_front
  rw [Nat.add_sub_cancel] at hinside ⊢
  -- what the block left of the hole is the hole behind it
  obtain ⟨rh, hrh⟩ : ∃ rh, rh = if w = b then [] else [(⟨w - b, true⟩ : Chunk)] := ⟨_, rfl⟩
  have hchunks : left ++ blockChunks b w ++ right = left ++ [] ++ ⟨b, false⟩ :: (rh ++ right) := by
    rw [hrh]
    unfold blockChunks
    split <;> simp
  have hrhTotal : total Chunk.size rh = w - b := by
    rw [hrh]
    split
    · rename_i heq
      rw [total_nil, heq, Nat.sub_self]
    · simp
  have htiled : Tiled k1 (left ++ [] ++ ⟨b, false⟩ :: (rh ++ right)) := by
    rw [← hchunks]
    exact hintact.toSound.tiled
  have hnext : Neighbours left [] rh right := by
    refine ⟨Or.inl ⟨rfl, hfrontBlock⟩, ?_⟩
    rw [hrh]
    split
    · exact Or.inl ⟨rfl, hbehindBlock⟩
    · exact Or.inr ⟨_, rfl⟩
  have htiles := htiled.tiles
  have hlt := htiled.end_lt
  have hmin := htiled.minSize ⟨b, false⟩ (by simp)
  simp only [total_append, total_cons, total_nil, Nat.add_zero, hrhTotal] at htiles hmin
  have hrest : rh ++ right ≠ [] := by
    intro hempty
    obtain ⟨rfl, rfl⟩ := List.append_eq_nil_iff.mp hempty
    simp only [total_nil] at htiles hrhTotal
    omega
  obtain ⟨left', lh', rh', right', k2, hrel⟩ := free_releases htiled hrest
    (fun _ => not_unifiesFront hword) (by
      rintro init t hinit
      rw [List.append_nil] at hinit
      simp [hinit] at hfrontBlock)
  obtain ⟨rfl, rfl, rfl, rfl⟩ := hrel.neighbours hnext
  have hcall := hrel.call
  have hgathered := hrel.gathered
  have hslot : ([] : List Chunk) = [] → rh' = [] → SlotFree k1 :=
    fun _ _ => hintact.toSound.slotFree
  have hback := hgathered.tiled htiled hslot
  have hkept := hgathered.finish_sameOn htiled hslot
  have hheader := hgathered.header.size
  rw [List.append_nil, hstart] at hcall
  simp only [total_nil, Nat.zero_add, hrhTotal, Nat.add_sub_cancel' hle, hstart]
    at hheader hback hkept
  obtain ⟨hd, hhd⟩ : ∃ hd, hd = k.heap.startAddress + total Chunk.size left' := ⟨_, rfl⟩
  rw [← hhd] at hcall hheader hback hkept ⊢
  have hfinish : finishFree [] hd k2 = Kernel.insertHole hd k2 := if_pos rfl
  rw [hfinish] at hcall hback hkept
  obtain ⟨l, r, hsplit, hinsert, hbefore, -⟩ := OrderedArray.entries_insert
    (Kernel.headerTLessThan k2.mem) k2.heap.index k2.mem (show hd < 4294967296 by omega)
  have hentries : (Kernel.insertHole hd k2).heap.index.entries (Kernel.insertHole hd k2).mem =
      l ++ hd :: r := hinsert
  refine ⟨Kernel.insertHole hd k2, l, r, hcall, ?_, by simpa using hback, hentries, ?_⟩
  · rw [insertHole_heap, hgathered.heap]
    exact hstart
  · intro x hx
    obtain ⟨hlo, hhi, hminx⟩ := hback.entry_bounds (x := x) (by rw [hentries]; simp [hx])
    have hbounds : k.heap.startAddress ≤ x ∧ x + 12 ≤ k1.heap.endAddress := by
      rw [insertHole_heap, hgathered.heap] at hlo hhi
      simp only [hstart] at hlo hhi
      omega
    have hsame : headerSize (Kernel.insertHole hd k2).mem x = headerSize k2.mem x :=
      hkept.read32 (by omega) (by omega)
    have hless : headerSize k2.mem x < headerSize k2.mem hd := of_decide_eq_true (hbefore x hx)
    omega

/-- **Free and allocate again.** When a plain request was served from a hole, its block is not at
the end of the heap, and no other hole has a size between the two requests', freeing it and asking
for as much or less gives the same address. The word in front of the heap must not be `HEAP_MAGIC`
at that point. -/
theorem alloc_free_alloc (fuel fuel' : Nat) (h : Intact k cs) (hts : t ≤ s)
    (hsize : s + 20 < 4294967296) (hfits : SomeHoleFits (s + 20) cs)
    (halloc : Kernel.alloc (fuel + 1) s 0 k = .ok (p, k1))
    (hword : footerMagic k1.mem (sub32 k1.heap.startAddress sizeofFooter) ≠ heapMagic)
    (hinside : p - 12 + headerSize k1.mem (p - 12) ≠ k1.heap.endAddress)
    (hothers : ∀ u ∈ layout Chunk.size k.heap.startAddress cs, u.2.hole = true → u.1 ≠ p - 12 →
      ¬ (t + 20 ≤ u.2.size ∧ u.2.size < s + 20)) :
    ∃ k2 k3, Kernel.free p k1 = .ok k2 ∧ Kernel.alloc (fuel' + 1) t 0 k2 = .ok (p, k3) := by
  obtain ⟨left, w, right, b, p', k1', halloc', hserved⟩ := h.alloc_served fuel hsize hfits
  rw [halloc] at halloc'
  obtain ⟨rfl, rfl⟩ := Prod.mk.inj (Except.ok.inj halloc')
  rw [hserved.block.header.size] at hinside
  obtain ⟨k2, l, r, hfree, hstart, htiled, hentries, hless⟩ := hserved.free_back h hword hinside
  have hroom := hserved.room
  have hle := hserved.inside
  have haddress := hserved.address
  have hcs : cs = left ++ ⟨w, true⟩ :: right := by simpa using hserved.hole
  have hend : p < 4294967296 := by
    have hsplit : Tiled k (left ++ ⟨w, true⟩ :: right) := hcs ▸ h.toSound.tiled
    have hle' := hsplit.chunk_end_le
    have hlt := hsplit.end_lt
    simp only at hle'
    omega
  have hback : headerSize k2.mem (p - 12) = w := by
    have hsplit : Tiled k2 (left ++ ⟨w, true⟩ :: right) := hcs ▸ htiled
    have hheader := hsplit.chunkAt.header.size
    rw [hstart] at hheader
    rwa [haddress, Nat.add_sub_cancel]
  have hsmall : ∀ x ∈ l, headerSize k2.mem x < t + 20 := by
    intro x hx
    have hlessx := hless x hx
    obtain ⟨left', right', hcs', hxaddr⟩ :=
      htiled.hole_of_mem_entries (x := x) (by rw [hentries]; simp [hx])
    rw [hstart] at hxaddr
    have hne : x ≠ p - 12 := by
      rintro rfl
      omega
    -- it is a hole of the heap from the start: too small for `s`, so too small for `t`
    have hnot := hothers (x, ⟨headerSize k2.mem x, true⟩)
      ((mem_layout_iff Chunk.size).mpr ⟨left', right', hcs', hxaddr⟩) rfl hne
    have hbest := hserved.smallest ⟨headerSize k2.mem x, true⟩ (by rw [hcs']; simp) rfl
    simp only at hnot hbest
    omega
  obtain ⟨it, hfind, hlookup⟩ := findSmallestHole_of_entries (n := t + 20) hentries hsmall
    (by omega)
  obtain ⟨k3, hagain⟩ := alloc_at fuel' (by omega) hfind
  refine ⟨k2, k3, hfree, ?_⟩
  rw [hagain, hlookup]
  unfold sizeofHeader
  rw [add32_eq (by omega), Nat.sub_add_cancel (by omega)]

end Reuse

/-- Among holes of other sizes, with 30 bytes and then 25. -/
theorem alloc_free_alloc_mixedHeap : ∃ p k1, Kernel.alloc 1 30 0 mixedHeap.kernel = .ok (p, k1) ∧
    ∃ k2 k3, Kernel.free p k1 = .ok k2 ∧ Kernel.alloc 1 25 0 k2 = .ok (p, k3) := by
  have hcheck : (Kernel.alloc 1 30 0 mixedHeap.kernel).toOption.any (fun r =>
      decide (footerMagic r.2.mem (sub32 r.2.heap.startAddress sizeofFooter) ≠ heapMagic ∧
        r.1 - 12 + headerSize r.2.mem (r.1 - 12) ≠ r.2.heap.endAddress ∧
        ∀ u ∈ layout Chunk.size mixedHeap.kernel.heap.startAddress mixedChunks,
          u.2.hole = true → u.1 ≠ r.1 - 12 → ¬ (25 + 20 ≤ u.2.size ∧ u.2.size < 30 + 20))) =
      true := by
    decide +kernel
  obtain ⟨⟨p, k1⟩, halloc, hcheck⟩ := (Option.any_eq_true _ _).mp hcheck
  rw [Run.toOption_eq_some] at halloc
  obtain ⟨hword, hinside, hothers⟩ := of_decide_eq_true hcheck
  exact ⟨p, k1, halloc, alloc_free_alloc 0 0 mixedHeap_intact (by decide) (by decide) (by decide)
    halloc hword hinside hothers⟩

/-! ### An index right in front of the heap -/

/-- One hole, and an index of two slots whose last byte is the last one before the heap. The second
slot still has an entry that was taken out. -/
def nearIndexMem : Mem :=
  write32 (write32
    (writeFooter (writeHeader (fun _ => 0) 0x12389000 1 0x1000) 0x12389FF8 0x12389000)
    0x12388FF8 0x12389000) 0x12388FFC 0x12389000

def nearIndexKernel : Kernel :=
  { bareKernel with
    mem := nearIndexMem
    kheap := 0x200000
    heap := ⟨⟨0x12388FF8, 1, 2⟩, 0x12389000, 0x1238A000, 0x1238A000, 0, 0⟩ }

theorem nearIndexKernel_intact : Intact nearIndexKernel [⟨0x1000, true⟩] where
  end_lt := by decide
  tiles := by decide
  chunksAt := by
    refine chunksAt_cons.mpr ⟨⟨by decide, ?_, by simp⟩, chunksAt_nil⟩
    exact ⟨by decide +kernel, by decide +kernel, by decide +kernel⟩
  index := by
    have hentries : nearIndexKernel.heap.index.entries nearIndexKernel.mem = [0x12389000] := by
      decide +kernel
    rw [hentries]
    decide
  spare := by decide
  outside := Or.inl (by decide)
  footers := by
    intro u hu _ hne
    simp only [layout_cons, layout_nil, List.mem_singleton] at hu
    rw [hu] at hne
    exact absurd (by decide) hne
  apart := by simp
  sorted := by decide +kernel

/-- The hole behind a block of 171 bytes begins at the address `HEAP_MAGIC`. Listed in the first
slot, that address looks like a footer in front of the heap. -/
theorem not_alloc_free_alloc : ¬ ∀ k cs s t fuel fuel' p k1, Intact k cs → t ≤ s →
    s + 20 < 4294967296 → SomeHoleFits (s + 20) cs →
    footerMagic k.mem (sub32 k.heap.startAddress sizeofFooter) ≠ heapMagic →
    Kernel.alloc (fuel + 1) s 0 k = .ok (p, k1) →
    p - 12 + headerSize k1.mem (p - 12) ≠ k1.heap.endAddress →
    (∀ u ∈ layout Chunk.size k.heap.startAddress cs, u.2.hole = true → u.1 ≠ p - 12 →
      ¬ (t + 20 ≤ u.2.size ∧ u.2.size < s + 20)) →
    ∃ k2 k3, Kernel.free p k1 = .ok k2 ∧ Kernel.alloc (fuel' + 1) t 0 k2 = .ok (p, k3) := by
  intro hall
  have hfind : Kernel.findSmallestHole (151 + 20) 0 nearIndexKernel = some 0 := by decide +kernel
  have halloc := alloc_of_find 0 (by decide) hfind
  have hp : (Kernel.carveBlock 0 151 (151 + 20) 0 nearIndexKernel).1 - 12 =
      nearIndexKernel.heap.startAddress := by decide +kernel
  have hinside : (Kernel.carveBlock 0 151 (151 + 20) 0 nearIndexKernel).1 - 12 +
      headerSize (Kernel.carveBlock 0 151 (151 + 20) 0 nearIndexKernel).2.mem
        ((Kernel.carveBlock 0 151 (151 + 20) 0 nearIndexKernel).1 - 12) ≠
      (Kernel.carveBlock 0 151 (151 + 20) 0 nearIndexKernel).2.heap.endAddress := by decide +kernel
  have hfails : (Kernel.free (Kernel.carveBlock 0 151 (151 + 20) 0 nearIndexKernel).1
      (Kernel.carveBlock 0 151 (151 + 20) 0 nearIndexKernel).2 >>= Kernel.alloc 2 8 0).isOk =
        false := by decide +kernel
  obtain ⟨p, k1, hcarve⟩ : ∃ p k1, Kernel.carveBlock 0 151 (151 + 20) 0 nearIndexKernel = (p, k1) :=
    ⟨_, _, rfl⟩
  rw [hcarve] at halloc hp hinside hfails
  obtain ⟨k2, k3, hfree, hagain⟩ := hall nearIndexKernel _ 151 8 0 1 p k1 nearIndexKernel_intact
    (by decide) (by decide) (by decide) (by decide +kernel) halloc hinside (by
      rintro u hu - hne
      rw [layout_cons, layout_nil, List.mem_singleton] at hu
      rw [hp, hu] at hne
      exact absurd rfl hne)
  rw [hfree, ok_bind, hagain] at hfails
  simp [Except.isOk, Except.toBool] at hfails

end Vulcanos
