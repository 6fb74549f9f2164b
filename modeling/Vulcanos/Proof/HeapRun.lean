import Vulcanos.HeapSystem
import Vulcanos.Proof.Alloc
import Vulcanos.Proof.Free

/-!
# Runs of the heap

What one call preserves, and from it what a run preserves: the heap stays well formed, and each
block a caller holds is a block of the heap, with room for what was asked for.
-/

namespace Vulcanos

open Memory Word Layout

/-! ### The heap at first -/

section Fresh

variable {k : Kernel}

/-- The heap of `create_heap` before its one hole is listed. -/
def unlistedHeap (k : Kernel) : Kernel :=
  { k with
    placementAddr := add32 k.placementAddr sizeofHeap
    heap := ⟨⟨kheapStart, 0, heapIndexSize⟩, 0xC0081000, 0xC0100000, 0xCFFFF000, 0, 0⟩
    mem := writeHeader (memset kheapStart 0 (4 * heapIndexSize) k.mem) 0xC0081000 1 0x7F000 }

theorem createKernelHeap_eq (hkheap : k.kheap = 0) : Kernel.createKernelHeap k =
    .ok { Kernel.insertHole 0xC0081000 (unlistedHeap k) with kheap := k.placementAddr } := by
  have hnext : Kernel.nextPage (add32 kheapStart (4 * heapIndexSize)) = 0xC0081000 := by decide
  have hend : kheapStart + kheapInitialSize = 0xC0100000 := by decide
  have hsize : sub32 0xC0100000 0xC0081000 = 0x7F000 := by decide
  have hplace : OrderedArray.place kheapStart heapIndexSize k.mem =
      (⟨kheapStart, 0, heapIndexSize⟩, memset kheapStart 0 (4 * heapIndexSize) k.mem) := rfl
  unfold Kernel.createKernelHeap Kernel.createHeap Kernel.kmalloc Kernel.kmallocInt
  simp only [hkheap, ne_eq, not_true_eq_false, if_false, ok_bind, zero_ne_one]
  rw [assertThat_of _ (show kheapStart % 0x1000 = 0 by decide),
    assertThat_of _ (show (kheapStart + kheapInitialSize) % 0x1000 = 0 by decide)]
  simp only [ok_bind, hplace, hnext, hend, hsize]
  rfl

/-- **`create_heap`** leaves one hole, from the first page behind the index to the end. -/
theorem createKernelHeap_spec (hkheap : k.kheap = 0) :
    ∃ k', Kernel.createKernelHeap k = .ok k' ∧ WellFormed k' [⟨0x7F000, true⟩] ∧
      k'.heap.startAddress = 0xC0081000 ∧ k'.heap.endAddress = 0xC0100000 := by
  have hheap : (Kernel.insertHole 0xC0081000 (unlistedHeap k)).heap =
      ⟨⟨kheapStart, 1, heapIndexSize⟩, 0xC0081000, 0xC0100000, 0xCFFFF000, 0, 0⟩ :=
    insertHole_heap 0xC0081000 (unlistedHeap k)
  have hperm := perm_insertHole 0xC0081000 (unlistedHeap k) (by decide)
  have hsame := insertHole_sameOutside 0xC0081000 (unlistedHeap k)
  have hentries : (unlistedHeap k).heap.index.entries (unlistedHeap k).mem = [] := rfl
  have hindex : (unlistedHeap k).heap.index = ⟨kheapStart, 0, heapIndexSize⟩ := rfl
  have hheader : HeaderAt (unlistedHeap k).mem 0xC0081000 true 0x7F000 :=
    headerAt_writeHeader _ _ true (by decide)
  rw [hindex] at hsame
  rw [hentries, hheap] at hperm
  have hheader' : HeaderAt (Kernel.insertHole 0xC0081000 (unlistedHeap k)).mem 0xC0081000 true
      0x7F000 := hheader.frame (hsame.sameOn (Or.inr (by decide)))
  refine ⟨_, createKernelHeap_eq hkheap, ?_, by simp only [hheap], by simp only [hheap]⟩
  refine ⟨?_, ?_, ?_, ?_, ?_, ?_⟩ <;> simp only [hheap]
  · decide
  · decide
  · simp
  · rw [chunksAt_cons]
    exact ⟨⟨by decide, hheader', fun hcon => by simp at hcon⟩, chunksAt_nil⟩
  · simpa using hperm
  · decide

end Fresh

/-! ### What a run keeps -/

/-- The heap is well formed, is never shorter than `HEAP_MIN_SIZE`, and every held pointer is that
of a block of its own with room for the request. -/
structure HeapInv (s : HeapRun) (cs : List Chunk) : Prop where
  wellFormed : WellFormed s.kernel cs
  floor : s.kernel.heap.startAddress + heapMinSize ≤ s.kernel.heap.endAddress
  live : ∀ u ∈ s.live, ∃ head b, u.1 = head + 12 ∧ u.2 + 20 ≤ b ∧
    (head, b) ∈ blocks s.kernel.heap.startAddress cs
  nodup : (s.live.map Prod.fst).Nodup

/-- The call stays within the guards. -/
def Call.Ok (G : Guards) : Call → HeapRun → Prop
  | alloc fuel size pageAlign, s => AllocOk G fuel size pageAlign s.kernel
  | free p, s => G.free (p - 12) s.kernel
  | store _ _, _ => True

section Step

variable {s s' : HeapRun} {cs : List Chunk} {k : Kernel} {size p a v : Nat}

theorem Fresh.inv (h : Fresh s) : HeapInv s [⟨0x7F000, true⟩] := by
  obtain ⟨k, hkheap, hcreate, hlive⟩ := h
  obtain ⟨k', hcreate', hwf, hstart, hend⟩ := createKernelHeap_spec hkheap
  obtain rfl : k' = s.kernel := Except.ok.inj (hcreate'.symm.trans hcreate)
  refine ⟨hwf, ?_, by simp [hlive], by simp [hlive]⟩
  rw [hstart, hend]
  decide

theorem HeapInv.serve {cs' : List Chunk} {head b : Nat} {new : List (Nat × Nat)} (h : HeapInv s cs)
    (hserves : Serves s.kernel cs k cs' ((head, b) :: new)) (hb : size + 20 ≤ b) :
    HeapInv ⟨k, (head + 12, size) :: s.live⟩ cs' := by
  refine ⟨hserves.wellFormed, ?_, ?_, ?_⟩
  · have hfloor := h.floor
    have hend := hserves.endAddr
    rw [hserves.start]
    exact hfloor.trans hend
  · intro u hu
    rw [hserves.start]
    rcases List.mem_cons.mp hu with rfl | hu
    · exact ⟨head, b, rfl, hb, hserves.blocks.mem_iff.mpr (by simp)⟩
    · obtain ⟨head', b', hp', hb', hmem⟩ := h.live u hu
      exact ⟨head', b', hp', hb',
        hserves.blocks.mem_iff.mpr (List.mem_append_right _ hmem)⟩
  · -- the block is new, so its pointer is
    have hnodup : ((blocks s.kernel.heap.startAddress cs').map Prod.fst).Nodup :=
      nodup_blocks_fst hserves.wellFormed.minSize
    rw [(hserves.blocks.map Prod.fst).nodup_iff] at hnodup
    simp only [List.cons_append, List.map_cons, List.map_append, List.nodup_cons,
      List.mem_append] at hnodup
    rw [List.map_cons, List.nodup_cons]
    refine ⟨fun hmem => ?_, h.nodup⟩
    obtain ⟨u, hu, hup⟩ := List.mem_map.mp hmem
    obtain ⟨head', b', hp', -, hmem'⟩ := h.live u hu
    obtain rfl : head' = head := by omega
    exact hnodup.1 (Or.inr (List.mem_map.mpr ⟨_, hmem', rfl⟩))

theorem HeapInv.release {cs' : List Chunk} {head b : Nat} (h : HeapInv s cs)
    (hfrees : Frees s.kernel cs head b k cs') :
    HeapInv ⟨k, s.live.filter fun u => u.1 ≠ head + 12⟩ cs' := by
  refine ⟨hfrees.wellFormed, ?_, ?_, ?_⟩
  · rw [hfrees.start]
    exact hfrees.floor
  · intro v hv
    obtain ⟨hv, hne⟩ := List.mem_filter.mp hv
    obtain ⟨head', b', hp', hb', hmem'⟩ := h.live v hv
    rw [hfrees.start]
    refine ⟨head', b', hp', hb', ?_⟩
    rcases List.mem_cons.mp (hfrees.blocks.mem_iff.mp hmem') with heq | hmem'
    · obtain ⟨rfl, -⟩ := Prod.mk.inj heq
      simp [hp'] at hne
    · exact hmem'
  · exact h.nodup.sublist (List.filter_sublist.map Prod.fst)

/-- A store into a block's payload touches no header and no footer. -/
theorem WellFormed.store {x t : Nat} (h : WellFormed k cs)
    (hblock : (x, t) ∈ blocks k.heap.startAddress cs) (hlo : x + 12 ≤ a) (hhi : a + 8 < x + t) :
    WellFormed { k with mem := write8 k.mem a v } cs := by
  have hsame : SameOutside a (a + 1) k.mem (write8 k.mem a v) :=
    (SameOutside.refl _ _ _).write8 (Nat.le_refl _) (by omega)
  obtain ⟨left, right, hcs, hx⟩ := mem_blocks_iff.mp hblock
  refine ⟨h.start_ge, h.end_lt, h.tiles, ?_, ?_, h.room⟩
  · intro u hu
    have hchunk := h.chunksAt u hu
    have hmem := (mem_layout_iff Chunk.size).mpr
      ⟨left, right, hcs, (rfl : (k.heap.startAddress + total Chunk.size left, Chunk.mk t false).1 =
          _)⟩
    rcases apart_of_mem_layout hu hmem with rfl | hapart
    · -- the block itself: the store is between its header and its footer
      rw [← hx] at hchunk ⊢
      exact ⟨hchunk.minSize, hchunk.header.frame (hsame.sameOn (Or.inl hlo)), fun hb =>
        (hchunk.footer hb).frame (hsame.sameOn (Or.inr (by simp only; omega)))⟩
    · simp only at hapart
      exact hchunk.frame (hsame.sameOn (by omega))
  · have hroom := h.room
    have hentries : k.heap.index.entries (write8 k.mem a v) = k.heap.index.entries k.mem :=
      OrderedArray.entries_congr (hsame.sameOn (Or.inl (by omega)))
    simp only [hentries]
    exact h.index

theorem HeapInv.store (h : HeapInv s cs) (hlegal : ∃ u ∈ s.live, u.1 ≤ a ∧ a < u.1 + u.2) :
    HeapInv { s with kernel := { s.kernel with mem := write8 s.kernel.mem a v } } cs := by
  obtain ⟨u, hu, hlo, hhi⟩ := hlegal
  obtain ⟨head, b, hp, hb, hmem⟩ := h.live u hu
  exact ⟨h.wellFormed.store hmem (by omega) (by omega), h.floor, h.live, h.nodup⟩

theorem HeapInv.block_of_live (h : HeapInv s cs) (hlive : ∃ u ∈ s.live, u.1 = p) :
    ∃ head b, p = head + 12 ∧ (head, b) ∈ blocks s.kernel.heap.startAddress cs := by
  obtain ⟨u, hu, rfl⟩ := hlive
  obtain ⟨head, b, hp, -, hmem⟩ := h.live u hu
  exact ⟨head, b, hp, hmem⟩

theorem HeapInv.free_returns {head b : Nat} (h : HeapInv s cs)
    (hmem : (head, b) ∈ blocks s.kernel.heap.startAddress cs)
    (hok : FreeOk (head + 12 - 12) s.kernel) :
    ∃ k cs', Kernel.free (head + 12) s.kernel = .ok k ∧ Frees s.kernel cs head b k cs' :=
  free_frees h.wellFormed hmem h.floor (by rwa [Nat.add_sub_cancel] at hok)

/-- **One call** within the guards keeps the invariant. -/
theorem HeapInv.step {c : Call} (h : HeapInv s cs) (hlegal : c.Legal s) (hok : c.Ok heapGuards s)
    (hstep : c.step s = .ok s') : ∃ cs', HeapInv s' cs' := by
  cases c with
  | alloc fuel size pageAlign =>
      simp only [Call.step, bind_eq_ok, Except.ok.injEq] at hstep
      obtain ⟨⟨p, k⟩, halloc, rfl⟩ := hstep
      obtain ⟨cs', head, b, new, rfl, hb, hserves⟩ := alloc_serves h.wellFormed hlegal hok halloc
      exact ⟨cs', h.serve hserves hb⟩
  | free p =>
      obtain ⟨head, b, rfl, hmem⟩ := h.block_of_live hlegal
      obtain ⟨k, cs', hfree, hfrees⟩ := h.free_returns hmem hok
      simp only [Call.step, hfree, ok_bind, Except.ok.injEq] at hstep
      subst hstep
      exact ⟨cs', h.release hfrees⟩
  | store a v =>
      obtain rfl := Except.ok.inj hstep
      exact ⟨cs, h.store hlegal⟩

/-- The calls of a run that are correct and within the guards. -/
def Call.Good (G : Guards) (c : Call) (s : HeapRun) : Prop := c.Legal s ∧ c.Ok G s

instance (G : Guards) [G.Checked] (c : Call) (s : HeapRun) : Decidable (c.Ok G s) :=
  match c with
  | .alloc fuel size pageAlign =>
      inferInstanceAs (Decidable (AllocOk G fuel size pageAlign s.kernel))
  | .free p => inferInstanceAs (Decidable (G.free (p - 12) s.kernel))
  | .store _ _ => .isTrue trivial

instance (G : Guards) [G.Checked] (c : Call) (s : HeapRun) : Decidable (c.Good G s) :=
  inferInstanceAs (Decidable (_ ∧ _))

/-- **Every run** within the guards keeps the invariant. -/
theorem Fresh.run (hfresh : Fresh s) (hrun : Run.Reaches Call.step (Call.Good heapGuards) s s') :
    ∃ cs, HeapInv s' cs :=
  hrun.invariant (fun t => ∃ cs, HeapInv t cs) ⟨_, hfresh.inv⟩
    fun _ _ _ ⟨_, hinv⟩ hgood hstep => hinv.step hgood.1 hgood.2 hstep

end Step

end Vulcanos
