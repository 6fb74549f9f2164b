import Vulcanos.Proof.Free
import Vulcanos.Proof.Sound

/-!
# Freeing a block of any tiled heap

`free` on its own, wherever the index lies and however small the heap is: what the steps read, and
what they leave of the block and the chunks next to it. Nothing is asked of the memory outside the
heap, so left unify may run on whatever precedes the first chunk.
-/

namespace Vulcanos

open Memory Word Layout

/-- The test of left unify as the code makes it, in front of the first chunk too. -/
def UnifiesFront (m : Mem) (head : Nat) : Prop :=
  footerMagic m (sub32 head sizeofFooter) = heapMagic ∧
    headerIsHole m (footerHeader m (sub32 head sizeofFooter)) = 1

instance (m : Mem) (head : Nat) : Decidable (UnifiesFront m head) := by
  unfold UnifiesFront
  infer_instance

/-- Every chunk's footer points to its header. -/
def Footed (k : Kernel) (cs : List Chunk) : Prop :=
  ∀ u ∈ layout Chunk.size k.heap.startAddress cs, FooterAt k.mem (u.1 + u.2.size - 8) u.1

theorem withMem_heap (m : Mem) (k : Kernel) : ({ k with mem := m } : Kernel).heap = k.heap := rfl

section Steps

variable {k k1 k2 : Kernel} {left lh rest rh right : List Chunk} {head hd n s t r : Nat}

theorem free_steps (h : Tiled k (left ++ ⟨s, false⟩ :: rest))
    (hhead : head = k.heap.startAddress + total Chunk.size left) :
    Kernel.free (head + 12) k = (do
      let f ← Kernel.rightUnify
        (Kernel.leftUnify head (head + s - 8) { k with mem := markHole head k.mem })
      let f ← Kernel.contractHeap (add32 (Kernel.leftUnify head (head + s - 8)
        { k with mem := markHole head k.mem }).foot sizeofFooter) f
      .ok (if f.addToFreeHole then Kernel.insertHole f.head f.kernel else f.kernel)) := by
  have hlt := h.end_lt
  have hle := h.chunk_end_le
  have hchunk := h.chunkAt
  rw [← hhead] at hle hchunk
  simp only at hle
  exact free_of_chunk hchunk (by omega)

/-! ### Left unify -/

/-- The kernel `k1` once the bytes from `hd` to `hd + n` of `k` are a hole. -/
structure Joined (k : Kernel) (hd n : Nat) (k1 : Kernel) : Prop where
  heap : k1.heap = k.heap
  header : HeaderAt k1.mem hd true n
  footer : FooterAt k1.mem (hd + n - 8) hd
  same : SameOutside hd (hd + n) k.mem k1.mem

/-- Without a footer's first word in front of it a chunk is not unified with anything there. -/
theorem not_unifiesFront {m : Mem} (hquiet : footerMagic m (sub32 head sizeofFooter) ≠ heapMagic) :
    ¬ UnifiesFront (markHole head m) head := by
  rintro ⟨hmagic, -⟩
  apply hquiet
  have hsame := markHole_sameOutside head m
  have hapart : sub32 head sizeofFooter + 4 ≤ head + 4 ∨ head + 5 ≤ sub32 head sizeofFooter := by
    unfold sub32 sizeofFooter
    omega
  have hword : SameOn (sub32 head sizeofFooter) (sub32 head sizeofFooter + 4) m
      (markHole head m) := hsame.sameOn hapart
  exact (hword.read32 (Nat.le_refl _) (Nat.le_refl _)).symm.trans hmagic

/-- A block with another block in front of it, or with nothing there that looks like a hole's
footer, is a hole by itself. -/
theorem leftUnify_alone (h : Tiled k (left ++ ⟨s, false⟩ :: rest))
    (hhead : head = k.heap.startAddress + total Chunk.size left)
    (hfront : left = [] → ¬ UnifiesFront (markHole head k.mem) head)
    (halone : ∀ c ∈ left.getLast?, c.hole = false) :
    Kernel.leftUnify head (head + s - 8) { k with mem := markHole head k.mem } =
        ⟨head, head + s - 8, sub32 head sizeofFooter, true,
          { k with mem := markHole head k.mem }⟩ ∧
      Joined k head s { k with mem := markHole head k.mem } := by
  have hlt := h.end_lt
  have hle := h.chunk_end_le
  have hchunk := h.chunkAt
  rw [← hhead] at hchunk hle
  have hmin := hchunk.minSize
  simp only at hmin hle
  have hsame := markHole_sameOutside head k.mem
  have hnot : ¬ UnifiesFront (markHole head k.mem) head := by
    rcases List.eq_nil_or_concat' left with rfl | ⟨init, c, rfl⟩
    · exact hfront rfl
    · -- the footer in front belongs to a block
      have hblock : c.hole = false := halone c (by simp)
      have hprev : Tiled k (init ++ c :: ⟨s, false⟩ :: rest) := by simpa using h
      have hc := hprev.chunkAt
      have hfooter := hc.footer hblock
      have hminc := hc.minSize
      simp only [total_append, total_cons, total_nil] at hhead
      obtain ⟨prev, hprevAddr⟩ : ∃ prev, prev = k.heap.startAddress + total Chunk.size init :=
        ⟨_, rfl⟩
      rw [← hprevAddr] at hc hfooter
      have htest : sub32 head sizeofFooter = prev + c.size - 8 := by
        unfold sizeofFooter
        rw [sub32_eq (by omega) (by omega)]
        omega
      have hfooter' := hfooter.frame (hsame.sameOn (Or.inl (by omega)))
      have hheader' := hc.header.frame (hsame.sameOn (Or.inl (by omega)))
      unfold UnifiesFront
      rw [htest, hfooter'.header, hheader'.isHole, hblock]
      simp
  refine ⟨?_, rfl, headerAt_markHole hchunk.header, ?_, hsame.mono (by omega) (by omega)⟩
  · unfold UnifiesFront at hnot
    unfold Kernel.leftUnify
    simp only [if_neg hnot]
  · exact (hchunk.footer rfl).frame (hsame.sameOn (Or.inr (by simp only; omega)))

/-- A hole in front of the block whose footer is in place takes the block's bytes. -/
theorem leftUnify_hole (h : Tiled k (left ++ ⟨t, true⟩ :: ⟨s, false⟩ :: rest))
    (hhd : hd = k.heap.startAddress + total Chunk.size left)
    (hfooter : FooterAt k.mem (hd + t - 8) hd) :
    ∃ k1, Kernel.leftUnify (hd + t) (hd + t + s - 8)
        { k with mem := markHole (hd + t) k.mem } =
          ⟨hd, hd + t + s - 8, sub32 (hd + t) sizeofFooter, false, k1⟩ ∧
      Joined k hd (t + s) k1 := by
  have hlt := h.end_lt
  have hhole := h.chunkAt
  have hblock : Tiled k ((left ++ [⟨t, true⟩]) ++ ⟨s, false⟩ :: rest) := by simpa using h
  have hle := hblock.chunk_end_le
  have hchunk := hblock.chunkAt
  simp only [total_append, total_cons, total_nil, Nat.add_zero] at hle hchunk
  rw [← Nat.add_assoc, ← hhd] at hle hchunk
  rw [← hhd] at hhole
  have hmin := hchunk.minSize
  have hmint := hhole.minSize
  simp only at hmin hmint
  have htest : sub32 (hd + t) sizeofFooter = hd + t - 8 := by
    unfold sizeofFooter
    rw [sub32_eq (by omega) (by omega)]
  have hsame := markHole_sameOutside (hd + t) k.mem
  have hfooter' := hfooter.frame (hsame.sameOn (Or.inl (by omega)))
  obtain ⟨m, hcall, hheader, hfoot, hwrites⟩ := leftUnify_takes hhole hchunk (by omega)
    (by rw [htest]; exact hfooter'.magic) (by rw [htest]; exact hfooter'.header)
  exact ⟨{ k with mem := m }, hcall, rfl, hheader, hfoot, hwrites.mono (by omega) (by omega)⟩

/-- Left unify of a block behind the chunks `left`: it takes the hole there, if there is one. -/
structure LeftUnified (k : Kernel) (left : List Chunk) (s : Nat) (left' lh : List Chunk)
    (k1 : Kernel) : Prop where
  split : left = left' ++ lh
  hole : lh = [] ∨ ∃ t, lh = [⟨t, true⟩]
  alone : lh = [] → ∀ c ∈ left.getLast?, c.hole = false
  call : Kernel.leftUnify (k.heap.startAddress + total Chunk.size left)
      (k.heap.startAddress + total Chunk.size left + s - 8)
      { k with mem := markHole (k.heap.startAddress + total Chunk.size left) k.mem } =
    ⟨k.heap.startAddress + total Chunk.size left',
      k.heap.startAddress + total Chunk.size left' + (total Chunk.size lh + s) - 8,
      sub32 (k.heap.startAddress + total Chunk.size left) sizeofFooter, decide (lh = []), k1⟩
  joined : Joined k (k.heap.startAddress + total Chunk.size left') (total Chunk.size lh + s) k1

theorem leftUnified (h : Tiled k (left ++ ⟨s, false⟩ :: rest))
    (hfront : left = [] →
      ¬ UnifiesFront (markHole k.heap.startAddress k.mem) k.heap.startAddress)
    (hfooter : ∀ init t, left = init ++ [⟨t, true⟩] →
      FooterAt k.mem (k.heap.startAddress + total Chunk.size left - 8)
        (k.heap.startAddress + total Chunk.size init)) :
    ∃ left' lh k1, LeftUnified k left s left' lh k1 := by
  by_cases halone : ∀ c ∈ left.getLast?, c.hole = false
  · obtain ⟨hcall, hjoined⟩ := leftUnify_alone h rfl (by rintro rfl; exact hfront rfl) halone
    refine ⟨left, [], _, ⟨(List.append_nil left).symm, Or.inl rfl, fun _ => halone, ?_,
      by simpa using hjoined⟩⟩
    simpa using hcall
  · rcases List.eq_nil_or_concat' left with rfl | ⟨init, ⟨t, hole⟩, rfl⟩
    · simp at halone
    · obtain rfl : hole = true := by simpa using halone
      have hhole : Tiled k (init ++ ⟨t, true⟩ :: ⟨s, false⟩ :: rest) := by simpa using h
      have hold := hfooter init t rfl
      simp only [total_append, total_cons, total_nil, Nat.add_zero, ← Nat.add_assoc] at hold
      obtain ⟨k1, hcall, hjoined⟩ := leftUnify_hole hhole rfl hold
      refine ⟨init, [⟨t, true⟩], k1, rfl, Or.inr ⟨t, rfl⟩, by simp, ?_, by simpa using hjoined⟩
      simp only [total_append, total_cons, total_nil, Nat.add_zero, ← Nat.add_assoc]
      rw [hcall]
      rfl

theorem Footed.inFront (hfeet : Footed k (left ++ ⟨s, false⟩ :: rest)) {init : List Chunk}
    (hleft : left = init ++ [⟨t, true⟩]) :
    FooterAt k.mem (k.heap.startAddress + total Chunk.size left - 8)
      (k.heap.startAddress + total Chunk.size init) := by
  subst hleft
  have hfoot := hfeet (k.heap.startAddress + total Chunk.size init, ⟨t, true⟩)
    ((mem_layout_iff Chunk.size).mpr ⟨init, ⟨s, false⟩ :: rest, by simp, rfl⟩)
  simpa [Nat.add_assoc] using hfoot

/-! ### Right unify -/

/-- The kernel `k2` once the block of `s` bytes of `k` and the holes `lh` and `rh` around it are one
hole. The hole in front is the one listed. -/
structure Gathered (k : Kernel) (left lh : List Chunk) (s : Nat) (rh right : List Chunk)
    (k2 : Kernel) : Prop where
  heap : k2.heap =
    { k.heap with index := { k.heap.index with size := k.heap.index.size - rh.length } }
  count : rh.length ≤ k.heap.index.size
  header : HeaderAt k2.mem (k.heap.startAddress + total Chunk.size left) true
    (total Chunk.size lh + s + total Chunk.size rh)
  footer : rh = [] → FooterAt k2.mem
    (k.heap.startAddress + total Chunk.size left + (total Chunk.size lh + s) - 8)
    (k.heap.startAddress + total Chunk.size left)
  sameLeft : SameOn k.heap.startAddress (k.heap.startAddress + total Chunk.size left) k.mem k2.mem
  sameRight : SameOn (k.heap.startAddress + total Chunk.size left + (total Chunk.size lh + s))
    k.heap.endAddress k.mem k2.mem
  sublist : (k2.heap.index.entries k2.mem).Sublist (k.heap.index.entries k.mem)
  index : (k2.heap.index.entries k2.mem).Perm (holes k.heap.startAddress left ++
    (if lh = [] then [] else [k.heap.startAddress + total Chunk.size left]) ++
      holes (k.heap.startAddress + total Chunk.size left +
        (total Chunk.size lh + s + total Chunk.size rh)) right)

theorem Tiled.holes_around (h : Tiled k (left ++ lh ++ ⟨s, false⟩ :: (rh ++ right)))
    (hlh : lh = [] ∨ ∃ t, lh = [⟨t, true⟩]) (hrh : rh = [] ∨ ∃ r, rh = [⟨r, true⟩]) :
    (k.heap.index.entries k.mem).Perm (holes k.heap.startAddress left ++
      (if lh = [] then [] else [k.heap.startAddress + total Chunk.size left]) ++
      ((if rh = [] then [] else
          [k.heap.startAddress + total Chunk.size left + (total Chunk.size lh + s)]) ++
        holes (k.heap.startAddress + total Chunk.size left +
          (total Chunk.size lh + s + total Chunk.size rh)) right)) := by
  have hindex := h.index
  rcases hlh with rfl | ⟨t, rfl⟩ <;> rcases hrh with rfl | ⟨r, rfl⟩ <;>
    simpa [Nat.add_assoc] using hindex

theorem LeftUnified.gathered (h : Tiled k (left ++ ⟨s, false⟩ :: right))
    {left' : List Chunk} (hleft : LeftUnified k left s left' lh k1) :
    Gathered k left' lh s [] right k1 := by
  obtain ⟨rfl, hhole, -, -, hheap, hheader, hfooter, hsame⟩ := hleft
  have htiles := h.tiles
  simp only [total_append, total_cons] at htiles
  have hentries := h.entries_eq (hsame.mono (by omega) (by omega))
  have hnone : Tiled k (left' ++ lh ++ ⟨s, false⟩ :: ([] ++ right)) := h
  have hindex := hnone.holes_around hhole (Or.inl rfl)
  refine ⟨by rw [hheap]; rfl, Nat.zero_le _, hheader, fun _ => hfooter,
    hsame.sameOn (Or.inl (Nat.le_refl _)), hsame.sameOn (Or.inr (Nat.le_refl _)), ?_, ?_⟩
  · rw [hheap, hentries]
  · rw [hheap, hentries]
    simpa using hindex

/-- A hole behind the block gives its bytes to the new hole and leaves the index. The footer that
the code computes then lies inside. -/
theorem LeftUnified.rightUnify_hole (h : Tiled k (left ++ ⟨s, false⟩ :: ⟨r, true⟩ :: right))
    {left' : List Chunk} (hleft : LeftUnified k left s left' lh k1) (testFoot : Nat) (add : Bool) :
    ∃ k2, Kernel.rightUnify ⟨k.heap.startAddress + total Chunk.size left',
        k.heap.startAddress + total Chunk.size left' + (total Chunk.size lh + s) - 8, testFoot, add,
        k1⟩ =
          .ok ⟨k.heap.startAddress + total Chunk.size left',
            sub32 (add32 testFoot r) sizeofFooter, sub32 (add32 testFoot r) sizeofFooter, add,
            k2⟩ ∧
      Gathered k left' lh s [⟨r, true⟩] right k2 := by
  obtain ⟨rfl, hhole, -, -, hheap, hheader, -, hsame⟩ := hleft
  have hlt := h.end_lt
  have htiles := h.tiles
  have hmins := h.minSize ⟨s, false⟩ (by simp)
  have hminr := h.minSize ⟨r, true⟩ (by simp)
  have hone : Tiled k (left' ++ lh ++ ⟨s, false⟩ :: ([⟨r, true⟩] ++ right)) := h
  have hindex := hone.holes_around hhole (Or.inr ⟨r, rfl⟩)
  have hapart := h.apart
  simp only [total_append, total_cons] at htiles hmins hminr
  obtain ⟨hd, hhd⟩ : ∃ hd, hd = k.heap.startAddress + total Chunk.size left' := ⟨_, rfl⟩
  obtain ⟨n, hn⟩ : ∃ n, n = total Chunk.size lh + s := ⟨_, rfl⟩
  have hnextChunk : ChunkAt k.mem (hd + n) ⟨r, true⟩ := by
    have hsplit : Tiled k ((left' ++ lh ++ [⟨s, false⟩]) ++ ⟨r, true⟩ :: right) := by simpa using h
    have hchunk := hsplit.chunkAt
    simp only [total_append, total_cons, total_nil, Nat.add_zero] at hchunk
    rwa [show k.heap.startAddress + (total Chunk.size left' + total Chunk.size lh + s) = hd + n by
      omega] at hchunk
  rw [← hhd, ← hn] at hheader hsame hindex ⊢
  have hnext : HeaderAt k1.mem (hd + n) true r :=
    hnextChunk.header.frame (hsame.sameOn (Or.inr (Nat.le_refl _)))
  obtain ⟨m1, hm1⟩ : ∃ m1, m1 = write32 k1.mem (hd + 8) (n + r) := ⟨_, rfl⟩
  have hwrite : SameOutside (hd + 8) (hd + 12) k1.mem m1 := by
    rw [hm1]
    exact (SameOutside.refl _ _ _).write32 (Nat.le_refl _) (Nat.le_refl _)
  have hsame2 : SameOutside hd (hd + n) k.mem m1 := hsame.trans (hwrite.mono (by omega) (by omega))
  have hentries1 : k.heap.index.entries k1.mem = k.heap.index.entries k.mem :=
    h.entries_eq (hsame.mono (by omega) (by omega))
  have hentries : k.heap.index.entries m1 = k.heap.index.entries k.mem :=
    h.entries_eq (hsame2.mono (by omega) (by omega))
  have hlisted : hd + n ∈ k.heap.index.entries k.mem := by
    rw [hindex.mem_iff]
    simp
  obtain ⟨hnew, -, it, hitlt, hitfound, hunify⟩ := rightUnify_takes testFoot add hheader hnext
    (by omega) (by omega) hm1 (by rw [hheap, hentries, hentries1])
    (by rw [hheap, hentries1]; exact hlisted)
  obtain ⟨kw, hkw⟩ : ∃ kw : Kernel, kw = { k1 with mem := m1 } := ⟨_, rfl⟩
  have hkwmem : kw.mem = m1 := by rw [hkw]
  have hkwheap : kw.heap = k.heap := by rw [hkw, ← hheap]
  rw [hheap] at hitlt hitfound
  rw [← hkw] at hunify
  have hperm := perm_removeHole (k := kw) (by rw [hkwheap]; exact hitlt)
  have hsublist := removeHole_sublist (k := kw) (by rw [hkwheap]; exact hitlt)
  have hsame3 := removeHole_sameOutside it kw
  have hheap3 := removeHole_heap it kw
  rw [hkwheap, hkwmem, hitfound, hentries] at hperm
  rw [hkwheap, hkwmem, hentries] at hsublist
  rw [hkwmem, hkwheap] at hsame3
  rw [hkwheap] at hheap3
  have hkept : SameOn k.heap.startAddress k.heap.endAddress m1 (Kernel.removeHole it kw).mem :=
    hsame3.sameOn (by omega)
  refine ⟨Kernel.removeHole it kw, hunify, hheap3, by simp only [List.length_singleton]; omega, ?_,
    by simp, ?_, ?_, hsublist, ?_⟩
  · rw [← hhd, ← hn]
    simpa using hnew.frame (hkept.mono (by omega) (by omega))
  · rw [← hhd]
    exact (hsame2.sameOn (Or.inl (Nat.le_refl _))).trans (hkept.mono (Nat.le_refl _) (by omega))
  · rw [← hhd, ← hn]
    exact (hsame2.sameOn (Or.inr (Nat.le_refl _))).trans (hkept.mono (by omega) (Nat.le_refl _))
  · rw [← hhd, ← hn]
    simp only [reduceCtorEq, if_false, List.singleton_append] at hindex
    exact ((hperm.trans hindex).trans List.perm_middle).cons_inv

/-! ### Listing the hole -/

/-- The slot behind the entries of the index lies outside the heap. -/
def SlotFree (k : Kernel) : Prop :=
  k.heap.index.array + 4 * (k.heap.index.size + 1) ≤ k.heap.startAddress ∨
    k.heap.endAddress ≤ k.heap.index.array

instance (k : Kernel) : Decidable (SlotFree k) := by
  unfold SlotFree
  infer_instance

theorem Sound.slotFree {cs : List Chunk} (h : Sound k cs) : SlotFree k := by
  have hspare := h.spare
  have hout := h.outside
  unfold IndexOutside at hout
  unfold SlotFree
  omega

section Finish

variable (h : Tiled k (left ++ lh ++ ⟨s, false⟩ :: (rh ++ right)))
  (hgathered : Gathered k left lh s rh right k2) (hslot : lh = [] → rh = [] → SlotFree k)

include h hgathered hslot

theorem Gathered.finish_sameOn :
    SameOn k.heap.startAddress k.heap.endAddress k2.mem
      (finishFree lh (k.heap.startAddress + total Chunk.size left) k2).mem := by
  have hapart := h.apart
  have hcount := hgathered.count
  unfold finishFree
  split
  · rename_i hempty
    have hinsert := insertHole_sameOutside (k.heap.startAddress + total Chunk.size left) k2
    rw [hgathered.heap] at hinsert
    refine hinsert.sameOn ?_
    by_cases hrh : rh = []
    · have hfree := hslot hempty hrh
      unfold SlotFree at hfree
      rw [hrh]
      simp only [List.length_nil]
      omega
    · have hlength := List.length_pos_of_ne_nil hrh
      simp only
      omega
  · exact fun _ _ _ => rfl

/-- Once it is listed, the hole completes a tiled heap again. -/
theorem Gathered.tiled :
    Tiled (finishFree lh (k.heap.startAddress + total Chunk.size left) k2)
      (left ++ ⟨total Chunk.size lh + s + total Chunk.size rh, true⟩ :: right) := by
  have hkept := hgathered.finish_sameOn h hslot
  have htiles := h.tiles
  have hlt := h.end_lt
  have hmins := h.minSize ⟨s, false⟩ (by simp)
  have hchunks := h.chunksAt
  have hapart := h.apart
  have hcount := hgathered.count
  have hindex := hgathered.index
  simp only [chunksAt_append, chunksAt_cons, total_append, total_cons] at hchunks htiles hmins
  obtain ⟨⟨hleft, -⟩, -, -, hrightAt⟩ := hchunks
  obtain ⟨index, hheap⟩ :=
    finishFree_heap lh (k.heap.startAddress + total Chunk.size left) k2
  have hstart : (finishFree lh (k.heap.startAddress + total Chunk.size left) k2).heap.startAddress =
      k.heap.startAddress := by rw [hheap, hgathered.heap]
  have hend : (finishFree lh (k.heap.startAddress + total Chunk.size left) k2).heap.endAddress =
      k.heap.endAddress := by rw [hheap, hgathered.heap]
  refine ⟨by rw [hend]; exact hlt, ?_, ?_, ?_, ?_⟩
  · rw [hstart, hend, total_append, total_cons]
    simp only
    omega
  · rw [hstart, chunksAt_append, chunksAt_cons]
    refine ⟨hleft.frame ((hgathered.sameLeft).trans (hkept.mono (Nat.le_refl _) (by omega))),
      ⟨by simp only; omega, hgathered.header.frame (hkept.mono (by omega) (by omega)), by simp⟩, ?_⟩
    rw [show k.heap.startAddress + (total Chunk.size left + total Chunk.size lh) +
      (Chunk.mk s false).size + total Chunk.size rh = k.heap.startAddress + total Chunk.size left +
        (total Chunk.size lh + s + total Chunk.size rh) by simp only; omega] at hrightAt
    exact hrightAt.frame ((hgathered.sameRight.mono (by omega) (by omega)).trans
      (hkept.mono (by omega) (by omega)))
  · rw [hstart]
    simp only [holes_append, holes_cons, if_true]
    unfold finishFree
    split
    · rename_i hempty
      simp only [hempty, if_true, List.append_nil, total_nil, Nat.zero_add] at hindex ⊢
      exact (perm_insertHole _ k2 (by omega)).trans
        ((hindex.cons _).trans List.perm_middle.symm)
    · rename_i hempty
      simpa [hempty] using hindex
  · rw [hstart, hend]
    unfold finishFree
    split
    · rename_i hempty
      rw [insertHole_heap, hgathered.heap]
      by_cases hrh : rh = []
      · have hfree := hslot hempty hrh
        unfold SlotFree at hfree
        rw [hrh]
        simpa using hfree
      · have hlength := List.length_pos_of_ne_nil hrh
        simp only
        omega
    · rw [hgathered.heap]
      simp only
      omega

end Finish

/-! ### The whole call, for a block inside the heap -/

/-- `free` on the block of `s` bytes between the chunks `left` and `rest`. -/
structure Released (k : Kernel) (left : List Chunk) (s : Nat) (rest left' lh rh right : List Chunk)
    (k2 : Kernel) : Prop where
  leftSplit : left = left' ++ lh
  rightSplit : rest = rh ++ right
  leftHole : lh = [] ∨ ∃ t, lh = [⟨t, true⟩]
  rightHole : rh = [] ∨ ∃ r, rh = [⟨r, true⟩]
  leftAlone : lh = [] → ∀ c ∈ left.getLast?, c.hole = false
  rightAlone : rh = [] → ∀ c ∈ rest.head?, c.hole = false
  gathered : Gathered k left' lh s rh right k2
  call : Kernel.free (k.heap.startAddress + total Chunk.size left + 12) k =
    .ok (finishFree lh (k.heap.startAddress + total Chunk.size left') k2)

/-- **What `free` does to a block inside the heap**: the block and the holes around it become one
hole, which goes into the index unless it is there already. -/
theorem free_releases (h : Tiled k (left ++ ⟨s, false⟩ :: rest)) (hrest : rest ≠ [])
    (hfront : left = [] →
      ¬ UnifiesFront (markHole k.heap.startAddress k.mem) k.heap.startAddress)
    (hfooter : ∀ init t, left = init ++ [⟨t, true⟩] →
      FooterAt k.mem (k.heap.startAddress + total Chunk.size left - 8)
        (k.heap.startAddress + total Chunk.size init)) :
    ∃ left' lh rh right k2, Released k left s rest left' lh rh right k2 := by
  obtain ⟨left', lh, k1, hleft⟩ := leftUnified h hfront hfooter
  have hsteps := free_steps h rfl
  have hlt := h.end_lt
  have htiles := h.tiles
  obtain ⟨c, right, rfl⟩ := List.exists_cons_of_ne_nil hrest
  obtain ⟨r, hole⟩ := c
  have hmins := h.minSize ⟨s, false⟩ (by simp)
  have hminr := h.minSize ⟨r, hole⟩ (by simp)
  rw [hleft.call] at hsteps
  have hsplit := congrArg (total Chunk.size) hleft.split
  simp only [total_append, total_cons] at htiles hmins hminr hsplit
  cases hole with
  | true =>
      -- the footer computed behind the hole lies inside the heap
      obtain ⟨k2, hright, hgathered⟩ := hleft.rightUnify_hole h
        (sub32 (k.heap.startAddress + total Chunk.size left) sizeofFooter) (decide (lh = []))
      have hinside : add32 (sub32 (add32 (sub32 (k.heap.startAddress + total Chunk.size left)
          sizeofFooter) r) sizeofFooter) sizeofFooter ≠ k2.heap.endAddress := by
        rw [hgathered.heap]
        unfold sizeofFooter add32 sub32
        simp only
        omega
      refine ⟨left', lh, [⟨r, true⟩], right, k2, hleft.split, rfl, hleft.hole, Or.inr ⟨r, rfl⟩,
        hleft.alone, by simp, hgathered, ?_⟩
      rw [hsteps, hright, ok_bind, contractHeap_not hinside, ok_bind]
      simp only [decide_eq_true_eq]
      rfl
  | false =>
      have hgathered := hleft.gathered h
      have hnext : ChunkAt k.mem (k.heap.startAddress + total Chunk.size left' +
          (total Chunk.size lh + s)) ⟨r, false⟩ := by
        have hchunk := (show Tiled k ((left ++ [⟨s, false⟩]) ++ ⟨r, false⟩ :: right) by
          simpa using h).chunkAt
        rw [total_append, total_cons, total_nil, hsplit] at hchunk
        rwa [show k.heap.startAddress + (total Chunk.size left' + total Chunk.size lh +
          ((Chunk.mk s false).size + 0)) = k.heap.startAddress + total Chunk.size left' +
            (total Chunk.size lh + s) by simp only; omega] at hchunk
      have hnot : ¬ UnifiesRight k1.mem (k.heap.startAddress + total Chunk.size left' +
          (total Chunk.size lh + s)) := by
        rintro ⟨-, hflag⟩
        exact hflag (hnext.header.frame
          (hleft.joined.same.sameOn (Or.inr (Nat.le_refl _)))).isHole
      have hinside : add32 (k.heap.startAddress + total Chunk.size left' +
          (total Chunk.size lh + s) - 8) sizeofFooter ≠ k1.heap.endAddress := by
        rw [hleft.joined.heap]
        unfold sizeofFooter
        rw [add32_eq (by omega)]
        omega
      refine ⟨left', lh, [], ⟨r, false⟩ :: right, k1, hleft.split, rfl, hleft.hole, Or.inl rfl,
        hleft.alone, by simp, hgathered, ?_⟩
      rw [hsteps, rightUnify_not (by omega) (by omega) hnot, ok_bind, contractHeap_not hinside,
        ok_bind]
      simp only [decide_eq_true_eq]
      rfl

/-- The holes `lh` and `rh` next to a block that stands behind `left ++ lh` and in front of
`rh ++ right`: one or none on either side. -/
structure Neighbours (left lh rh right : List Chunk) : Prop where
  leftHole : (lh = [] ∧ ∀ c ∈ left.getLast?, c.hole = false) ∨ ∃ t, lh = [⟨t, true⟩]
  rightHole : (rh = [] ∧ ∀ c ∈ right.head?, c.hole = false) ∨ ∃ r, rh = [⟨r, true⟩]

/-- The holes that `free` merges are those next to the block. -/
theorem Released.neighbours {left' lh' rh' right' : List Chunk}
    (hrel : Released k (left ++ lh) s (rh ++ right) left' lh' rh' right' k2)
    (hnext : Neighbours left lh rh right) :
    left' = left ∧ lh' = lh ∧ rh' = rh ∧ right' = right := by
  obtain ⟨hleft, hright, hlh, hrh, hleftAlone, hrightAlone, -, -⟩ := hrel
  obtain ⟨hnextLeft, hnextRight⟩ := hnext
  have hl : left' = left ∧ lh' = lh := by
    rcases hnextLeft with ⟨rfl, halone⟩ | ⟨t, rfl⟩ <;> rcases hlh with rfl | ⟨t', rfl⟩
    · simpa using hleft.symm
    · rw [List.append_nil] at hleft
      simp [hleft] at halone
    · simpa using hleftAlone rfl
    · obtain ⟨hl, ht⟩ := List.append_inj' hleft rfl
      exact ⟨hl.symm, ht.symm⟩
  have hr : rh' = rh ∧ right' = right := by
    rcases hnextRight with ⟨rfl, halone⟩ | ⟨r, rfl⟩ <;> rcases hrh with rfl | ⟨r', rfl⟩
    · simpa using hright.symm
    · rw [List.nil_append] at hright
      simp [hright] at halone
    · simpa using hrightAlone rfl
    · obtain ⟨hr, hrest⟩ := List.append_inj hright rfl
      exact ⟨hr.symm, hrest.symm⟩
  exact ⟨hl.1, hl.2, hr.1, hr.2⟩

end Steps

end Vulcanos
