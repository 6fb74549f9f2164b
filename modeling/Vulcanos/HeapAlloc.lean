import Vulcanos.HeapOrder
import Vulcanos.Proof.Sound

/-!
# One plain request

What `alloc` does with a request that is not page-aligned and that some hole of the heap fits. The
heap is any that is as the allocator means it to be; how it came about does not matter.
-/

namespace Vulcanos

open Memory Word Layout KeyOrder

/-- Headers and footers agree, holes are merged, and the index lists the holes by size. The one
footer that may be missing is that of a hole at the end. -/
structure Intact (k : Kernel) (cs : List Chunk) : Prop extends Sound k cs where
  footers : ∀ u ∈ layout Chunk.size k.heap.startAddress cs, u.2.hole = true →
    u.1 + u.2.size ≠ k.heap.endAddress → FooterAt k.mem (u.1 + u.2.size - 8) u.1
  apart : cs.IsChain Separated
  sorted : SortedIndex k

/-! ### The search -/

section Find

variable {k : Kernel} {cs : List Chunk} {size it : Nat}

/-- Some hole of the heap has `size` bytes. -/
def SomeHoleFits (size : Nat) (cs : List Chunk) : Prop := ∃ c ∈ cs, c.hole = true ∧ size ≤ c.size

instance (size : Nat) (cs : List Chunk) : Decidable (SomeHoleFits size cs) := by
  unfold SomeHoleFits
  infer_instance

theorem Tiled.exists_lookup (h : Tiled k cs) {c : Chunk} (hc : c ∈ cs) (hhole : c.hole = true) :
    ∃ j < k.heap.index.size, headerSize k.mem (k.heap.index.lookup j k.mem) = c.size := by
  obtain ⟨left, right, rfl⟩ := List.append_of_mem hc
  obtain ⟨s, hole⟩ := c
  obtain rfl : hole = true := hhole
  have hmem : k.heap.startAddress + total Chunk.size left ∈ k.heap.index.entries k.mem :=
    h.index.mem_iff.mpr (mem_holes_iff.mpr ⟨left, s, right, rfl, rfl⟩)
  obtain ⟨j, hj, hjx⟩ := List.mem_map.mp hmem
  refine ⟨j, List.mem_range.mp hj, ?_⟩
  rw [OrderedArray.lookup, hjx]
  exact h.chunkAt.header.size

theorem Sound.find_of_fits (h : Sound k cs) (hfits : SomeHoleFits size cs) :
    ∃ it, Kernel.findSmallestHole size 0 k = some it := by
  obtain ⟨c, hc, hhole, hsize⟩ := hfits
  obtain ⟨j, hj, hlookup⟩ := h.tiled.exists_lookup hc hhole
  cases hfind : Kernel.findSmallestHole size 0 k with
  | some it => exact ⟨it, rfl⟩
  | none =>
      have hnot := findSmallestHole_none hfind j hj
      rw [holeFits_plain, hlookup, decide_eq_true hsize] at hnot
      exact absurd rfl hnot

/-- What is found in an index sorted by size is a smallest hole among those that fit. -/
theorem Intact.find_smallest (h : Intact k cs)
    (hfind : Kernel.findSmallestHole size 0 k = some it) :
    size ≤ headerSize k.mem (k.heap.index.lookup it k.mem) ∧
      ∀ c ∈ cs, c.hole = true → size ≤ c.size →
        headerSize k.mem (k.heap.index.lookup it k.mem) ≤ c.size := by
  obtain ⟨-, hfits, hleast⟩ := h.sorted.findsSmallest size it hfind
  refine ⟨hfits, fun c hc hhole hsize => ?_⟩
  obtain ⟨j, hj, hlookup⟩ := h.tiled.exists_lookup hc hhole
  rw [← hlookup] at hsize ⊢
  exact hleast _ (OrderedArray.lookup_mem hj) hsize

end Find

/-! ### The carving -/

section Carve

variable {k k1 : Kernel} {left right : List Chunk} {size it s b : Nat}

/-- The hole of `s` bytes behind `left` is out of the index of `k1`. Its bytes may be anything; all
else is as in `k`. -/
structure Unlisted (k : Kernel) (left : List Chunk) (s : Nat) (right : List Chunk)
    (k1 : Kernel) : Prop where
  heap : k1.heap = { k.heap with index := { k.heap.index with size := k.heap.index.size - 1 } }
  sameLeft : SameOn k.heap.startAddress (k.heap.startAddress + total Chunk.size left) k.mem k1.mem
  sameRight : SameOn (k.heap.startAddress + total Chunk.size left + s) k.heap.endAddress
    k.mem k1.mem
  index : (k1.heap.index.entries k1.mem).Perm (holes k.heap.startAddress left
    ++ holes (k.heap.startAddress + total Chunk.size left + s) right)
  apart : ∀ x ∈ k1.heap.index.entries k1.mem,
    k.heap.startAddress ≤ x ∧ x + 12 ≤ k.heap.endAddress ∧
      (x + 12 ≤ k.heap.startAddress + total Chunk.size left ∨
        k.heap.startAddress + total Chunk.size left + s ≤ x)
  sorted : SortedIndex k → SortedIndex k1

theorem Sound.removeHole (h : Sound k (left ++ [⟨s, true⟩] ++ right))
    (hit : it < k.heap.index.size)
    (haddr : k.heap.index.lookup it k.mem = k.heap.startAddress + total Chunk.size left) :
    Unlisted k left s right (Kernel.removeHole it k) := by
  have hwhole : Sound k (left ++ ⟨s, true⟩ :: right) := by simpa using h
  have hend := hwhole.chunk_end_le
  have hperm := perm_removeHole hit
  have hsub := removeHole_sublist hit
  have hsame : SameOn k.heap.startAddress k.heap.endAddress k.mem (Kernel.removeHole it k).mem :=
    removeHole_sameOn (Nat.le_of_lt h.spare) h.outside
  rw [haddr] at hperm
  set a := k.heap.startAddress + total Chunk.size left with ha
  simp only at hend
  have hapart : ∀ x ∈ (Kernel.removeHole it k).heap.index.entries (Kernel.removeHole it k).mem,
      k.heap.startAddress ≤ x ∧ x + 12 ≤ k.heap.endAddress ∧ (x + 12 ≤ a ∨ a + s ≤ x) := by
    intro x hx
    have hnodup := h.nodup_entries
    rw [← hperm.nodup_iff, List.nodup_cons] at hnodup
    have hne : x ≠ a := fun heq => hnodup.1 (heq ▸ hx)
    have hbounds := h.entry_bounds (hsub.mem hx)
    have hother := hwhole.entry_apart (hsub.mem hx) hne
    simp only [← ha] at hother
    omega
  refine ⟨removeHole_heap it k, hsame.mono (Nat.le_refl _) (by omega),
    hsame.mono (by omega) (Nat.le_refl _), ?_, hapart, fun hsorted => ?_⟩
  · have hindex := hperm.trans h.index
    simp only [holes_append, holes_cons, holes_nil, total_cons, total_nil, if_true,
      List.append_nil, Nat.add_zero, List.append_assoc, ← ha] at hindex ⊢
    exact (hindex.trans List.perm_middle).cons_inv
  · refine (Ordered.sublist hsorted hsub).congr fun x hx => ?_
    have hx' := hapart x hx
    exact hsame.read32 (by omega) (by omega)

theorem Unlisted.outside (h : Sound k (left ++ [⟨s, true⟩] ++ right))
    (hun : Unlisted k left s right k1) :
    k1.heap.index.size < k1.heap.index.maxSize ∧
      IndexOutside k.heap.startAddress k.heap.endAddress k1 := by
  have hspare := h.spare
  unfold IndexOutside
  rw [hun.heap]
  exact ⟨Nat.lt_of_le_of_lt (Nat.sub_le _ _) hspare, h.outside⟩

theorem Unlisted.overwrite {m' : Mem} (h : Sound k (left ++ [⟨s, true⟩] ++ right))
    (hun : Unlisted k left s right k1)
    (hwrite : SameOutside (k.heap.startAddress + total Chunk.size left)
      (k.heap.startAddress + total Chunk.size left + s) k1.mem m') :
    Unlisted k left s right { k1 with mem := m' } := by
  obtain ⟨hspare, hout⟩ := hun.outside h
  have htiles := h.tiles
  simp only [total_append, total_cons, total_nil] at htiles
  have hentries : k1.heap.index.entries m' = k1.heap.index.entries k1.mem :=
    entries_of_sameOutside (Nat.le_of_lt hspare) hout (hwrite.mono (by omega) (by omega))
  refine ⟨hun.heap, hun.sameLeft.trans (hwrite.sameOn (Or.inl (Nat.le_refl _))),
    hun.sameRight.trans (hwrite.sameOn (Or.inr (Nat.le_refl _))), ?_, ?_, fun hsorted => ?_⟩
  · simp only [hentries]
    exact hun.index
  · simp only [hentries]
    exact hun.apart
  · unfold SortedIndex
    simp only [hentries]
    refine Ordered.congr (hun.sorted hsorted) fun x hx => ?_
    have hheader : SameOn x (x + 12) k1.mem m' := hwrite.sameOn (hun.apart x hx).2.2
    exact hheader.read32 (by omega) (by omega)

/-- The heap `k'` after the hole of `s` bytes behind `left` has become a block of `b` bytes and,
unless they are all of it, a smaller hole. -/
structure Split (k : Kernel) (left : List Chunk) (s : Nat) (right : List Chunk) (b : Nat)
    (k' : Kernel) : Prop where
  start : k'.heap.startAddress = k.heap.startAddress
  endAddr : k'.heap.endAddress = k.heap.endAddress
  sound : Sound k' (left ++ blockChunks b s ++ right)
  sameLeft : SameOn k.heap.startAddress (k.heap.startAddress + total Chunk.size left) k.mem k'.mem
  sameRight : SameOn (k.heap.startAddress + total Chunk.size left + s) k.heap.endAddress
    k.mem k'.mem
  footer : s ≠ b → FooterAt k'.mem (k.heap.startAddress + total Chunk.size left + s - 8)
    (k.heap.startAddress + total Chunk.size left + b)
  sorted : SortedIndex k → SortedIndex k'

theorem Unlisted.split_whole (h : Sound k (left ++ [⟨s, true⟩] ++ right))
    (hun : Unlisted k left s right k1)
    (hchunks : ChunksAt k1.mem (k.heap.startAddress + total Chunk.size left) (blockChunks s s)) :
    Split k left s right s k1 := by
  obtain ⟨hspare, -⟩ := hun.outside h
  rw [hun.heap] at hspare
  refine ⟨by rw [hun.heap], by rw [hun.heap], ?_, hun.sameLeft, hun.sameRight,
    fun hne => absurd rfl hne, hun.sorted⟩
  refine h.replace (by rw [hun.heap]) (by rw [hun.heap]) (by rw [hun.heap]) (by rw [hun.heap])
    (by rw [hun.heap]; exact hspare) ?_ hun.sameLeft ?_ hchunks ?_
  · rw [total_blockChunks (Nat.le_refl s)]
    simp
  · simpa only [total_cons, total_nil, Nat.add_zero] using hun.sameRight
  · rw [holes_blockChunks, if_pos rfl]
    simpa using hun.index

theorem Unlisted.split_rest (h : Sound k (left ++ [⟨s, true⟩] ++ right))
    (hun : Unlisted k left s right k1) (hrest : b + 20 ≤ s)
    (hchunks : ChunksAt k1.mem (k.heap.startAddress + total Chunk.size left) (blockChunks b s))
    (hfooter : FooterAt k1.mem (k.heap.startAddress + total Chunk.size left + s - 8)
      (k.heap.startAddress + total Chunk.size left + b)) :
    Split k left s right b
      (Kernel.insertHole (k.heap.startAddress + total Chunk.size left + b) k1) := by
  have htiles := h.tiles
  have hlt := h.end_lt
  have hspare := h.spare
  simp only [total_append, total_cons, total_nil] at htiles
  have hsize := h.index.length_eq
  simp only [OrderedArray.length_entries, holes_append, holes_cons, if_true, List.length_append,
    List.length_singleton] at hsize
  obtain ⟨hspare1, hout1⟩ := hun.outside h
  have hne : s ≠ b := by omega
  set a := k.heap.startAddress + total Chunk.size left with ha
  have hheap := insertHole_heap (a + b) k1
  have hsame := @insertHole_sameOn k1 _ _ (a + b) hspare1 hout1
  have hperm := perm_insertHole (a + b) k1 (by omega)
  rw [hun.heap] at hheap
  have hleft := hun.sameLeft.trans (hsame.mono (Nat.le_refl _) (by omega))
  have hright := hun.sameRight.trans (hsame.mono (by omega) (Nat.le_refl _))
  refine ⟨by rw [hheap], by rw [hheap], ?_, hleft, hright, fun _ => ?_, fun hsorted => ?_⟩
  · refine h.replace (by rw [hheap]) (by rw [hheap]) (by rw [hheap]) (by rw [hheap])
      (by rw [hheap]; simp only; omega) ?_ hleft ?_ ?_ ?_
    · rw [total_blockChunks (by omega)]
      simp
    · simpa only [total_cons, total_nil, Nat.add_zero] using hright
    · refine hchunks.frame (hsame.mono (by omega) ?_)
      rw [total_blockChunks (by omega)]
      omega
    · refine hperm.trans ((hun.index.cons _).trans ?_)
      simp only [holes_blockChunks, if_neg hne, total_cons, total_nil, Nat.add_zero, ← ha]
      simpa using List.perm_middle.symm
  · exact hfooter.frame (hsame.mono (by omega) (by omega))
  · refine insertHole_sorted_of_sameOn (hun.sorted hsorted) (by omega) fun x hx => ?_
    rcases List.mem_cons.mp hx with rfl | hx
    · exact hsame.mono (by omega) (by omega)
    · have hx' := hun.apart x hx
      exact hsame.mono (by omega) (by omega)

/-- **Carving a plain request** out of a listed hole. -/
theorem Sound.carve_plain (h : Sound k (left ++ [⟨s, true⟩] ++ right))
    (hit : it < k.heap.index.size)
    (haddr : k.heap.index.lookup it k.mem = k.heap.startAddress + total Chunk.size left)
    (hfits : size + 20 ≤ s) :
    (Kernel.carveBlock it size (size + 20) 0 k).1 =
        k.heap.startAddress + total Chunk.size left + 12 ∧
      Split k left s right (plainBlock size s)
        (Kernel.carveBlock it size (size + 20) 0 k).2 := by
  have hwhole : Sound k (left ++ ⟨s, true⟩ :: right) := by simpa using h
  have hheader : headerSize k.mem (k.heap.startAddress + total Chunk.size left) = s :=
    hwhole.chunkAt.header.size
  have hend := hwhole.chunk_end_le
  obtain ⟨hb, hrest⟩ := plainBlock_spec hfits
  have hun := h.removeHole hit haddr
  rw [carveBlock_plain haddr.symm hheader.symm hfits]
  generalize plainBlock size s = b at *
  obtain ⟨m', hwrite, hchunks, hfooter, heq⟩ := writeBlock_spec (Kernel.removeHole it k)
    (k.heap.startAddress + total Chunk.size left) (show b - 20 + 20 = b by omega) hrest
    (by rw [hun.heap]; exact hend) (by rw [hun.heap]; exact h.end_lt)
  have hover := hun.overwrite h hwrite
  rw [heq]
  refine ⟨rfl, ?_⟩
  by_cases hall : s = b
  · subst hall
    rw [if_pos rfl]
    exact hover.split_whole h hchunks
  · rw [if_neg hall]
    exact hover.split_rest h (by omega) hchunks (hfooter hall)

end Carve

/-! ### The request -/

section Request

variable {k k' : Kernel} {cs left right : List Chunk} {size s b fuel : Nat}

/-- An intact heap stays intact: what is left of the hole gets a footer, and no hole was next to it.
-/
theorem Split.intact (h : Intact k (left ++ [⟨s, true⟩] ++ right))
    (hsplit : Split k left s right b k') (hle : b ≤ s) :
    Intact k' (left ++ blockChunks b s ++ right) := by
  have hold := h.apart
  have htiles := h.tiles
  have hchunks := hsplit.sound.chunksAt
  have hfooters := h.footers
  rw [hsplit.start] at hchunks
  refine ⟨hsplit.sound, ?_, ?_, hsplit.sorted h.sorted⟩
  · rw [hsplit.start, hsplit.endAddr]
    simp only [layout_append, List.mem_append, total_append, total_blockChunks hle, total_cons,
      total_nil, Nat.add_zero] at htiles hfooters ⊢
    rintro u ((hu | hu) | hu) hhole hne
    · have hlo := le_of_mem_layout hu
      have hhi := end_le_of_mem_layout hu
      have hmin := h.minSize u.2 (by simp [snd_mem_of_mem_layout hu])
      exact (hfooters u (Or.inl (Or.inl hu)) hhole hne).frame
        (hsplit.sameLeft.mono (by omega) (by omega))
    · -- the one new hole is what is left behind the block
      by_cases hall : s = b
      · simp only [blockChunks, if_pos hall, layout_cons, layout_nil, List.mem_singleton] at hu
        rw [hu] at hhole
        simp at hhole
      · simp only [blockChunks, if_neg hall, layout_cons, layout_nil, List.mem_cons,
          List.not_mem_nil, or_false] at hu
        rcases hu with rfl | rfl
        · simp at hhole
        · have hfooter := hsplit.footer hall
          rwa [show k.heap.startAddress + total Chunk.size left + s - 8 =
            k.heap.startAddress + total Chunk.size left + b + (s - b) - 8 by omega] at hfooter
    · have hlo := le_of_mem_layout hu
      have hhi := end_le_of_mem_layout hu
      have hmin := h.minSize u.2 (by simp [snd_mem_of_mem_layout hu])
      exact (hfooters u (Or.inr hu) hhole hne).frame
        (hsplit.sameRight.mono (by omega) (by omega))
  · refine isChain_replace hold ?_ ?_ ?_ ?_ <;> unfold blockChunks
    · split <;> simp
    · split <;> simp [Separated]
    · intro x _ y hy _
      split at hy <;> simp at hy <;> rw [← hy]
    · intro x _ y hy _
      rw [List.append_assoc, List.isChain_append, List.singleton_append, List.isChain_cons] at hold
      exact hold.2.1.1 y hy rfl

/-- `alloc` has served a plain request of `size` bytes with the pointer `p`: out of the hole of `s`
bytes behind `left`, a smallest one that fits, as a block of `b` bytes. -/
structure ServedPlain (k : Kernel) (cs : List Chunk) (size : Nat) (left : List Chunk) (s : Nat)
    (right : List Chunk) (b p : Nat) (k' : Kernel) : Prop where
  hole : cs = left ++ [⟨s, true⟩] ++ right
  address : p = k.heap.startAddress + total Chunk.size left + 12
  smallest : ∀ c ∈ cs, c.hole = true → size + 20 ≤ c.size → s ≤ c.size
  room : size + 20 ≤ b
  inside : b ≤ s
  block : ChunkAt k'.mem (p - 12) ⟨b, false⟩
  free : ∀ u ∈ blocks k.heap.startAddress cs, u.1 + u.2 ≤ p - 12 ∨ p - 12 + b ≤ u.1
  others : ∀ u ∈ layout Chunk.size k.heap.startAddress cs, u ≠ (p - 12, ⟨s, true⟩) →
    SameOn u.1 (u.1 + u.2.size) k.mem k'.mem
  start : k'.heap.startAddress = k.heap.startAddress
  endAddr : k'.heap.endAddress = k.heap.endAddress
  intact : Intact k' (left ++ blockChunks b s ++ right)

theorem Split.servedPlain (h : Intact k (left ++ [⟨s, true⟩] ++ right))
    (hsplit : Split k left s right b k') (hroom : size + 20 ≤ b) (hle : b ≤ s)
    (hsmallest : ∀ c ∈ left ++ [⟨s, true⟩] ++ right, c.hole = true → size + 20 ≤ c.size →
      s ≤ c.size) :
    ServedPlain k (left ++ [⟨s, true⟩] ++ right) size left s right b
      (k.heap.startAddress + total Chunk.size left + 12) k' := by
  have hintact := hsplit.intact h hle
  have hchunks := hintact.chunksAt
  have htiles := h.tiles
  rw [hsplit.start] at hchunks
  have hself : (k.heap.startAddress + total Chunk.size left, (⟨s, true⟩ : Chunk)) ∈
      layout Chunk.size k.heap.startAddress (left ++ [⟨s, true⟩] ++ right) :=
    (mem_layout_iff Chunk.size).mpr ⟨left, right, by simp, rfl⟩
  refine ⟨rfl, rfl, hsmallest, hroom, hle, ?_, ?_, ?_, hsplit.start, hsplit.endAddr, hintact⟩ <;>
    rw [Nat.add_sub_cancel]
  · have hmid := (chunksAt_append.mp (chunksAt_append.mp hchunks).1).2
    unfold blockChunks at hmid
    split at hmid <;> exact (chunksAt_cons.mp hmid).1
  · rintro ⟨x, t⟩ hx
    obtain ⟨left', right', hcs, rfl⟩ := mem_blocks_iff.mp hx
    have hmem : (k.heap.startAddress + total Chunk.size left', (⟨t, false⟩ : Chunk)) ∈
        layout Chunk.size k.heap.startAddress (left ++ [⟨s, true⟩] ++ right) :=
      (mem_layout_iff Chunk.size).mpr ⟨left', right', hcs, rfl⟩
    rcases apart_of_mem_layout hmem hself with heq | hapart
    · simp at heq
    · simp only at hapart ⊢
      omega
  · intro u hu hne
    have hlo := le_of_mem_layout hu
    have hhi := end_le_of_mem_layout hu
    rcases apart_of_mem_layout hu hself with heq | hapart | hapart
    · exact absurd heq hne
    · exact hsplit.sameLeft.mono hlo hapart
    · exact hsplit.sameRight.mono hapart (by omega)

/-- The call finds a smallest hole, and carves the block out of it. -/
theorem Intact.alloc_served (h : Intact k cs) (fuel : Nat) (hsize : size + 20 < 4294967296)
    (hfits : SomeHoleFits (size + 20) cs) :
    ∃ left s right b p k', Kernel.alloc (fuel + 1) size 0 k = .ok (p, k') ∧
      ServedPlain k cs size left s right b p k' := by
  obtain ⟨it, hfind⟩ := h.find_of_fits hfits
  obtain ⟨hit, -, -⟩ := findSmallestHole_spec hfind
  obtain ⟨hroom, hsmallest⟩ := h.find_smallest hfind
  obtain ⟨left, right, hcs, haddr⟩ := h.hole_of_mem_entries (OrderedArray.lookup_mem hit)
  generalize headerSize k.mem (k.heap.index.lookup it k.mem) = s at hroom hsmallest hcs
  obtain rfl : cs = left ++ [⟨s, true⟩] ++ right := by simpa using hcs
  obtain ⟨hp, hsplit⟩ := h.carve_plain hit haddr hroom
  obtain ⟨hb, hrest⟩ := plainBlock_spec hroom
  have halloc := alloc_of_find fuel hsize hfind
  obtain ⟨p, k', hcarve⟩ : ∃ p k', Kernel.carveBlock it size (size + 20) 0 k = (p, k') :=
    ⟨_, _, rfl⟩
  rw [hcarve] at hp hsplit halloc
  obtain rfl := hp
  exact ⟨left, s, right, plainBlock size s, _, k', halloc,
    hsplit.servedPlain h hb (by omega) hsmallest⟩

/-- **A plain request that some hole fits** is served from a smallest one. -/
theorem alloc_plain (fuel : Nat) (h : Intact k cs) (hsize : size + 20 < 4294967296)
    (hfits : SomeHoleFits (size + 20) cs) :
    ∃ left s right b p k', Kernel.alloc (fuel + 1) size 0 k = .ok (p, k') ∧
      ServedPlain k cs size left s right b p k' :=
  h.alloc_served fuel hsize hfits

end Request

theorem Fresh.intact {s : HeapRun} (h : Fresh s) : Intact s.kernel [⟨0x7F000, true⟩] := by
  have hwf := h.inv.wellFormed
  have hsorted := h.orderInv.sorted
  obtain ⟨k, hkheap, hcreate, -⟩ := h
  rw [createKernelHeap_eq hkheap] at hcreate
  have hheap : s.kernel.heap =
      ⟨⟨kheapStart, 1, heapIndexSize⟩, 0xC0081000, 0xC0100000, 0xCFFFF000, 0, 0⟩ := by
    rw [← Except.ok.inj hcreate]
    exact insertHole_heap 0xC0081000 (unlistedHeap k)
  refine ⟨hwf.sound ?_ ?_, ?_, by simp, hsorted⟩
  · rw [hheap]
    decide
  · rw [hheap]
    decide
  · intro u hu _ hne
    simp only [layout_cons, layout_nil, List.mem_singleton] at hu
    rw [hheap] at hu hne
    rw [hu] at hne
    exact absurd (by decide) hne

/-- Six blocks of several sizes, and every second one freed. -/
def mixedCalls : List Call :=
  [.alloc 1 8 0, .alloc 1 8 0, .alloc 1 80 0, .alloc 1 8 0, .alloc 1 20 0, .alloc 1 8 0,
    .free 0xC008100C, .free 0xC0081044, .free 0xC00810C4]

/-- Four holes, with a block between any two. -/
def mixedHeap : HeapRun := (Run.runAll Call.step Call.Legal mixedCalls bareStart).getD bareStart

def mixedChunks : List Chunk :=
  [⟨28, true⟩, ⟨28, false⟩, ⟨100, true⟩, ⟨28, false⟩, ⟨40, true⟩, ⟨28, false⟩, ⟨0x7EF04, true⟩]

theorem mixedHeap_intact : Intact mixedHeap.kernel mixedChunks where
  end_lt := by decide +kernel
  tiles := by decide +kernel
  chunksAt := by decide +kernel
  index := by decide +kernel
  spare := by decide +kernel
  outside := Or.inl (by decide +kernel)
  footers := by decide +kernel
  apart := by simp [mixedChunks, Separated]
  sorted := by decide +kernel

/-- The first and the third hole are too small, the last one is larger than it need be. -/
theorem alloc_plain_mixedHeap : ∃ left s right b p k',
    Kernel.alloc 1 30 0 mixedHeap.kernel = .ok (p, k') ∧
      ServedPlain mixedHeap.kernel mixedChunks 30 left s right b p k' :=
  alloc_plain 0 mixedHeap_intact (by decide) (by decide)

end Vulcanos
