import Vulcanos.HeapAlloc

/-!
# The expansion step

When no hole fits a request `alloc` asks for more space, gives the new bytes to the hole with the
highest address, and tries again. What matters here is the heap in between.
-/

namespace Vulcanos

open Memory Word Layout

/-! ### More space -/

/-- What `expand` makes of a length, in arithmetic that does not wrap. -/
def roundedLength (x : Nat) : Nat := if x < 4096 then x else (x / 4096 + 1) * 4096

/-- The end of the heap after an expansion by a request of `size` bytes. -/
def grownEnd (size : Nat) (k : Kernel) : Nat :=
  k.heap.startAddress +
    roundedLength (k.heap.endAddress - k.heap.startAddress + add32 size
        (sizeofHeader + sizeofFooter))

/-- The addresses in `[lo, hi)` have page tables. -/
def TablesPresent (lo hi : Nat) (k : Kernel) : Prop :=
  ∀ a, lo ≤ a → a < hi → Kernel.lookupPage a k ≠ 0

section Expand

variable {k k1 k' : Kernel} {alloc : Kernel.Allocator}
    {newSize n it size page isSuper isWrite : Nat}

theorem nextPage_eq_rounded {x : Nat} (hx : roundedLength x < 4294967296) :
    Kernel.nextPage x = roundedLength x := by
  unfold roundedLength at hx
  unfold Kernel.nextPage roundedLength
  split at hx
  · rename_i hsmall
    rw [if_pos hsmall, if_neg (by rw [not_not, and_highMask_eq_zero_iff (by omega)]; exact hsmall)]
  · rename_i hsmall
    rw [if_neg hsmall, if_pos (by rw [ne_eq, and_highMask_eq_zero_iff (by omega)]; exact hsmall),
      and_highMask (by omega), add32_eq (by omega)]
    omega

theorem roundedLength_ge (x : Nat) : x ≤ roundedLength x := by
  unfold roundedLength
  split <;> omega

theorem lookupPage_congr (hdirectory : k'.directory = k.directory) (a : Nat) :
    Kernel.lookupPage a k' = Kernel.lookupPage a k := by
  unfold Kernel.lookupPage
  rw [hdirectory]

theorem allocFrameAt_directory (h : Kernel.allocFrameAt page isSuper isWrite k = .ok k') :
    k'.directory = k.directory := by
  unfold Kernel.allocFrameAt at h
  simp only [bind_eq_ok, Except.ok.injEq] at h
  obtain ⟨r, -, rfl⟩ := h
  rfl

theorem expandLoop_present (hend : k.heap.startAddress + newSize < 4294967296)
    (hlt : newSize + 4096 ≤ 4294967296)
    (htables : TablesPresent (k.heap.startAddress + it) (k.heap.startAddress + newSize) k)
    (hloop : Kernel.expandLoop alloc newSize n it k = .ok k') :
    k'.mem = k.mem ∧ k'.heap = k.heap := by
  induction n generalizing it k with
  | zero =>
      obtain rfl := Except.ok.inj hloop
      exact ⟨rfl, rfl⟩
  | succ n ih =>
      rw [Kernel.expandLoop] at hloop
      split at hloop
      · rename_i hit
        simp only [bind_eq_ok] at hloop
        obtain ⟨⟨page, k1⟩, hget, k2, hframe, hloop⟩ := hloop
        dsimp only at hframe hloop
        rw [add32_eq (by omega)] at hget
        have hpage := htables (k.heap.startAddress + it) (Nat.le_refl _) (by omega)
        rw [Kernel.getPage, if_pos hpage] at hget
        obtain ⟨-, rfl⟩ := Prod.mk.inj (Except.ok.inj hget)
        obtain ⟨hmem, hheap⟩ := allocFrameAt_eq hframe
        rw [add32_eq (by omega)] at hloop
        have hrest := ih (by rw [hheap]; exact hend) (by
          intro a hlo hhi
          rw [hheap] at hlo hhi
          rw [lookupPage_congr (allocFrameAt_directory hframe)]
          exact htables a (by omega) hhi) hloop
        rwa [hmem, hheap] at hrest
      · obtain rfl := Except.ok.inj hloop
        exact ⟨rfl, rfl⟩

theorem expand_present (hle : k.heap.startAddress ≤ k.heap.endAddress)
    (hlt : k.heap.endAddress < 4294967296) (hgrown : grownEnd size k < 4294967296)
    (htables : TablesPresent k.heap.endAddress (grownEnd size k) k)
    (hexpand : Kernel.expand alloc (add32 (sub32 k.heap.endAddress k.heap.startAddress)
      (add32 size (sizeofHeader + sizeofFooter))) k = .ok k1) :
    k.heap.endAddress < grownEnd size k ∧ k1.mem = k.mem ∧
      k1.heap = { k.heap with endAddress := grownEnd size k } := by
  unfold grownEnd at hgrown htables ⊢
  generalize add32 size (sizeofHeader + sizeofFooter) = n at hgrown htables hexpand ⊢
  obtain ⟨hmore, -, k2, hloop, rfl⟩ := expand_eq hexpand
  have hge := roundedLength_ge (k.heap.endAddress - k.heap.startAddress + n)
  have hsum : add32 (k.heap.endAddress - k.heap.startAddress) n =
      k.heap.endAddress - k.heap.startAddress + n := add32_eq (by omega)
  have hnext := nextPage_eq_rounded (show
    roundedLength (k.heap.endAddress - k.heap.startAddress + n) < 4294967296 by omega)
  rw [sub32_eq hle hlt, hsum] at hmore
  rw [sub32_eq hle hlt, hsum, hnext] at hloop ⊢
  have hround : roundedLength
      (k.heap.endAddress - k.heap.startAddress + n) + 4096 ≤ 4294967296 := by
    unfold roundedLength at hgrown ⊢
    split at hgrown
    · rename_i hsmall
      rw [if_pos hsmall]
      omega
    · rename_i hsmall
      rw [if_neg hsmall]
      omega
  obtain ⟨hmem, hheap⟩ := expandLoop_present (by omega) hround (by
    rw [Nat.add_sub_cancel' hle]
    exact htables) hloop
  refine ⟨by omega, ?_, ?_⟩
  · rw [withEnd_mem, hmem]
  · rw [withEnd_heap, hheap, add32_eq (by omega)]

end Expand

/-! ### Where the new bytes go -/

/-- The heap `k'` of the step is the heap `k` of the chunks `cs` with more space: each chunk has its
header still, with the size it had unless it is a hole at the old end, and the new bytes are those
of one listed hole that reaches to the new end. -/
structure SpaceAdded (k : Kernel) (cs : List Chunk) (k' : Kernel) : Prop where
  kept : ∀ u ∈ layout Chunk.size k.heap.startAddress cs,
    headerMagic k'.mem u.1 = heapMagic ∧ headerIsHole k'.mem u.1 = u.2.hole.toNat ∧
      (¬ (u.2.hole = true ∧ u.1 + u.2.size = k.heap.endAddress) →
        headerSize k'.mem u.1 = u.2.size)
  space : ∃ x ∈ k'.heap.index.entries k'.mem, ∃ n, x ≤ k.heap.endAddress ∧
    x + n = k'.heap.endAddress ∧ ChunkAt k'.mem x ⟨n, true⟩ ∧
    ∀ y ∈ k'.heap.index.entries k'.mem, y ≠ x →
      y + headerSize k'.mem y ≤ k.heap.endAddress

/-- The highest hole of the index is at the end of the heap; or there is no hole, but for one at
address 0, which the scan of the index takes for none, and the new bytes are enough for a chunk. -/
def GrowsRight (newEnd : Nat) (k : Kernel) : Prop :=
  (∃ x ∈ k.heap.index.entries k.mem, x + headerSize k.mem x = k.heap.endAddress) ∨
    (∀ x ∈ k.heap.index.entries k.mem, x = 0) ∧ k.heap.endAddress + 20 ≤ newEnd

instance (newEnd : Nat) (k : Kernel) : Decidable (GrowsRight newEnd k) := by
  unfold GrowsRight
  infer_instance

section Grow

variable {k k1 : Kernel} {cs : List Chunk} {newEnd idx : Nat}

variable (h : Tiled k cs) (hmem : k1.mem = k.mem)
  (hheap : k1.heap = { k.heap with endAddress := newEnd }) (hmore : k.heap.endAddress < newEnd)
  (hlt : newEnd < 4294967296)

include h hmem hheap hmore hlt

theorem growHoles_some
    (hscan : Kernel.highestHole k1 k1.heap.index.size 0 none 0 = some idx)
    (hidx : idx < k.heap.index.size) :
    Kernel.growHoles (sub32 k.heap.endAddress k.heap.startAddress) k.heap.endAddress k1 =
      { k1 with
        mem := writeFooter
          (write32 k.mem (k.heap.index.lookup idx k.mem + 8)
            (headerSize k.mem (k.heap.index.lookup idx k.mem) + (newEnd - k.heap.endAddress)))
          (k.heap.index.lookup idx k.mem + headerSize k.mem (k.heap.index.lookup idx k.mem)
            + (newEnd - k.heap.endAddress) - 8) (k.heap.index.lookup idx k.mem) } := by
  have htiles := h.tiles
  obtain ⟨-, hhi, hmin⟩ := h.entry_bounds (OrderedArray.lookup_mem hidx)
  have hgrowth : sub32 (sub32 newEnd k.heap.startAddress)
      (sub32 k.heap.endAddress k.heap.startAddress) = newEnd - k.heap.endAddress := by
    unfold sub32
    omega
  have hindex : k1.heap.index = k.heap.index := by rw [hheap]
  unfold Kernel.growHoles
  rw [hscan]
  simp only [hindex, hmem]
  rw [show k1.heap.endAddress = newEnd by rw [hheap],
    show k1.heap.startAddress = k.heap.startAddress by rw [hheap], hgrowth]
  generalize k.heap.index.lookup idx k.mem = x at hhi hmin ⊢
  rw [add32_eq (by omega), add32_eq (by omega), sub32_eq (by unfold sizeofFooter; omega) (by omega)]
  unfold sizeofFooter
  rw [← Nat.add_assoc]

theorem growHoles_none
    (hscan : Kernel.highestHole k1 k1.heap.index.size 0 none 0 = none) :
    Kernel.growHoles (sub32 k.heap.endAddress k.heap.startAddress) k.heap.endAddress k1 =
      Kernel.insertHole k.heap.endAddress { k1 with
        mem := writeFooter (writeHeader k.mem k.heap.endAddress 1 (newEnd - k.heap.endAddress))
          (sub32 newEnd 8) k.heap.endAddress } := by
  have htiles := h.tiles
  have hgrowth : sub32 (sub32 newEnd k.heap.startAddress)
      (sub32 k.heap.endAddress k.heap.startAddress) = newEnd - k.heap.endAddress := by
    unfold sub32
    omega
  unfold Kernel.growHoles
  rw [hscan]
  dsimp only
  rw [show k1.heap.endAddress = newEnd by rw [hheap],
    show k1.heap.startAddress = k.heap.startAddress by rw [hheap], hgrowth, hmem]
  rw [add32_eq (by omega), show k.heap.endAddress + (newEnd - k.heap.endAddress) = newEnd by omega]
  rfl

omit h hmore hlt in
/-- The scan of the index finds an entry that none exceeds, or nothing but zeros. -/
theorem scan_spec :
    (Kernel.highestHole k1 k1.heap.index.size 0 none 0 = none ∧
        ∀ x ∈ k.heap.index.entries k.mem, x = 0) ∨
      ∃ i, Kernel.highestHole k1 k1.heap.index.size 0 none 0 = some i ∧ i < k.heap.index.size ∧
        0 < k.heap.index.lookup i k.mem ∧
        ∀ x ∈ k.heap.index.entries k.mem, x ≤ k.heap.index.lookup i k.mem := by
  have hindex : k1.heap.index = k.heap.index := by rw [hheap]
  have hspec := highestHole_spec k1 k1.heap.index.size 0 none 0 (by simp)
  simp only [hindex, hmem, Nat.zero_add] at hspec ⊢
  rcases hspec with ⟨hnone, hle⟩ | ⟨i, hsome, -, hi, hpos, hle⟩
  · refine Or.inl ⟨hnone, fun x hx => ?_⟩
    obtain ⟨j, hj, rfl⟩ := List.mem_map.mp hx
    have hzero := hle j (Nat.zero_le j) (List.mem_range.mp hj)
    rw [OrderedArray.lookup] at hzero
    omega
  · refine Or.inr ⟨i, hsome, hi, hpos, fun x hx => ?_⟩
    obtain ⟨j, hj, rfl⟩ := List.mem_map.mp hx
    exact hle j (Nat.zero_le j) (List.mem_range.mp hj)

end Grow

section Space

variable {k k1 : Kernel} {cs : List Chunk} {newEnd idx : Nat}

variable (h : Sound k cs) (hmem : k1.mem = k.mem)
  (hheap : k1.heap = { k.heap with endAddress := newEnd }) (hmore : k.heap.endAddress < newEnd)
  (hlt : newEnd < 4294967296) (hout : IndexOutside k.heap.startAddress newEnd k)

include h hmem hheap hmore hlt hout

/-- The hole with the highest address gets the new bytes, and that is right when it is the last
chunk. -/
theorem spaceAdded_some_iff
    (hscan : Kernel.highestHole k1 k1.heap.index.size 0 none 0 = some idx)
    (hidx : idx < k.heap.index.size) :
    SpaceAdded k cs
        (Kernel.growHoles (sub32 k.heap.endAddress k.heap.startAddress) k.heap.endAddress k1) ↔
      k.heap.index.lookup idx k.mem + headerSize k.mem (k.heap.index.lookup idx k.mem) =
        k.heap.endAddress := by
  rw [growHoles_some h.tiled hmem hheap hmore hlt hscan hidx]
  have hentry := OrderedArray.lookup_mem (m := k.mem) hidx
  obtain ⟨hlo, hhi, hmin⟩ := h.entry_bounds hentry
  obtain ⟨left, right, hcs, haddr⟩ := h.hole_of_mem_entries hentry
  generalize k.heap.index.lookup idx k.mem = x at hentry hlo hhi hmin hcs haddr ⊢
  obtain ⟨s, hs⟩ : ∃ s, s = headerSize k.mem x := ⟨_, rfl⟩
  rw [← hs] at hhi hmin hcs ⊢
  have hself : (x, (⟨s, true⟩ : Chunk)) ∈ layout Chunk.size k.heap.startAddress cs :=
    (mem_layout_iff Chunk.size).mpr ⟨left, right, hcs, haddr⟩
  have hold : HeaderAt k.mem x true s := (h.chunksAt _ hself).header
  obtain ⟨hheader2, -, hsame2⟩ := hold.resize
    (show x + s + (newEnd - k.heap.endAddress) - 8 + 8 = x + (s + (newEnd - k.heap.endAddress)) by
      omega) (by omega) (by omega)
  generalize writeFooter (write32 k.mem (x + 8) (s + (newEnd - k.heap.endAddress)))
    (x + s + (newEnd - k.heap.endAddress) - 8) x = m2 at hheader2 hsame2 ⊢
  constructor
  · intro hadded
    -- the hole has another size than before, so it was at the end
    by_contra hne
    have hkept := (hadded.kept _ hself).2.2 fun hcon => hne hcon.2
    have hsize : headerSize m2 x = s + (newEnd - k.heap.endAddress) := hheader2.size
    simp only at hkept
    omega
  · intro hend
    have hsame : SameOutside x newEnd k.mem m2 := hsame2.mono (by omega) (by omega)
    have hentries : k.heap.index.entries m2 = k.heap.index.entries k.mem :=
      entries_of_sameOutside (Nat.le_of_lt h.spare) hout (hsame.mono hlo (Nat.le_refl _))
    have hindex : k1.heap.index = k.heap.index := by rw [hheap]
    have hsplit : Sound k (left ++ ⟨s, true⟩ :: right) := hcs ▸ h
    refine ⟨fun u hu => ?_, ?_⟩
    · rcases apart_of_mem_layout hu hself with rfl | hapart | hapart
      · exact ⟨hheader2.magic, hheader2.isHole, fun hnot => absurd ⟨rfl, hend⟩ hnot⟩
      · have hu' := (h.chunksAt u hu)
        have hminu := hu'.minSize
        have hheader := hu'.header.frame (hsame.sameOn (Or.inl (by simp only at hapart; omega)))
        exact ⟨hheader.magic, hheader.isHole, fun _ => hheader.size⟩
      · have htiles := h.tiles
        have hle := end_le_of_mem_layout hu
        have hminu := (h.chunksAt u hu).minSize
        simp only at hapart
        omega
    · simp only [hindex, hentries]
      refine ⟨x, hentry, s + (newEnd - k.heap.endAddress), by omega, ?_, ?_, fun y hy hne => ?_⟩
      · rw [hheap]
        simp only
        omega
      · exact ⟨by simp only; omega, hheader2, fun hcon => by simp at hcon⟩
      · have hbounds := h.entry_bounds hy
        have hapart := hsplit.entry_apart hy (by rwa [← haddr])
        rw [← haddr] at hapart
        simp only at hapart
        have hheader : SameOn y (y + 12) k.mem m2 := hsame.sameOn (Or.inl (by omega))
        have hsize : headerSize m2 y = headerSize k.mem y :=
          hheader.read32 (by omega) (by omega)
        rw [hsize]
        omega

/-- The new bytes become a hole of their own, and that is right when they are enough for one. -/
theorem spaceAdded_none_iff
    (hscan : Kernel.highestHole k1 k1.heap.index.size 0 none 0 = none)
    (hbig : k.heap.index.size ≠ 0 → k.heap.endAddress + 20 ≤ newEnd) :
    SpaceAdded k cs
        (Kernel.growHoles (sub32 k.heap.endAddress k.heap.startAddress) k.heap.endAddress k1) ↔
      k.heap.endAddress + 20 ≤ newEnd := by
  rw [growHoles_none h.tiled hmem hheap hmore hlt hscan]
  have htiles := h.tiles
  obtain ⟨m2, hm2⟩ : ∃ m2, m2 = writeFooter (writeHeader k.mem k.heap.endAddress 1
    (newEnd - k.heap.endAddress)) (sub32 newEnd 8) k.heap.endAddress := ⟨_, rfl⟩
  rw [← hm2]
  obtain ⟨k2, hk2⟩ : ∃ k2 : Kernel, k2 = { k1 with mem := m2 } := ⟨_, rfl⟩
  have hmem2 : k2.mem = m2 := by rw [hk2]
  have hheap2 : k2.heap = { k.heap with endAddress := newEnd } := by rw [hk2, ← hheap]
  have hindex2 : k2.heap.index = k.heap.index := by rw [hheap2]
  rw [← hk2]
  have hheap3 := insertHole_heap k.heap.endAddress k2
  have hperm := perm_insertHole k.heap.endAddress k2 h.end_lt
  rw [hheap2] at hheap3
  rw [hindex2, hmem2] at hperm
  constructor
  · rintro ⟨-, x, hx, n, -, hend, hchunk, -⟩
    by_cases hempty : k.heap.index.size = 0
    · -- the new hole is the only entry
      have hnone : k.heap.index.entries m2 = [] := by
        unfold OrderedArray.entries
        rw [hempty]
        rfl
      rw [hnone] at hperm
      obtain rfl : x = k.heap.endAddress := by simpa using hperm.mem_iff.mp hx
      have hmin := hchunk.minSize
      rw [hheap3] at hend
      simp only at hmin hend
      omega
    · exact hbig hempty
  · intro henough
    have hfoot : sub32 newEnd 8 = newEnd - 8 := sub32_eq (by omega) hlt
    rw [hfoot] at hm2
    have hsame : SameOutside k.heap.endAddress newEnd k.mem m2 := by
      rw [hm2]
      exact ((SameOutside.refl _ _ _).writeHeader (Nat.le_refl _) (by omega)).writeFooter
        (by omega) (by omega)
    have hheader : HeaderAt m2 k.heap.endAddress true (newEnd - k.heap.endAddress) := by
      rw [hm2]
      exact headerAt_of_writeFooter (headerAt_writeHeader k.mem k.heap.endAddress true (by omega))
        (Or.inl (by omega))
    have hentries : k.heap.index.entries m2 = k.heap.index.entries k.mem :=
      entries_of_sameOutside (Nat.le_of_lt h.spare) hout (hsame.mono (by omega) (Nat.le_refl _))
    have hins : SameOn k.heap.startAddress newEnd m2
        (Kernel.insertHole k.heap.endAddress k2).mem := by
      rw [← hmem2]
      exact insertHole_sameOn (by rw [hindex2]; exact h.spare) (hout.congr hindex2)
    have hleft : SameOn k.heap.startAddress k.heap.endAddress k.mem
        (Kernel.insertHole k.heap.endAddress k2).mem :=
      (hsame.sameOn (Or.inl (Nat.le_refl _))).trans (hins.mono (Nat.le_refl _) (by omega))
    rw [hentries] at hperm
    refine ⟨fun u hu => ?_, ?_⟩
    · have hlo := le_of_mem_layout hu
      have hhi := end_le_of_mem_layout hu
      have hchunk := h.chunksAt u hu
      have hmin := hchunk.minSize
      have hheader' := hchunk.header.frame (hleft.mono hlo (by omega))
      exact ⟨hheader'.magic, hheader'.isHole, fun _ => hheader'.size⟩
    · refine ⟨k.heap.endAddress, hperm.mem_iff.mpr List.mem_cons_self,
        newEnd - k.heap.endAddress, Nat.le_refl _, ?_, ?_, fun y hy hne => ?_⟩
      · rw [hheap3]
        simp only
        omega
      · exact ⟨by simp only; omega, hheader.frame (hins.mono (by omega) (by omega)),
          fun hcon => by simp at hcon⟩
      · have hy' := (List.mem_cons.mp (hperm.mem_iff.mp hy)).resolve_left hne
        obtain ⟨hlo, hhi, hmin⟩ := h.entry_bounds hy'
        have hsize : headerSize (Kernel.insertHole k.heap.endAddress k2).mem y =
            headerSize k.mem y := hleft.read32 (by omega) (by omega)
        rw [hsize]
        exact hhi

/-- **The expansion step** adds the new bytes as it should exactly when the heap grows to the right
of its highest hole. -/
theorem spaceAdded_iff (hbig : k.heap.index.size ≠ 0 → k.heap.endAddress + 20 ≤ newEnd) :
    SpaceAdded k cs
        (Kernel.growHoles (sub32 k.heap.endAddress k.heap.startAddress) k.heap.endAddress k1) ↔
      GrowsRight newEnd k := by
  rcases scan_spec hmem hheap with ⟨hscan, hzero⟩ | ⟨i, hscan, hi, hpos, hmax⟩
  · rw [spaceAdded_none_iff h hmem hheap hmore hlt hout hscan hbig]
    constructor
    · exact fun henough => Or.inr ⟨hzero, henough⟩
    · rintro (⟨x, hx, -⟩ | ⟨-, henough⟩)
      · -- an entry is a slot of the index
        obtain ⟨j, hj, -⟩ := List.mem_map.mp hx
        have hlt := List.mem_range.mp hj
        exact hbig (by omega)
      · exact henough
  · rw [spaceAdded_some_iff h hmem hheap hmore hlt hout hscan hi]
    have hentry := OrderedArray.lookup_mem (m := k.mem) hi
    constructor
    · exact fun hend => Or.inl ⟨_, hentry, hend⟩
    · rintro (⟨x, hx, hend⟩ | ⟨hzero, -⟩)
      · -- a hole at the end is higher than any other
        obtain ⟨left, right, hcs, haddr⟩ := h.hole_of_mem_entries hx
        obtain ⟨-, hhi, hmin⟩ := h.entry_bounds hentry
        have hle := hmax x hx
        have hsplit : Sound k (left ++ ⟨headerSize k.mem x, true⟩ :: right) := hcs ▸ h
        by_cases hsame : k.heap.index.lookup i k.mem = x
        · rw [hsame]
          exact hend
        · have hapart := hsplit.entry_apart hentry (by rwa [← haddr])
          rw [← haddr] at hapart
          simp only at hapart
          omega
      · have hnot := hzero _ hentry
        omega

end Space

section Request

variable {k k1 : Kernel} {cs : List Chunk} {size : Nat}

/-- What a request that fits no hole asks for is enough for a chunk when there is a hole at all. -/
theorem grownEnd_ge (h : Sound k cs)
    (hnone : Kernel.findSmallestHole (add32 size (sizeofHeader + sizeofFooter)) 0 k = none)
    (hsize : k.heap.index.size ≠ 0) : k.heap.endAddress + 20 ≤ grownEnd size k := by
  have htiles := h.tiles
  have hpos : 0 < k.heap.index.size := Nat.pos_of_ne_zero hsize
  obtain ⟨-, -, hmin⟩ := h.entry_bounds (OrderedArray.lookup_mem (m := k.mem) hpos)
  have hnot := findSmallestHole_none hnone 0 hpos
  rw [holeFits_plain, decide_eq_true_eq] at hnot
  have hge := roundedLength_ge
    (k.heap.endAddress - k.heap.startAddress + add32 size (sizeofHeader + sizeofFooter))
  unfold grownEnd
  omega

/-- **A plain request that no hole fits**, in a heap that has the space and the page tables: the
step before the retry adds the new bytes as it should exactly when the heap grows to the right of
its highest hole. -/
theorem alloc_spaceAdded_iff (fuel : Nat) (h : Sound k cs)
    (hout : IndexOutside k.heap.startAddress k.heap.maxAddress k)
    (hmax : k.heap.maxAddress < 4294967296) (hroom : grownEnd size k ≤ k.heap.maxAddress)
    (htables : TablesPresent k.heap.endAddress (grownEnd size k) k)
    (hnone : Kernel.findSmallestHole (add32 size (sizeofHeader + sizeofFooter)) 0 k = none)
    (hexpand : Kernel.expand (Kernel.alloc fuel)
      (add32 (sub32 k.heap.endAddress k.heap.startAddress)
        (add32 size (sizeofHeader + sizeofFooter))) k = .ok k1) :
    Kernel.alloc (fuel + 1) size 0 k = Kernel.alloc fuel size 0 (Kernel.growHoles
        (sub32 k.heap.endAddress k.heap.startAddress) k.heap.endAddress k1) ∧
      (SpaceAdded k cs (Kernel.growHoles
          (sub32 k.heap.endAddress k.heap.startAddress) k.heap.endAddress k1) ↔
        GrowsRight (grownEnd size k) k) := by
  have htiles := h.tiles
  obtain ⟨hmore, hmem, hheap⟩ :=
    expand_present (by omega) h.end_lt (by omega) htables hexpand
  constructor
  · rw [Kernel.alloc]
    simp only [hnone, hexpand, ok_bind]
  · refine spaceAdded_iff h hmem hheap hmore (by omega) ?_ (grownEnd_ge h hnone)
    unfold IndexOutside at hout ⊢
    omega

end Request

/-! ### A heap that ends in a block -/

/-- Two chunks: a hole that is as small as can be, and a block behind it. -/
def blockLastMem : Mem :=
  write32
    (writeFooter
      (writeHeader (writeFooter (writeHeader (fun _ => 0) 0xC0081000 1 20) 0xC008100C 0xC0081000)
        0xC0081014 0 4076)
      0xC0081FF8 0xC0081014)
    0xC0000000 0xC0081000

def blockLastKernel : Kernel :=
  { bareKernel with
    mem := blockLastMem
    kheap := 0x200000
    heap := ⟨⟨0xC0000000, 1, 0x20000⟩, 0xC0081000, 0xC0082000, 0xCFFFF000, 0, 0⟩ }

theorem blockLastKernel_intact : Intact blockLastKernel [⟨20, true⟩, ⟨4076, false⟩] where
  end_lt := by decide
  tiles := by decide
  chunksAt := by
    refine chunksAt_cons.mpr ⟨⟨by decide, ?_, by simp⟩, chunksAt_cons.mpr ⟨⟨by decide, ?_, ?_⟩,
      chunksAt_nil⟩⟩
    · exact ⟨by decide +kernel, by decide +kernel, by decide +kernel⟩
    · exact ⟨by decide +kernel, by decide +kernel, by decide +kernel⟩
    · exact fun _ => ⟨by decide +kernel, by decide +kernel⟩
  index := by
    have hentries : blockLastKernel.heap.index.entries blockLastKernel.mem = [0xC0081000] := by
      decide +kernel
    rw [hentries]
    decide
  spare := by decide
  outside := Or.inl (by decide)
  footers := by
    intro u hu hhole _
    simp only [layout_cons, layout_nil, List.mem_cons, List.not_mem_nil, or_false] at hu
    rcases hu with rfl | rfl
    · exact ⟨by decide +kernel, by decide +kernel⟩
    · simp at hhole
  apart := by simp [Separated]
  sorted := by decide +kernel

theorem blockLastKernel_tables :
    TablesPresent blockLastKernel.heap.endAddress (grownEnd 8 blockLastKernel) blockLastKernel := by
  intro a hlo hhi
  have hlo' : 0xC0082000 ≤ a := hlo
  have hhi' : a < 0xC0083000 := hhi
  have htable : a / 0x1000 / 1024 = 768 := by omega
  unfold Kernel.lookupPage
  simp only [htable]
  rw [if_pos (by decide)]
  have hpos : blockLastKernel.directory.pageTablesVirtual 768 = 0x180000 := rfl
  omega

theorem blockLastKernel_expand : ∃ k1, Kernel.expand (Kernel.alloc 1)
    (add32 (sub32 blockLastKernel.heap.endAddress blockLastKernel.heap.startAddress)
      (add32 8 (sizeofHeader + sizeofFooter))) blockLastKernel = .ok k1 := by
  have hok : (Kernel.expand (Kernel.alloc 1)
      (add32 (sub32 blockLastKernel.heap.endAddress blockLastKernel.heap.startAddress)
        (add32 8 (sizeofHeader + sizeofFooter))) blockLastKernel).isOk = true := by decide +kernel
  generalize Kernel.expand _ _ _ = r at hok
  cases r with
  | ok k1 => exact ⟨k1, rfl⟩
  | error stop => simp [Except.isOk, Except.toBool] at hok

theorem alloc_spaceAdded_iff_blockLastKernel : ∃ k1,
    Kernel.alloc 2 8 0 blockLastKernel = Kernel.alloc 1 8 0 (Kernel.growHoles
        (sub32 blockLastKernel.heap.endAddress blockLastKernel.heap.startAddress)
        blockLastKernel.heap.endAddress k1) ∧
      (SpaceAdded blockLastKernel [⟨20, true⟩, ⟨4076, false⟩] (Kernel.growHoles
          (sub32 blockLastKernel.heap.endAddress blockLastKernel.heap.startAddress)
          blockLastKernel.heap.endAddress k1) ↔
        GrowsRight (grownEnd 8 blockLastKernel) blockLastKernel) := by
  obtain ⟨k1, hk1⟩ := blockLastKernel_expand
  exact ⟨k1, alloc_spaceAdded_iff 1 blockLastKernel_intact.toSound (Or.inl (by decide))
    (by decide) (by decide) blockLastKernel_tables (by decide +kernel) hk1⟩

/-- The 20-byte hole in front takes the new page into its size, and with it the block behind. -/
theorem not_spaceAdded_of_intact : ¬ ∀ k cs size k1, Intact k cs →
    IndexOutside k.heap.startAddress k.heap.maxAddress k → k.heap.maxAddress < 4294967296 →
    grownEnd size k ≤ k.heap.maxAddress →
    TablesPresent k.heap.endAddress (grownEnd size k) k →
    Kernel.findSmallestHole (add32 size (sizeofHeader + sizeofFooter)) 0 k = none →
    Kernel.expand (Kernel.alloc 1) (add32 (sub32 k.heap.endAddress k.heap.startAddress)
      (add32 size (sizeofHeader + sizeofFooter))) k = .ok k1 →
    SpaceAdded k cs (Kernel.growHoles (sub32 k.heap.endAddress k.heap.startAddress)
      k.heap.endAddress k1) := by
  intro hall
  obtain ⟨k1, hk1⟩ := blockLastKernel_expand
  have hadded := hall _ _ 8 k1 blockLastKernel_intact (Or.inl (by decide)) (by decide) (by decide)
    blockLastKernel_tables (by decide +kernel) hk1
  obtain ⟨hmore, hmem, hheap⟩ :=
    expand_present (by decide) (by decide) (by decide) blockLastKernel_tables hk1
  have hgrows := (spaceAdded_iff blockLastKernel_intact.toSound hmem hheap hmore (by decide)
    (Or.inl (by decide)) (fun _ => by decide)).mp hadded
  exact absurd hgrows (by decide +kernel)

end Vulcanos
