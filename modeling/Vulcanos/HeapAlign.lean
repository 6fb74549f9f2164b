import Vulcanos.HeapAlloc

/-!
# One page-aligned request

`find_smallest_hole` and `alloc` each work out the padding in front of a page-aligned block, and
they do it differently. `alloc` also decides whether the rest of the hole is worth keeping before it
takes the padding off. What comes of it depends on where in its page the hole begins.
-/

namespace Vulcanos

open Memory Word Layout

/-- A hole of `n` bytes at `x`, with room for a header and a footer, that the index lists. -/
structure ListedHole (k : Kernel) (x n : Nat) : Prop where
  chunk : ChunkAt k.mem x ⟨n, true⟩
  listed : x ∈ k.heap.index.entries k.mem

/-- The block behind `p` lies inside the hole of `s` bytes at `a`, and what it leaves of the hole in
front and behind, if anything, are holes in the index. -/
structure CutInside (a s p : Nat) (k : Kernel) : Prop where
  lower : a ≤ sub32 p 12
  upper : sub32 p 12 + headerSize k.mem (sub32 p 12) ≤ a + s
  before : sub32 p 12 = a ∨ ListedHole k a (sub32 p 12 - a)
  after : sub32 p 12 + headerSize k.mem (sub32 p 12) = a + s ∨
    ListedHole k (sub32 p 12 + headerSize k.mem (sub32 p 12))
      (a + s - (sub32 p 12 + headerSize k.mem (sub32 p 12)))

/-- A hole of `s` bytes at `a` can be cut for an aligned block of `n` bytes: it is in the first page
or its data is on a page boundary, and the block fits; or the front part can hold a header and the
footer that `alloc` puts four bytes too low, the block fits behind it, and the rest is nothing or
large enough. -/
def AlignedCut (a s n : Nat) : Prop :=
  (a < 4096 ∨ a % 4096 = 4084) ∧ n ≤ s ∨ 4096 ≤ a ∧ AlignFits a s n

instance (a s n : Nat) : Decidable (AlignedCut a s n) := by
  unfold AlignedCut
  infer_instance

/-! ### What `alloc` writes -/

section Write

variable {k : Kernel} {size n p s lo hi foot hole holeFoot : Nat}

theorem writeBlock_fst (size n p s : Nat) (k : Kernel) :
    (Kernel.writeBlock size n p s k).1 = add32 p sizeofHeader := by
  unfold Kernel.writeBlock
  dsimp only

theorem writeBlock_snd (hfoot : foot = add32 (add32 p sizeofHeader) size)
    (hhole : hole = add32 foot sizeofFooter)
    (hholeFoot : holeFoot = sub32 (add32 hole (sub32 s n)) sizeofFooter) :
    (Kernel.writeBlock size n p s k).2 =
      if sub32 s n > 0 then
        Kernel.insertHole hole { k with
          mem := if holeFoot < k.heap.endAddress then
              writeFooter (writeHeader (writeFooter (writeHeader k.mem p 0 n) foot p) hole 1
                (sub32 s n)) holeFoot hole
            else writeHeader (writeFooter (writeHeader k.mem p 0 n) foot p) hole 1 (sub32 s n) }
      else { k with mem := writeFooter (writeHeader k.mem p 0 n) foot p } := by
  rw [hholeFoot, hhole, hfoot]
  unfold Kernel.writeBlock
  dsimp only

/-- Bytes that no write behind the block's header reaches, the footer of the rest aside: they keep
what the header leaves, or what that footer makes of it. -/
theorem writeBlock_sameOn (hfoot : foot = add32 (add32 p sizeofHeader) size)
    (hhole : hole = add32 foot sizeofFooter)
    (hholeFoot : holeFoot = sub32 (add32 hole (sub32 s n)) sizeofFooter)
    (hfootApart : hi ≤ foot ∨ foot + 8 ≤ lo) (hholeApart : hi ≤ hole ∨ hole + 12 ≤ lo)
    (hspare : k.heap.index.size < k.heap.index.maxSize) (hout : IndexOutside lo hi k) :
    SameOn lo hi (writeHeader k.mem p 0 n) (Kernel.writeBlock size n p s k).2.mem ∨
      ∃ m, SameOn lo hi (writeHeader k.mem p 0 n) m ∧
        SameOn lo hi (writeFooter m holeFoot hole) (Kernel.writeBlock size n p s k).2.mem := by
  have hsame2 : SameOn lo hi (writeHeader k.mem p 0 n)
      (writeFooter (writeHeader k.mem p 0 n) foot p) :=
    ((SameOutside.refl foot (foot + 8) _).writeFooter (Nat.le_refl _)
      (Nat.le_refl _)).sameOn hfootApart
  have hsame3 : SameOn lo hi (writeFooter (writeHeader k.mem p 0 n) foot p)
      (writeHeader (writeFooter (writeHeader k.mem p 0 n) foot p) hole 1 (sub32 s n)) :=
    ((SameOutside.refl hole (hole + 12) _).writeHeader (Nat.le_refl _)
      (Nat.le_refl _)).sameOn hholeApart
  rw [writeBlock_snd hfoot hhole hholeFoot]
  split
  · split
    · right
      refine ⟨_, hsame2.trans hsame3, ?_⟩
      exact insertHole_sameOn hspare (hout.congr rfl)
    · left
      refine (hsame2.trans hsame3).trans ?_
      exact insertHole_sameOn hspare (hout.congr rfl)
  · exact Or.inl hsame2

/-- Bytes that no write behind the block's header reaches keep what the header leaves. -/
theorem writeBlock_keeps (hfoot : foot = add32 (add32 p sizeofHeader) size)
    (hhole : hole = add32 foot sizeofFooter)
    (hholeFoot : holeFoot = sub32 (add32 hole (sub32 s n)) sizeofFooter)
    (hfootApart : hi ≤ foot ∨ foot + 8 ≤ lo) (hholeApart : hi ≤ hole ∨ hole + 12 ≤ lo)
    (hholeFootApart : hi ≤ holeFoot ∨ holeFoot + 8 ≤ lo)
    (hspare : k.heap.index.size < k.heap.index.maxSize) (hout : IndexOutside lo hi k) :
    SameOn lo hi (writeHeader k.mem p 0 n) (Kernel.writeBlock size n p s k).2.mem := by
  rcases writeBlock_sameOn hfoot hhole hholeFoot hfootApart hholeApart hspare hout with
    hsame | ⟨m, hsame, hsame'⟩
  · exact hsame
  · have hfooter : SameOn lo hi m (writeFooter m holeFoot hole) :=
      ((SameOutside.refl holeFoot (holeFoot + 8) m).writeFooter (Nat.le_refl _)
        (Nat.le_refl _)).sameOn hholeFootApart
    exact (hsame.trans hfooter).trans hsame'

theorem sub32_add32 {a : Nat} (b : Nat) (ha : a < 4294967296) : sub32 (add32 a b) b = a := by
  unfold sub32 add32
  omega

/-- Writing a block that fills the hole from `p` on, or leaves enough for a hole behind it, cuts the
hole as it should be, when what is in front of `p` is already a hole. -/
theorem cutInside_writeBlock {a b t : Nat} (hb : size + 20 = b) (ht : t = b ∨ b + 20 ≤ t)
    (hap : a ≤ p) (hpt : p + t = a + s) (hstart : k.heap.startAddress ≤ a)
    (hend : a + s ≤ k.heap.endAddress) (hlt : k.heap.endAddress < 4294967296)
    (hspare : k.heap.index.size < k.heap.index.maxSize)
    (hout : IndexOutside k.heap.startAddress k.heap.endAddress k)
    (hfront : p = a ∨ ListedHole k a (p - a)) :
    CutInside a s (add32 p 12) (Kernel.writeBlock size b p t k).2 := by
  obtain ⟨m', hwrite, hchunks, -, heq⟩ := writeBlock_spec k p hb ht (by omega) hlt
  rw [heq]
  have hp : sub32 (add32 p 12) 12 = p := sub32_add32 12 (by omega)
  have hentries : k.heap.index.entries m' = k.heap.index.entries k.mem :=
    entries_of_sameOutside (Nat.le_of_lt hspare) hout (hwrite.mono (by omega) (by omega))
  have hfront' : p = a ∨ ListedHole { k with mem := m' } a (p - a) := by
    rcases hfront with heq | ⟨hchunk, hlisted⟩
    · exact Or.inl heq
    · refine Or.inr ⟨hchunk.frame (hwrite.sameOn (Or.inl (by simp only; omega))), ?_⟩
      simp only [hentries]
      exact hlisted
  by_cases hall : t = b
  · rw [if_pos hall]
    rw [blockChunks, if_pos hall, chunksAt_cons] at hchunks
    have hsize : headerSize m' p = b := hchunks.1.header.size
    refine ⟨?_, ?_, ?_, ?_⟩ <;> rw [hp]
    · exact hap
    · simp only [hsize]
      omega
    · exact hfront'
    · left
      simp only [hsize]
      omega
  · rw [if_neg hall]
    rw [blockChunks, if_neg hall, chunksAt_cons, chunksAt_cons] at hchunks
    obtain ⟨hblock, hrest, -⟩ := hchunks
    have hsame : SameOn k.heap.startAddress k.heap.endAddress m'
        (Kernel.insertHole (p + b) { k with mem := m' }).mem :=
      @insertHole_sameOn { k with mem := m' } _ _ (p + b) hspare (hout.congr rfl)
    have hperm := perm_insertHole (p + b) { k with mem := m' } (by omega)
    simp only at hblock hrest
    have hsize : headerSize (Kernel.insertHole (p + b) { k with mem := m' }).mem p = b :=
      (hblock.header.frame (hsame.mono (by omega) (by omega))).size
    refine ⟨?_, ?_, ?_, ?_⟩ <;> rw [hp]
    · exact hap
    · rw [hsize]
      omega
    · rcases hfront' with heq | ⟨hchunk, hlisted⟩
      · exact Or.inl heq
      · refine Or.inr ⟨hchunk.frame (hsame.mono hstart (by simp only; omega)), ?_⟩
        exact hperm.mem_iff.mpr (List.mem_cons_of_mem _ hlisted)
    · right
      rw [hsize, show a + s - (p + b) = t - b by omega]
      refine ⟨hrest.frame (hsame.mono (by omega) (by simp only; omega)), ?_⟩
      exact hperm.mem_iff.mpr List.mem_cons_self

end Write

/-! ### Where the block goes -/

section Carve

variable {k : Kernel} {cs : List Chunk} {it size n a s loc front : Nat}

theorem carveBlock_low (pageAlign : Nat) (hlow : k.heap.index.lookup it k.mem < 4096) :
    Kernel.carveBlock it size n pageAlign k = Kernel.carveBlock it size n 0 k := by
  have hmask : k.heap.index.lookup it k.mem &&& 0xFFFFF000 = 0 :=
    (and_highMask_eq_zero_iff (OrderedArray.lookup_lt _ _ _)).mpr hlow
  unfold Kernel.carveBlock
  simp only [hmask, ne_eq, not_true_eq_false, and_false, if_false]

theorem carveBlock_plain_eq (ha : a = k.heap.index.lookup it k.mem) (hs : s = headerSize k.mem a) :
    Kernel.carveBlock it size n 0 k =
      Kernel.writeBlock (if sub32 s n < 20 then add32 size (sub32 s n) else size)
        (if sub32 s n < 20 then s else n) a s (Kernel.removeHole it k) := by
  unfold Kernel.carveBlock
  simp only [← ha, ← hs, ne_eq, not_true_eq_false, false_and, if_false]
  rfl

/-- From the second page on the hole stays listed, and the block's data goes to the next page
boundary. -/
theorem carveBlock_high (ha : a = k.heap.index.lookup it k.mem) (hs : s = headerSize k.mem a)
    (hpage : 4096 ≤ a) (hloc : loc = a + 4084 - a % 4096) :
    Kernel.carveBlock it size n 1 k =
      Kernel.writeBlock (if sub32 s n < 20 then add32 size (sub32 s n) else size)
        (if sub32 s n < 20 then s else n) loc
        (sub32 s (headerSize (Kernel.alignHole a loc k.mem) a))
        { k with mem := Kernel.alignHole a loc k.mem } := by
  have halt : a < 4294967296 := by
    rw [ha]
    exact OrderedArray.lookup_lt _ _ _
  have hmask : a &&& 0xFFFFF000 ≠ 0 := by
    rw [ne_eq, and_highMask_eq_zero_iff halt]
    omega
  have hnew : sub32 (sub32 (add32 a 0x1000) (a &&& 0xFFF)) sizeofHeader = loc := by
    rw [and_lowMask]
    unfold sizeofHeader add32 sub32
    omega
  unfold Kernel.carveBlock
  simp only [← ha, ← hs, hmask, hnew, ne_eq, one_ne_zero, not_false_eq_true, and_self, if_true]
  rfl

theorem alignHole_eq (m : Mem) (hpage : 4096 ≤ a) (halt : a + front < 4294967296)
    (hfront : a % 4096 + front = 4084) :
    Kernel.alignHole a (a + front) m =
      writeFooter (writeHeader m a 1 front) (a + front - 12) a := by
  unfold Kernel.alignHole sizeofHeader
  rw [and_lowMask, sub32_eq (show a % 4096 ≤ 0x1000 by omega) (by omega),
    sub32_eq (show 12 ≤ 0x1000 - a % 4096 by omega) (by omega),
    sub32_eq (show 12 ≤ a + front by omega) halt,
    show 0x1000 - a % 4096 - 12 = front by omega]

/-- With the data on a page boundary the front part is empty. -/
theorem headerSize_alignHole_boundary {m : Mem} (hpage : 4096 ≤ a) (halt : a < 4294967296)
    (hboundary : a % 4096 = 4084) : headerSize (Kernel.alignHole a a m) a = 0 := by
  have hhole := @alignHole_eq a 0 m hpage halt (by omega)
  rw [Nat.add_zero] at hhole
  rw [hhole]
  have hheader : HeaderAt (writeHeader m a 1 0) a true 0 :=
    headerAt_writeHeader m a true (by decide)
  exact (headerAt_of_writeFooter hheader (Or.inr (by omega))).size

/-- What the search has checked: the block fits behind the padding up to the next page boundary, in
arithmetic that wraps when the hole is shorter than the padding. -/
theorem fits_of_holeFits {m : Mem} (hs : s = headerSize m a) (halt : a + 12 < 4294967296)
    (hfits : Kernel.holeFits n 1 m a = true) :
    (a + 12 < 4096 ∧ n ≤ s) ∨
      4096 ≤ a + 12 ∧ (n + (4096 - (a + 12) % 4096) ≤ s ∨
        s < 4096 - (a + 12) % 4096 ∧ n + (4096 - (a + 12) % 4096) ≤ 4294967296 + s) := by
  have hslt : s < 4294967296 := by
    rw [hs]
    exact read32_lt _ _
  unfold Kernel.holeFits sizeofHeader at hfits
  rw [← hs, add32_eq halt] at hfits
  simp only [gt_iff_lt, Nat.zero_lt_one, if_true, decide_eq_true_eq, ne_eq,
    and_highMask_eq_zero_iff halt] at hfits
  by_cases hpage : a + 12 < 4096
  · rw [if_neg (by omega)] at hfits
    unfold sub32 at hfits
    omega
  · rw [if_pos hpage] at hfits
    unfold sub32 at hfits
    omega

/-- **A hole that can be cut is cut as it should be.** -/
theorem AlignedCut.cutInside (h : Sound k cs) (hit : it < k.heap.index.size)
    (ha : a = k.heap.index.lookup it k.mem) (hs : s = headerSize k.mem a)
    (hcut : AlignedCut a s (size + 20)) :
    CutInside a s (Kernel.carveBlock it size (size + 20) 1 k).1
      (Kernel.carveBlock it size (size + 20) 1 k).2 := by
  have hentry := OrderedArray.lookup_mem (m := k.mem) hit
  rw [← ha] at hentry
  obtain ⟨hlo, hhi, hmin⟩ := h.entry_bounds hentry
  rw [← hs] at hhi hmin
  have hlt := h.end_lt
  have hout := h.outside
  have hspare := h.spare
  rcases hcut with ⟨hplace, hfits⟩ | ⟨hpage, hfits⟩
  · obtain ⟨hb, hrest⟩ := plainBlock_spec hfits
    by_cases hlow : a < 4096
    · -- in the first page: the hole leaves the index
      rw [carveBlock_low 1 (by rw [← ha]; exact hlow), carveBlock_plain ha hs hfits, writeBlock_fst]
      have hheap := removeHole_heap it k
      generalize Kernel.removeHole it k = k1 at hheap ⊢
      refine cutInside_writeBlock (by omega) hrest (Nat.le_refl a) rfl ?_ ?_ ?_ ?_ ?_ (Or.inl rfl)
      · rw [hheap]
        exact hlo
      · rw [hheap]
        exact hhi
      · rw [hheap]
        exact hlt
      · rw [hheap]
        exact Nat.lt_of_le_of_lt (Nat.sub_le _ _) hspare
      · unfold IndexOutside
        rw [hheap]
        exact hout
    · -- the data is on a boundary already: the front part is empty, and its header is written over
      have halign : a % 4096 = 4084 := by omega
      have hloc : a = a + 4084 - a % 4096 := by omega
      rw [carveBlock_high ha hs (by omega) hloc,
        headerSize_alignHole_boundary (by omega) (by omega) halign, writeBlock_fst]
      rw [sub32_eq hfits (by omega), sub32_eq (Nat.zero_le s) (by omega), Nat.sub_zero]
      refine cutInside_writeBlock ?_ ?_ (Nat.le_refl a) rfl hlo hhi hlt hspare
        (hout.congr rfl) (Or.inl rfl)
      · split
        · rw [add32_eq (by omega)]
          omega
        · rfl
      · split <;> omega
  · -- the front part stays a hole, and listed
    obtain ⟨hoffset, hroom, hrest⟩ := hfits
    obtain ⟨front, hfront⟩ : ∃ front, front = 4096 - a % 4096 - 12 := ⟨_, rfl⟩
    obtain ⟨hsame, hheader⟩ := alignHole_spec k.mem hfront (by omega) (by omega)
    rw [carveBlock_aligned one_ne_zero ha hs hpage ⟨hoffset, hroom, hrest⟩ hfront hheader.size,
      writeBlock_fst]
    have hentries : k.heap.index.entries (Kernel.alignHole a (a + front) k.mem) =
        k.heap.index.entries k.mem :=
      entries_of_sameOutside (Nat.le_of_lt hspare) hout (hsame.mono hlo (by omega))
    refine cutInside_writeBlock rfl (by omega) (by omega) (by omega) hlo hhi hlt hspare
      (hout.congr rfl) (Or.inr ?_)
    rw [Nat.add_sub_cancel_left]
    refine ⟨⟨by simp only; omega, hheader, fun hcon => by simp at hcon⟩, ?_⟩
    simp only [hentries]
    exact hentry

end Carve

/-! ### When the block does not fit -/

section Misfit

variable {k : Kernel} {cs : List Chunk} {m m' : Mem} {it size n a s loc front x v : Nat}

theorem writeHeader_top (hn : n < 4294967296) :
    (writeHeader m a v n (a + 11)).toNat = n / 16777216 := by
  unfold writeHeader write32
  rw [if_pos ⟨by omega, by omega⟩, show a + 11 - (a + 8) = 3 by omega, UInt8.toNat_ofNat']
  norm_num
  omega

/-- A block that is larger than its hole says so in its header, or in what the header of the wrapped
rest leaves of it. -/
theorem headerSize_of_misfit (hn : size + 20 = n) (hnlt : n < 4294967296) (hmin : 20 ≤ s)
    (hsmall : s < 4096) (hsn : s < n) (hlt : a + s < 4294967296)
    (hspare : k.heap.index.size < k.heap.index.maxSize) (hout : IndexOutside a (a + s) k) :
    s < headerSize (Kernel.writeBlock size n a s k).2.mem a := by
  obtain ⟨foot, hfoot⟩ : ∃ foot, foot = add32 (add32 a sizeofHeader) size := ⟨_, rfl⟩
  obtain ⟨hole, hhole⟩ : ∃ hole, hole = add32 foot sizeofFooter := ⟨_, rfl⟩
  obtain ⟨holeFoot, hholeFoot⟩ : ∃ holeFoot,
    holeFoot = sub32 (add32 hole (sub32 s n)) sizeofFooter := ⟨_, rfl⟩
  have hfootEq : foot = (a + n - 8) % 4294967296 := by
    rw [hfoot]
    unfold add32 sizeofHeader
    omega
  have hholeEq : hole = (a + n) % 4294967296 := by
    rw [hhole]
    unfold add32 sizeofFooter
    omega
  have hholeFootEq : holeFoot = a + s - 8 := by
    rw [hholeFoot]
    unfold add32 sub32 sizeofFooter
    omega
  have hkeeps : ∀ lo hi, a ≤ lo → hi ≤ a + 12 → (hi ≤ hole ∨ hole + 12 ≤ lo) →
      SameOn lo hi (writeHeader k.mem a 0 n) (Kernel.writeBlock size n a s k).2.mem := by
    intro lo hi hlo hhi hapart
    refine writeBlock_keeps hfoot hhole hholeFoot (by omega) hapart (by omega) hspare ?_
    unfold IndexOutside at hout ⊢
    omega
  unfold headerSize
  by_cases hover : a + 12 ≤ hole ∨ hole + 12 ≤ a + 8
  · -- the header is as it was written
    have hsame := hkeeps (a + 8) (a + 12) (by omega) (Nat.le_refl _) hover
    rw [hsame.read32 (Nat.le_refl _) (Nat.le_refl _)]
    have hsize : read32 (writeHeader k.mem a 0 n) (a + 8) = n := read32_write32_self _ _ hnlt
    omega
  · -- the rest begins a few bytes below the block, so the size is close to `2 ^ 32`
    have hsame := hkeeps (a + 11) (a + 12) (by omega) (Nat.le_refl _) (by omega)
    have htop := read32_top_le (Kernel.writeBlock size n a s k).2.mem (a + 8)
    rw [show a + 8 + 3 = a + 11 by omega, hsame (a + 11) (Nat.le_refl _) (by omega),
      writeHeader_top hnlt] at htop
    omega

/-- In a front part of 20 to 23 bytes the footer lies over the size, and no footer written later
puts the size back. -/
theorem headerSize_of_spoiled {holeFoot hole : Nat} (hge : 20 ≤ front) (hle : front ≤ 23)
    (hhole : 4096 ≤ hole) (hholeLt : hole < 4294967296)
    (hkeeps : SameOn (a + 8) (a + 12) (writeFooter m (a + front - 12) v) m' ∨
      ∃ m1, SameOn (a + 8) (a + 12) (writeFooter m (a + front - 12) v) m1 ∧
        SameOn (a + 8) (a + 12) (writeFooter m1 holeFoot hole) m') : headerSize m' a ≠ front := by
  intro heq
  unfold headerSize at heq
  have hbytes := bytes_of_read32 heq (by omega)
  rw [show a + 8 + 1 = a + 9 by omega, show a + 8 + 2 = a + 10 by omega,
    show a + 8 + 3 = a + 11 by omega] at hbytes
  -- the footer of the front part leaves a high byte of the size that is not zero
  have htop : (writeFooter m (a + front - 12) v (a + 11)).toNat ≠ 0 := by
    have hbyte := magic_byte (show a + 11 - (a + front - 12) < 4 by omega)
    rw [writeFooter_magic _ (by omega) (by omega)]
    omega
  rcases hkeeps with hsame | ⟨m1, hsame1, hsame⟩
  · rw [hsame (a + 11) (by omega) (by omega)] at hbytes
    omega
  · by_cases hover : a + 4 ≤ holeFoot ∧ holeFoot ≤ a + 11
    · rw [hsame (a + 8) (by omega) (by omega), hsame (a + 9) (by omega) (by omega),
        hsame (a + 10) (by omega) (by omega), hsame (a + 11) (by omega) (by omega)] at hbytes
      rw [hsame.read32 (Nat.le_refl _) (by omega)] at heq
      obtain ⟨i, hi, rfl⟩ : ∃ i, i < 8 ∧ holeFoot = a + 4 + i := ⟨holeFoot - (a + 4), by omega,
          by omega⟩
      rcases Nat.eq_zero_or_pos i with rfl | hpos
      · -- its second word is the size now
        have hword : read32 (writeFooter m1 (a + 4 + 0) hole) (a + 8) = hole :=
          read32_write32_self _ _ hholeLt
        omega
      · by_cases hlow : i ≤ 4
        · -- a byte of the magic word is the low byte of the size
          have hbyte := magic_byte (show a + 8 - (a + 4 + i) < 4 by omega)
          rw [writeFooter_magic _ (show a + 4 + i ≤ a + 8 by omega) (by omega)] at hbytes
          omega
        · -- or its first byte is one of the others
          have hmagic : (writeFooter m1 (a + 4 + i) hole (a + 4 + i)).toNat = 171 := by
            rw [writeFooter_magic _ (Nat.le_refl _) (by omega), Nat.sub_self]
            decide
          generalize writeFooter m1 (a + 4 + i) hole = w at hbytes hmagic
          have hcases : a + 4 + i = a + 9 ∨ a + 4 + i = a + 10 ∨ a + 4 + i = a + 11 := by omega
          rcases hcases with hslot | hslot | hslot <;> rw [hslot] at hmagic <;> omega
    · have hfooter : SameOn (a + 11) (a + 12) m1 (writeFooter m1 holeFoot hole) :=
        ((SameOutside.refl holeFoot (holeFoot + 8) m1).writeFooter (Nat.le_refl _)
          (Nat.le_refl _)).sameOn (by omega)
      rw [hsame (a + 11) (by omega) (by omega), hfooter (a + 11) (Nat.le_refl _) (by omega),
        hsame1 (a + 11) (by omega) (by omega)] at hbytes
      omega

/-- A hole in the first page is cut as it should be only when the block fits. -/
theorem CutInside.fits_low (h : Sound k cs) (hit : it < k.heap.index.size)
    (ha : a = k.heap.index.lookup it k.mem) (hs : s = headerSize k.mem a)
    (hsize : size + 20 < 4294967296) (hlow : a < 4096)
    (hfits : Kernel.holeFits (size + 20) 1 k.mem a = true)
    (hcut : CutInside a s (Kernel.carveBlock it size (size + 20) 1 k).1
      (Kernel.carveBlock it size (size + 20) 1 k).2) : size + 20 ≤ s := by
  have hentry := OrderedArray.lookup_mem (m := k.mem) hit
  rw [← ha] at hentry
  obtain ⟨hlo, hhi, hmin⟩ := h.entry_bounds hentry
  rw [← hs] at hhi hmin
  have hlt := h.end_lt
  by_contra hnot
  have hwrapped := fits_of_holeFits hs (by omega) hfits
  rw [carveBlock_low 1 (by rw [← ha]; exact hlow), carveBlock_plain_eq ha hs,
    if_neg (by unfold sub32; omega), if_neg (by unfold sub32; omega), writeBlock_fst] at hcut
  have hheap := removeHole_heap it k
  generalize Kernel.removeHole it k = k1 at hheap hcut
  have hindex : k1.heap.index = { k.heap.index with size := k.heap.index.size - 1 } := by
    rw [hheap]
  have hupper := hcut.upper
  have hspare1 : k1.heap.index.size < k1.heap.index.maxSize := by
    rw [hindex]
    exact Nat.lt_of_le_of_lt (Nat.sub_le _ _) h.spare
  have hout1 : IndexOutside a (a + s) k1 := by
    have hout := h.outside
    unfold IndexOutside at hout ⊢
    rw [hindex]
    simp only
    omega
  have hp : sub32 (add32 a sizeofHeader) 12 = a := sub32_add32 12 (by omega)
  rw [hp] at hupper
  have hmisfit := headerSize_of_misfit rfl hsize hmin (by omega) (by omega) (by omega) hspare1 hout1
  omega

/-- A hole whose data is on a page boundary is cut as it should be only when the block fits. -/
theorem CutInside.fits_boundary (h : Sound k cs) (hit : it < k.heap.index.size)
    (ha : a = k.heap.index.lookup it k.mem) (hs : s = headerSize k.mem a)
    (hsize : size + 20 < 4294967296) (hhigh : 4096 ≤ a) (hboundary : a % 4096 = 4084)
    (hfits : Kernel.holeFits (size + 20) 1 k.mem a = true)
    (hcut : CutInside a s (Kernel.carveBlock it size (size + 20) 1 k).1
      (Kernel.carveBlock it size (size + 20) 1 k).2) : size + 20 ≤ s := by
  have hentry := OrderedArray.lookup_mem (m := k.mem) hit
  rw [← ha] at hentry
  obtain ⟨hlo, hhi, hmin⟩ := h.entry_bounds hentry
  rw [← hs] at hhi hmin
  have hlt := h.end_lt
  by_contra hnot
  have hwrapped := fits_of_holeFits hs (by omega) hfits
  rw [carveBlock_high ha hs hhigh (show a = a + 4084 - a % 4096 by omega), if_neg
      (by unfold sub32; omega),
    if_neg (by unfold sub32; omega), headerSize_alignHole_boundary hhigh (by omega) hboundary,
    sub32_eq (Nat.zero_le s) (by omega), Nat.sub_zero, writeBlock_fst] at hcut
  have hupper := hcut.upper
  have hp : sub32 (add32 a sizeofHeader) 12 = a := sub32_add32 12 (by omega)
  rw [hp] at hupper
  have hout1 : IndexOutside a (a + s) k := by
    have hout := h.outside
    unfold IndexOutside at hout ⊢
    omega
  have hmisfit := @headerSize_of_misfit { k with mem := Kernel.alignHole a a k.mem } size
    (size + 20) a s rfl hsize hmin (by omega) (by omega) (by omega) h.spare (hout1.congr rfl)
  omega

/-- Behind a front part of 20 to 23 bytes no hole is cut as it should be. -/
theorem not_cutInside_of_spoiled (h : Sound k cs) (ha : a ∈ k.heap.index.entries k.mem)
    (hs : s = headerSize k.mem a) (hpage : 4096 ≤ a) (hfront : a % 4096 + front = 4084)
    (hge : 20 ≤ front) (hle : front ≤ 23) (hroom : size + 20 + front ≤ s) :
    headerSize (Kernel.writeBlock size (size + 20) (a + front)
      (sub32 s (headerSize (Kernel.alignHole a (a + front) k.mem) a))
      { k with mem := Kernel.alignHole a (a + front) k.mem }).2.mem a ≠ front := by
  obtain ⟨hlo, hhi, -⟩ := h.entry_bounds ha
  rw [← hs] at hhi
  have hlt := h.end_lt
  have hout : IndexOutside (a + 8) (a + 12) k := by
    have hout := h.outside
    unfold IndexOutside at hout ⊢
    omega
  have halign := @alignHole_eq a front k.mem hpage (by omega) hfront
  generalize sub32 s (headerSize (Kernel.alignHole a (a + front) k.mem) a) = t
  rw [halign]
  generalize writeHeader k.mem a 1 front = m
  obtain ⟨foot, hfoot⟩ : ∃ foot, foot = add32 (add32 (a + front) sizeofHeader) size := ⟨_, rfl⟩
  obtain ⟨hole, hhole⟩ : ∃ hole, hole = add32 foot sizeofFooter := ⟨_, rfl⟩
  have hfootEq : foot = a + front + 12 + size := by
    rw [hfoot]
    unfold add32 sizeofHeader
    omega
  have hholeEq : hole = a + front + 20 + size := by
    rw [hhole]
    unfold add32 sizeofFooter
    omega
  have hheader : SameOn (a + 8) (a + 12) (writeFooter m (a + front - 12) a)
      (writeHeader (writeFooter m (a + front - 12) a) (a + front) 0 (size + 20)) :=
    ((SameOutside.refl (a + front) (a + front + 12) _).writeHeader (Nat.le_refl _)
      (Nat.le_refl _)).sameOn (Or.inl (by omega))
  have hkeeps := @writeBlock_sameOn { k with mem := writeFooter m (a + front - 12) a } size
    (size + 20) (a + front) t (a + 8) (a + 12) foot hole _ hfoot hhole rfl (by omega) (by omega)
    h.spare (hout.congr rfl)
  exact headerSize_of_spoiled hge hle (show 4096 ≤ hole by omega) (by omega)
    (hkeeps.imp hheader.trans fun ⟨m1, hsame1, hsame⟩ => ⟨m1, hheader.trans hsame1, hsame⟩)

theorem headerSize_of_front (h : Sound k cs) (ha : a ∈ k.heap.index.entries k.mem)
    (hs : s = headerSize k.mem a) (hpage : 4096 ≤ a) (hfront : a % 4096 + front = 4084)
    (hge : 24 ≤ front) (hroom : size + 20 + front ≤ s) :
    headerSize (Kernel.writeBlock size (size + 20) (a + front)
      (sub32 s (headerSize (Kernel.alignHole a (a + front) k.mem) a))
      { k with mem := Kernel.alignHole a (a + front) k.mem }).2.mem (a + front) = size + 20 := by
  obtain ⟨hlo, hhi, -⟩ := h.entry_bounds ha
  rw [← hs] at hhi
  have hlt := h.end_lt
  have hout : IndexOutside (a + front + 8) (a + front + 12) k := by
    have hout := h.outside
    unfold IndexOutside at hout ⊢
    omega
  obtain ⟨-, hheader⟩ := @alignHole_spec a front k.mem (by omega) hge (by omega)
  rw [hheader.size, sub32_eq (by omega) (by omega)]
  generalize Kernel.alignHole a (a + front) k.mem = m
  obtain ⟨foot, hfoot⟩ : ∃ foot, foot = add32 (add32 (a + front) sizeofHeader) size := ⟨_, rfl⟩
  obtain ⟨hole, hhole⟩ : ∃ hole, hole = add32 foot sizeofFooter := ⟨_, rfl⟩
  obtain ⟨holeFoot, hholeFoot⟩ : ∃ holeFoot,
    holeFoot = sub32 (add32 hole (sub32 (s - front) (size + 20))) sizeofFooter := ⟨_, rfl⟩
  have hfootEq : foot = a + front + 12 + size := by
    rw [hfoot]
    unfold add32 sizeofHeader
    omega
  have hholeEq : hole = a + front + 20 + size := by
    rw [hhole]
    unfold add32 sizeofFooter
    omega
  have hholeFootEq : holeFoot = a + s - 8 := by
    rw [hholeFoot]
    unfold add32 sub32 sizeofFooter
    omega
  have hkeeps := @writeBlock_keeps { k with mem := m } size (size + 20) (a + front) (s - front)
    (a + front + 8) (a + front + 12) foot hole holeFoot hfoot hhole hholeFoot (by omega) (by omega)
    (by omega) h.spare (hout.congr rfl)
  unfold headerSize
  rw [hkeeps.read32 (Nat.le_refl _) (Nat.le_refl _)]
  exact read32_write32_self _ _ (by omega)

/-- Any other hole is cut as it should be only when its parts have room. -/
theorem CutInside.alignFits (h : Sound k cs) (hit : it < k.heap.index.size)
    (ha : a = k.heap.index.lookup it k.mem) (hs : s = headerSize k.mem a)
    (hpage : 4096 ≤ a) (hoff : a % 4096 ≠ 4084)
    (hfits : Kernel.holeFits (size + 20) 1 k.mem a = true)
    (hcut : CutInside a s (Kernel.carveBlock it size (size + 20) 1 k).1
      (Kernel.carveBlock it size (size + 20) 1 k).2) : AlignFits a s (size + 20) := by
  have hentry := OrderedArray.lookup_mem (m := k.mem) hit
  rw [← ha] at hentry
  obtain ⟨hlo, hhi, hmin⟩ := h.entry_bounds hentry
  rw [← hs] at hhi hmin
  have hlt := h.end_lt
  have hchecked := fits_of_holeFits hs (by omega) hfits
  obtain ⟨loc, hloc⟩ : ∃ loc, loc = a + 4084 - a % 4096 := ⟨_, rfl⟩
  rw [carveBlock_high ha hs hpage hloc, writeBlock_fst] at hcut
  have hp : sub32 (add32 loc sizeofHeader) 12 = loc := sub32_add32 12 (by omega)
  obtain ⟨hlower, hupper, hbefore, hafter⟩ := hcut
  rw [hp] at hlower hupper hbefore hafter
  -- the block is inside the hole, so the padding is not longer than the hole
  obtain ⟨front, rfl⟩ := Nat.exists_eq_add_of_le hlower
  have hfront : a % 4096 + front = 4084 := by omega
  have hroom : size + 20 + front ≤ s := by omega
  have hhole := hbefore.resolve_left (by omega)
  rw [Nat.add_sub_cancel_left] at hhole
  have hminFront := hhole.chunk.minSize
  have hsizeFront := hhole.chunk.header.size
  simp only at hminFront hsizeFront
  have hbig : ¬ sub32 s (size + 20) < 20 := by
    rw [sub32_eq (by omega) (by omega)]
    omega
  rw [if_neg hbig, if_neg hbig] at hsizeFront hupper hafter
  by_cases hspoiled : front ≤ 23
  · exact absurd hsizeFront
      (not_cutInside_of_spoiled h hentry hs hpage hfront hminFront hspoiled hroom)
  · have hsize := headerSize_of_front h hentry hs hpage hfront (by omega) hroom
    rw [hsize] at hafter
    refine ⟨by omega, by omega, ?_⟩
    rcases hafter with hwhole | hrest
    · left
      omega
    · have hminRest := hrest.chunk.minSize
      simp only at hminRest
      right
      omega

end Misfit

/-! ### The request -/

section Request

variable {k : Kernel} {cs : List Chunk} {size it : Nat}

/-- **A page-aligned request** that finds a hole at once cuts the block out of it as it should
exactly when the hole can be cut. -/
theorem alloc_cutInside_iff (fuel : Nat) (h : Sound k cs) (hsize : size + 20 < 4294967296)
    (hfind : Kernel.findSmallestHole (size + 20) 1 k = some it) :
    ∃ p k', Kernel.alloc (fuel + 1) size 1 k = .ok (p, k') ∧
      (CutInside (k.heap.index.lookup it k.mem)
          (headerSize k.mem (k.heap.index.lookup it k.mem)) p k' ↔
        AlignedCut (k.heap.index.lookup it k.mem)
          (headerSize k.mem (k.heap.index.lookup it k.mem)) (size + 20)) := by
  obtain ⟨hit, hfits, -⟩ := findSmallestHole_spec hfind
  refine ⟨_, _, alloc_of_find fuel hsize hfind, ?_⟩
  constructor
  · intro hcut
    by_cases hlow : k.heap.index.lookup it k.mem < 4096
    · exact Or.inl ⟨Or.inl hlow, hcut.fits_low h hit rfl rfl hsize hlow hfits⟩
    · by_cases hboundary : k.heap.index.lookup it k.mem % 4096 = 4084
      · exact Or.inl ⟨Or.inr hboundary,
          hcut.fits_boundary h hit rfl rfl hsize (by omega) hboundary hfits⟩
      · exact Or.inr ⟨by omega, hcut.alignFits h hit rfl rfl (by omega) hboundary hfits⟩
  · exact fun hcut => hcut.cutInside h hit rfl rfl

/-- For holes off the first page and off the boundaries. -/
theorem alloc_alignFits (fuel : Nat) (h : Sound k cs) (hsize : size + 20 < 4294967296)
    (hfind : Kernel.findSmallestHole (size + 20) 1 k = some it)
    (hpage : 4096 ≤ k.heap.index.lookup it k.mem)
    (hoff : k.heap.index.lookup it k.mem % 4096 ≠ 4084) :
    ∃ p k', Kernel.alloc (fuel + 1) size 1 k = .ok (p, k') ∧
      (CutInside (k.heap.index.lookup it k.mem)
          (headerSize k.mem (k.heap.index.lookup it k.mem)) p k' →
        AlignFits (k.heap.index.lookup it k.mem)
          (headerSize k.mem (k.heap.index.lookup it k.mem)) (size + 20)) := by
  obtain ⟨hit, hfits, -⟩ := findSmallestHole_spec hfind
  exact ⟨_, _, alloc_of_find fuel hsize hfind,
    fun hcut => hcut.alignFits h hit rfl rfl hpage hoff hfits⟩

end Request

theorem alloc_cutInside_iff_bareStart :
    ∃ p k', Kernel.alloc 1 4096 1 bareStart.kernel = .ok (p, k') ∧
      (CutInside (bareStart.kernel.heap.index.lookup 0 bareStart.kernel.mem)
          (headerSize bareStart.kernel.mem
            (bareStart.kernel.heap.index.lookup 0 bareStart.kernel.mem)) p k' ↔
        AlignedCut (bareStart.kernel.heap.index.lookup 0 bareStart.kernel.mem)
          (headerSize bareStart.kernel.mem
            (bareStart.kernel.heap.index.lookup 0 bareStart.kernel.mem)) 4116) :=
  alloc_cutInside_iff 0 fresh_bareStart.intact.toSound (by decide) (by decide +kernel)

/-- The only hole of the new heap has 0x7F000 bytes. Behind 4084 bytes of padding and a block of
516100 bytes there are 8 left, which is a hole without room for its own header. -/
theorem not_cutInside_of_intact : ¬ ∀ k cs size it p k', Intact k cs → size + 20 < 4294967296 →
    Kernel.findSmallestHole (size + 20) 1 k = some it →
      Kernel.alloc 1 size 1 k = .ok (p, k') →
        CutInside (k.heap.index.lookup it k.mem)
          (headerSize k.mem (k.heap.index.lookup it k.mem)) p k' := by
  intro hall
  have hfind : Kernel.findSmallestHole (516080 + 20) 1 bareStart.kernel = some 0 := by
    decide +kernel
  have haddr : bareStart.kernel.heap.index.lookup 0 bareStart.kernel.mem = 0xC0081000 := by
    decide +kernel
  have hsize : headerSize bareStart.kernel.mem 0xC0081000 = 0x7F000 := by decide +kernel
  obtain ⟨p, k', halloc, hparts⟩ := alloc_alignFits 0 fresh_bareStart.intact.toSound (by decide)
    hfind (by rw [haddr]; decide) (by rw [haddr]; decide)
  have hcut := hparts (hall _ _ _ _ p k' fresh_bareStart.intact (by decide) hfind halloc)
  rw [haddr, hsize] at hcut
  exact absurd hcut (by decide)

end Vulcanos
