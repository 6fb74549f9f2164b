import Vulcanos.Proof.Chunks

/-!
# Carving a block out of a hole

What `alloc` does once `find_smallest_hole` has found a hole. A plain request turns the hole into a
block and a smaller hole, or into a block alone when less than a header and a footer would be left.
A page-aligned one keeps a hole in front of the block.

Each edit is followed through memory only on the bytes of the chunk it replaces.
`WellFormed.replace` then puts the new chunks in place of the old one, given the index that goes
with them.
-/

namespace Vulcanos

open Memory Word Layout

/-! ### Replacing chunks in the middle of the heap -/

theorem WellFormed.replace {k k' : Kernel} {left mid mid' right : List Chunk}
    (h : WellFormed k (left ++ mid ++ right))
    (hstart : k'.heap.startAddress = k.heap.startAddress)
    (hend : k'.heap.endAddress = k.heap.endAddress)
    (htotal : total Chunk.size mid' = total Chunk.size mid)
    (hleft : SameOn k.heap.startAddress (k.heap.startAddress + total Chunk.size left) k.mem k'.mem)
    (hright : SameOn (k.heap.startAddress + total Chunk.size left + total Chunk.size mid)
      k.heap.endAddress k.mem k'.mem)
    (hmid : ChunksAt k'.mem (k.heap.startAddress + total Chunk.size left) mid')
    (hindex : (k'.heap.index.entries k'.mem).Perm
      (holes k.heap.startAddress left
        ++ holes (k.heap.startAddress + total Chunk.size left) mid'
        ++ holes (k.heap.startAddress + total Chunk.size left + total Chunk.size mid) right))
    (hroom : k'.heap.index.array + 4 * k'.heap.index.size ≤ k.heap.startAddress) :
    WellFormed k' (left ++ mid' ++ right) where
  start_ge := by rw [hstart]; exact h.start_ge
  end_lt := by rw [hend]; exact h.end_lt
  tiles := by
    have htiles := h.tiles
    simp only [total_append] at htiles ⊢
    omega
  chunksAt := by
    have htiles := h.tiles
    have hchunks := h.chunksAt
    simp only [chunksAt_append, total_append] at hchunks htiles ⊢
    obtain ⟨⟨hl, -⟩, hr⟩ := hchunks
    rw [hstart, htotal]
    refine ⟨⟨hl.frame hleft, hmid⟩, hr.frame (hright.mono (by omega) (by omega))⟩
  index := by
    simp only [holes_append, total_append, hstart, htotal]
    rw [← Nat.add_assoc]
    exact hindex
  room := by rw [hstart]; exact hroom

/-! ### The index -/

section Index

variable {k : Kernel} {head it : Nat}

theorem insertHole_heap (head : Nat) (k : Kernel) : (Kernel.insertHole head k).heap =
    { k.heap with index := { k.heap.index with size := k.heap.index.size + 1 } } := by
  simp only [Kernel.insertHole, OrderedArray.insert_fst]

theorem insertHole_sameOutside (head : Nat) (k : Kernel) :
    SameOutside k.heap.index.array (k.heap.index.array + 4 * (k.heap.index.size + 1)) k.mem
      (Kernel.insertHole head k).mem :=
  OrderedArray.insert_sameOutside _ _ _ _

theorem perm_insertHole (head : Nat) (k : Kernel) (hhead : head < 4294967296) :
    ((Kernel.insertHole head k).heap.index.entries (Kernel.insertHole head k).mem).Perm
      (head :: k.heap.index.entries k.mem) :=
  OrderedArray.perm_insert _ _ _ hhead

theorem removeHole_heap (it : Nat) (k : Kernel) : (Kernel.removeHole it k).heap =
    { k.heap with index := { k.heap.index with size := k.heap.index.size - 1 } } := rfl

theorem removeHole_sameOutside (it : Nat) (k : Kernel) :
    SameOutside k.heap.index.array (k.heap.index.array + 4 * k.heap.index.size) k.mem
      (Kernel.removeHole it k).mem :=
  OrderedArray.remove_sameOutside _ _ _

theorem entries_removeHole (hit : it < k.heap.index.size) :
    (Kernel.removeHole it k).heap.index.entries (Kernel.removeHole it k).mem =
      (k.heap.index.entries k.mem).eraseIdx it :=
  OrderedArray.entries_remove hit

theorem perm_removeHole (hit : it < k.heap.index.size) :
    (k.heap.index.lookup it k.mem ::
        (Kernel.removeHole it k).heap.index.entries (Kernel.removeHole it k).mem).Perm
      (k.heap.index.entries k.mem) := by
  obtain ⟨left, right, hsplit, hlength⟩ := OrderedArray.entries_split k.mem hit
  rw [entries_removeHole hit, hsplit, ← hlength, List.eraseIdx_append_of_length_le (Nat.le_refl _),
    Nat.sub_self, List.eraseIdx_cons_zero]
  exact List.perm_middle.symm

end Index

/-! ### The block and what is left of the hole -/

/-- The chunks `alloc` makes of a hole of `s` bytes when the block takes `b` of them. -/
def blockChunks (b s : Nat) : List Chunk :=
  if s = b then [⟨b, false⟩] else [⟨b, false⟩, ⟨s - b, true⟩]

theorem total_blockChunks {b s : Nat} (hle : b ≤ s) :
    total Chunk.size (blockChunks b s) = s := by
  unfold blockChunks
  split
  · simp_all
  · simp only [total_cons, total_nil]
    omega

/-- **The last step of `alloc`.** The bytes of the hole become the block and the rest, and the rest
goes into the index. -/
theorem writeBlock_spec (k : Kernel) (p : Nat) {size b s : Nat} (hsize : size + 20 = b)
    (hrest : s = b ∨ b + 20 ≤ s) (hend : p + s ≤ k.heap.endAddress)
    (hlt : k.heap.endAddress < 4294967296) :
    ∃ m', SameOutside p (p + s) k.mem m' ∧ ChunksAt m' p (blockChunks b s) ∧
      (s ≠ b → FooterAt m' (p + s - 8) (p + b)) ∧
      Kernel.writeBlock size b p s k =
        (p + 12, if s = b then { k with mem := m' }
          else Kernel.insertHole (p + b) { k with mem := m' }) := by
  have hdata : add32 p sizeofHeader = p + 12 := add32_eq (by unfold sizeofHeader; omega)
  have hfoot : add32 (p + 12) size = p + b - 8 := by
    rw [add32_eq (by omega)]
    omega
  have hgap : sub32 s b = s - b := sub32_eq (by omega) (by omega)
  set m1 := writeHeader k.mem p 0 b with hm1
  set m2 := writeFooter m1 (p + b - 8) p with hm2
  have hsame1 : SameOutside p (p + 12) k.mem m1 := (SameOutside.refl _ _ _).writeHeader
    (Nat.le_refl _) (Nat.le_refl _)
  have hsame2 : SameOutside (p + b - 8) (p + b) m1 m2 := (SameOutside.refl _ _ _).writeFooter
    (Nat.le_refl _) (by omega)
  have hhead1 : HeaderAt m1 p false b := headerAt_writeHeader k.mem p false (by omega)
  have hhead2 : HeaderAt m2 p false b := hhead1.frame (hsame2.sameOn (Or.inl (by omega)))
  have hfoot2 : FooterAt m2 (p + b - 8) p := footerAt_writeFooter _ _ (by omega)
  have hblock2 : ChunkAt m2 p ⟨b, false⟩ := ⟨by simp only; omega, hhead2, fun _ => hfoot2⟩
  rcases hrest with rfl | hrest
  · -- the block takes the whole hole
    refine ⟨m2, ?_, ?_, fun hne => absurd rfl hne, ?_⟩
    · exact (hsame1.mono (Nat.le_refl _) (by omega)).trans (hsame2.mono (by omega) (Nat.le_refl _))
    · rw [blockChunks, if_pos rfl, chunksAt_cons]
      exact ⟨hblock2, chunksAt_nil⟩
    · unfold Kernel.writeBlock
      simp only [hdata, hfoot, hgap, Nat.sub_self, gt_iff_lt, Nat.lt_irrefl, if_false, if_true]
      rfl
  · -- a hole is left behind the block
    have hhole : add32 (p + b - 8) sizeofFooter = p + b := by
      unfold sizeofFooter
      rw [add32_eq (by omega)]
      omega
    have hholeFoot : sub32 (add32 (p + b) (s - b)) sizeofFooter = p + s - 8 := by
      unfold sizeofFooter
      rw [add32_eq (by omega), sub32_eq (by omega) (by omega)]
      omega
    set m3 := writeHeader m2 (p + b) 1 (s - b) with hm3
    set m4 := writeFooter m3 (p + s - 8) (p + b) with hm4
    have hsame3 : SameOutside (p + b) (p + b + 12) m2 m3 := (SameOutside.refl _ _ _).writeHeader
      (Nat.le_refl _) (Nat.le_refl _)
    have hsame4 : SameOutside (p + s - 8) (p + s) m3 m4 := (SameOutside.refl _ _ _).writeFooter
      (Nat.le_refl _) (by omega)
    have hhead3 : HeaderAt m3 (p + b) true (s - b) :=
      headerAt_writeHeader m2 (p + b) true (by omega)
    refine ⟨m4, ?_, ?_, fun _ => footerAt_writeFooter m3 _ (by omega), ?_⟩
    · exact ((hsame1.mono (Nat.le_refl _) (by omega)).trans
        (hsame2.mono (by omega) (by omega))).trans
        ((hsame3.mono (by omega) (by omega)).trans (hsame4.mono (by omega) (Nat.le_refl _)))
    · rw [blockChunks, if_neg (by omega), chunksAt_cons, chunksAt_cons]
      refine ⟨?_, ⟨by simp only; omega, ?_, fun h => by simp at h⟩, chunksAt_nil⟩
      · exact (hblock2.frame (hsame3.sameOn (Or.inl (Nat.le_refl _)))).frame
          (hsame4.sameOn (Or.inl (by simp only; omega)))
      · exact hhead3.frame (hsame4.sameOn (Or.inl (by omega)))
    · unfold Kernel.writeBlock
      simp only [hdata, hfoot, hgap, hhole, hholeFoot, gt_iff_lt]
      rw [if_pos (by omega), if_pos (by omega), if_neg (by omega)]

theorem holes_blockChunks {a b s : Nat} :
    holes a (blockChunks b s) = if s = b then [] else [a + b] := by
  unfold blockChunks
  split <;> simp

theorem blocks_blockChunks {a b s : Nat} : blocks a (blockChunks b s) = [(a, b)] := by
  unfold blockChunks
  split <;> simp

/-- The prepared state of `alloc`: the hole of `left ++ [hole] ++ right` is out of the way, save for
the chunks `front` that stay before the block, and the index lists what remains. -/
structure Prepared (k k1 : Kernel) (left front right : List Chunk) (p s : Nat) : Prop where
  wellFormed : WellFormed k (left ++ [⟨total Chunk.size front + s, true⟩] ++ right)
  block : p = k.heap.startAddress + total Chunk.size left + total Chunk.size front
  start : k1.heap.startAddress = k.heap.startAddress
  endAddr : k1.heap.endAddress = k.heap.endAddress
  sameLeft : SameOn k.heap.startAddress (k.heap.startAddress + total Chunk.size left) k.mem k1.mem
  sameRight : ∀ hi, SameOn (p + s) hi k.mem k1.mem
  frontAt : ChunksAt k1.mem (k.heap.startAddress + total Chunk.size left) front
  index : (k1.heap.index.entries k1.mem).Perm
    (holes k.heap.startAddress left ++ holes (k.heap.startAddress + total Chunk.size left) front
      ++ holes (p + s) right)
  room : k1.heap.index.array + 4 * k1.heap.index.size ≤ k.heap.startAddress

/-- Writing the block into a prepared heap gives a well-formed one, and touches nothing above the
hole. -/
theorem Prepared.writeBlock {k k1 : Kernel} {left front right : List Chunk} {p s : Nat}
    (size b : Nat) (h : Prepared k k1 left front right p s) (hsize : size + 20 = b)
    (hrest : s = b ∨ b + 20 ≤ s)
    (hroom : s ≠ b → k1.heap.index.array + 4 * (k1.heap.index.size + 1) ≤ k.heap.startAddress) :
    (Kernel.writeBlock size b p s k1).1 = p + 12 ∧
      WellFormed (Kernel.writeBlock size b p s k1).2
        (left ++ (front ++ blockChunks b s) ++ right) ∧
      SameOn k.heap.startAddress (k.heap.startAddress + total Chunk.size left) k.mem
        (Kernel.writeBlock size b p s k1).2.mem ∧
      (∀ hi, SameOn (p + s) hi k.mem (Kernel.writeBlock size b p s k1).2.mem) ∧
      (s ≠ b → FooterAt (Kernel.writeBlock size b p s k1).2.mem (p + s - 8) (p + b)) := by
  have htiles := h.wellFormed.tiles
  have hlt := h.wellFormed.end_lt
  have hblock := h.block
  simp only [total_append, total_cons, total_nil] at htiles
  obtain ⟨m', hsame, hchunks, hfooter, hwrite⟩ := writeBlock_spec k1 p hsize hrest
    (by rw [h.endAddr]; omega) (by rw [h.endAddr]; exact hlt)
  rw [hwrite]
  -- the index lies below the heap, so the block's bytes leave it alone
  have hentries : k1.heap.index.entries m' = k1.heap.index.entries k1.mem :=
    OrderedArray.entries_congr (hsame.sameOn (Or.inl (by have := h.room; omega)))
  have hfront : ChunksAt m' (k.heap.startAddress + total Chunk.size left) front :=
    h.frontAt.frame (hsame.sameOn (Or.inl (by omega)))
  have hleft : SameOn k.heap.startAddress (k.heap.startAddress + total Chunk.size left) k.mem m' :=
    h.sameLeft.trans (hsame.sameOn (Or.inl (by omega)))
  have hright : ∀ hi, SameOn (p + s) hi k.mem m' := fun hi =>
    (h.sameRight hi).trans (hsame.sameOn (Or.inr (Nat.le_refl _)))
  have htotal : total Chunk.size (front ++ blockChunks b s) =
      total Chunk.size [⟨total Chunk.size front + s, true⟩] := by
    rw [total_append, total_blockChunks (by omega)]
    simp
  have hmid : ∀ m'', SameOn k.heap.startAddress k.heap.endAddress m' m'' →
      ChunksAt m'' (k.heap.startAddress + total Chunk.size left) (front ++ blockChunks b s) := by
    intro m'' hsame'
    rw [chunksAt_append]
    refine ⟨hfront.frame (hsame'.mono (by omega) (by omega)), ?_⟩
    rw [← hblock]
    exact hchunks.frame (hsame'.mono (by omega) (by rw [total_blockChunks (by omega)]; omega))
  by_cases hwhole : s = b
  · rw [if_pos hwhole]
    refine ⟨rfl, h.wellFormed.replace h.start h.endAddr htotal hleft ?_ ?_ ?_ h.room, hleft, hright,
      fun hne => absurd hwhole hne⟩
    · exact (hright _).mono (by simp only [total_cons, total_nil]; omega) (Nat.le_refl _)
    · exact hmid m' (fun _ _ _ => rfl)
    · rw [holes_append, holes_blockChunks, if_pos hwhole, List.append_nil, hentries]
      have hindex := h.index
      rwa [hblock, Nat.add_assoc (_ + _)] at hindex
  · rw [if_neg hwhole]
    have hk2 := insertHole_heap (p + b) { k1 with mem := m' }
    have hsame2 := insertHole_sameOutside (p + b) { k1 with mem := m' }
    simp only at hk2 hsame2
    have habove : ∀ lo hi, k.heap.startAddress ≤ lo →
        SameOn lo hi m' (Kernel.insertHole (p + b) { k1 with mem := m' }).mem := fun lo hi hlo =>
      hsame2.sameOn (Or.inr (by have := hroom hwhole; omega))
    refine ⟨rfl, h.wellFormed.replace ?_ ?_ htotal ?_ ?_ ?_ ?_ ?_, ?_, ?_, fun hne =>
      (hfooter hne).frame (habove _ _ (by omega))⟩
    · rw [hk2]; exact h.start
    · rw [hk2]; exact h.endAddr
    · exact hleft.trans (habove _ _ (Nat.le_refl _))
    · exact ((hright _).trans (habove _ _ (by omega))).mono
        (by simp only [total_cons, total_nil]; omega) (Nat.le_refl _)
    · exact hmid _ (habove _ _ (Nat.le_refl _))
    · have hperm := perm_insertHole (p + b) { k1 with mem := m' } (by omega)
      refine hperm.trans ?_
      simp only [hentries]
      rw [holes_append, holes_blockChunks, if_neg hwhole, ← hblock]
      have hindex := h.index
      refine (hindex.cons (p + b)).trans ?_
      rw [← List.append_assoc, List.append_assoc (_ ++ _) [p + b]]
      rw [show k.heap.startAddress + total Chunk.size left +
        total Chunk.size [⟨total Chunk.size front + s, true⟩] = p + s by
          simp only [total_cons, total_nil]; omega]
      exact List.perm_middle.symm
    · rw [hk2]; exact hroom hwhole
    · exact hleft.trans (habove _ _ (Nat.le_refl _))
    · exact fun hi => (hright hi).trans (habove _ _ (by omega))

/-! ### From a listed hole to a block -/

theorem writeBlock_heap (size newSize p s : Nat) (k : Kernel) :
    ∃ index, (Kernel.writeBlock size newSize p s k).2.heap = { k.heap with index := index } := by
  unfold Kernel.writeBlock
  dsimp only
  split
  · exact ⟨_, insertHole_heap _ _⟩
  · exact ⟨_, rfl⟩

theorem carveBlock_heap (it size newSize pageAlign : Nat) (k : Kernel) :
    ∃ index, (Kernel.carveBlock it size newSize pageAlign k).2.heap =
      { k.heap with index := index } := by
  unfold Kernel.carveBlock
  dsimp only
  split
  · exact writeBlock_heap _ _ _ _ _
  · obtain ⟨index, hheap⟩ := writeBlock_heap _ _ _ _ (Kernel.removeHole it k)
    exact ⟨index, hheap⟩

theorem carveBlock_startAddress (it size newSize pageAlign : Nat) (k : Kernel) :
    (Kernel.carveBlock it size newSize pageAlign k).2.heap.startAddress = k.heap.startAddress := by
  obtain ⟨index, hheap⟩ := carveBlock_heap it size newSize pageAlign k
  rw [hheap]

theorem carveBlock_endAddress (it size newSize pageAlign : Nat) (k : Kernel) :
    (Kernel.carveBlock it size newSize pageAlign k).2.heap.endAddress = k.heap.endAddress := by
  obtain ⟨index, hheap⟩ := carveBlock_heap it size newSize pageAlign k
  rw [hheap]

theorem writeBlock_array (size newSize p s : Nat) (k : Kernel) :
    (Kernel.writeBlock size newSize p s k).2.heap.index.array = k.heap.index.array := by
  unfold Kernel.writeBlock
  dsimp only
  split
  · rw [insertHole_heap]
  · rfl

theorem carveBlock_array (it size newSize pageAlign : Nat) (k : Kernel) :
    (Kernel.carveBlock it size newSize pageAlign k).2.heap.index.array = k.heap.index.array := by
  unfold Kernel.carveBlock
  dsimp only
  split <;> exact writeBlock_array _ _ _ _ _

/-- Whether a hole of `s` bytes at `a` can be page-aligned for a block of `b` bytes: the header, the
misplaced footer and 12 bytes more fit in front of the aligned header, the block fits behind it, and
what is left then is nothing or enough for a header and a footer. -/
def AlignFits (a s b : Nat) : Prop :=
  a % 4096 + 36 ≤ 4096 ∧ 4096 - a % 4096 - 12 + b ≤ s ∧
    (s = 4096 - a % 4096 - 12 + b ∨ 4096 - a % 4096 - 12 + b + 20 ≤ s)

instance (a s b : Nat) : Decidable (AlignFits a s b) := by
  unfold AlignFits
  infer_instance

/-- The index has room for one entry more below the first chunk. -/
def IndexRoom (k : Kernel) : Prop :=
  k.heap.index.array + 4 * (k.heap.index.size + 1) ≤ k.heap.startAddress

instance (k : Kernel) : Decidable (IndexRoom k) := by
  unfold IndexRoom
  infer_instance

section Carve

variable {k : Kernel} {cs left right : List Chunk} {it size s : Nat}

theorem WellFormed.lookup_hole (h : WellFormed k cs) (hit : it < k.heap.index.size) :
    ∃ left right, cs = left ++ [⟨headerSize k.mem (k.heap.index.lookup it k.mem), true⟩] ++ right ∧
      k.heap.index.lookup it k.mem = k.heap.startAddress + total Chunk.size left := by
  obtain ⟨left, s, right, hcs, haddr⟩ := h.hole_of_mem_entries (OrderedArray.lookup_mem hit)
  have hchunk : ChunkAt k.mem (k.heap.startAddress + total Chunk.size left) ⟨s, true⟩ := by
    subst hcs
    exact h.chunkAt
  refine ⟨left, right, ?_, haddr⟩
  rw [haddr, hchunk.header.size, hcs]
  simp

theorem prepared_removeHole (h : WellFormed k (left ++ [⟨s, true⟩] ++ right))
    (hit : it < k.heap.index.size)
    (haddr : k.heap.index.lookup it k.mem = k.heap.startAddress + total Chunk.size left) :
    Prepared k (Kernel.removeHole it k) left [] right
      (k.heap.startAddress + total Chunk.size left) s where
  wellFormed := by simpa using h
  block := by simp
  start := rfl
  endAddr := rfl
  sameLeft := (removeHole_sameOutside it k).sameOn (Or.inr h.room)
  sameRight := fun hi => (removeHole_sameOutside it k).sameOn
    (Or.inr (le_trans h.room (by omega)))
  frontAt := chunksAt_nil
  index := by
    have hperm := (perm_removeHole hit).trans h.index
    simp only [holes_append, holes_cons, holes_nil, total_cons, total_nil, ← haddr, if_true,
      List.append_nil, Nat.add_zero, List.append_assoc] at hperm ⊢
    exact (hperm.trans List.perm_middle).cons_inv
  room := by
    have hroom := h.room
    rw [removeHole_heap]
    simp only
    omega

theorem alignHole_spec {a front : Nat} (m : Mem) (hfront : front = 4096 - a % 4096 - 12)
    (hmin : 24 ≤ front) (hlt : a + front < 4294967296) :
    SameOutside a (a + front) m (Kernel.alignHole a (a + front) m) ∧
      HeaderAt (Kernel.alignHole a (a + front) m) a true front := by
  set m1 := writeHeader m a 1 front with hm1
  set m2 := writeFooter m1 (a + front - 12) a with hm2
  have hmem : Kernel.alignHole a (a + front) m = m2 := by
    unfold Kernel.alignHole
    rw [and_lowMask, sub32_eq (show a % 4096 ≤ 0x1000 by omega) (by omega),
      sub32_eq (show sizeofHeader ≤ 0x1000 - a % 4096 by unfold sizeofHeader; omega) (by omega),
      sub32_eq (show sizeofHeader ≤ a + front by unfold sizeofHeader; omega) (by omega)]
    unfold sizeofHeader
    rw [← hfront]
  rw [hmem]
  constructor
  · exact ((SameOutside.refl _ _ _).writeHeader (Nat.le_refl _) (by omega)).writeFooter
      (by omega) (by omega)
  · exact headerAt_of_writeFooter (headerAt_writeHeader m a true (by omega)) (Or.inl (by omega))

theorem prepared_alignHole (h : WellFormed k (left ++ [⟨s, true⟩] ++ right)) {a front : Nat}
    (haddr : a = k.heap.startAddress + total Chunk.size left)
    (hfront : front = 4096 - a % 4096 - 12) (hmin : 24 ≤ front) (hle : front ≤ s) :
    Prepared k { k with mem := Kernel.alignHole a (a + front) k.mem } left [⟨front, true⟩] right
      (a + front) (s - front) := by
  have hend : k.heap.startAddress + total Chunk.size left + s ≤ k.heap.endAddress := by
    have htiles := h.tiles
    simp only [total_append, total_cons, total_nil] at htiles
    omega
  have hlt := h.end_lt
  have hroom := h.room
  obtain ⟨hsame, hhead⟩ := alignHole_spec k.mem hfront hmin (by omega)
  set m2 := Kernel.alignHole a (a + front) k.mem
  refine ⟨?_, ?_, rfl, rfl, hsame.sameOn (Or.inl (by omega)),
    fun hi => hsame.sameOn (Or.inr (by omega)), ?_, ?_, hroom⟩
  · simpa [Nat.add_sub_cancel' hle] using h
  · simp [haddr]
  · rw [chunksAt_cons, ← haddr]
    exact ⟨⟨by simp only; omega, hhead, fun hcon => by simp at hcon⟩, chunksAt_nil⟩
  · have hentries : k.heap.index.entries m2 = k.heap.index.entries k.mem :=
      OrderedArray.entries_congr (hsame.sameOn (Or.inl (by omega)))
    have hindex := h.index
    simp only [holes_append, holes_cons, holes_nil, total_append, total_cons, total_nil] at hindex ⊢
    rw [hentries, ← haddr, show a + front + (s - front) = a + s by omega]
    simpa [← haddr, ← Nat.add_assoc] using hindex

/-- The size of the block that a plain request gets from a hole of `s` bytes. -/
def plainBlock (size s : Nat) : Nat := if s - (size + 20) < 20 then s else size + 20

theorem plainBlock_spec {s : Nat} (hfits : size + 20 ≤ s) :
    size + 20 ≤ plainBlock size s ∧ (s = plainBlock size s ∨ plainBlock size s + 20 ≤ s) := by
  unfold plainBlock
  split <;> omega

theorem carveBlock_plain {a s : Nat} (ha : a = k.heap.index.lookup it k.mem)
    (hs : s = headerSize k.mem a) (hfits : size + 20 ≤ s) :
    Kernel.carveBlock it size (size + 20) 0 k =
      Kernel.writeBlock (plainBlock size s - 20) (plainBlock size s) a s
          (Kernel.removeHole it k) := by
  have hlt : s < 4294967296 := by
    rw [hs]
    exact read32_lt _ _
  have hgap : sub32 s (size + 20) = s - (size + 20) := sub32_eq hfits hlt
  unfold Kernel.carveBlock sizeofHeader sizeofFooter plainBlock
  simp only [← ha, ← hs, hgap, ne_eq, not_true_eq_false, false_and, if_false]
  by_cases hsmall : s - (size + 20) < 20
  · rw [if_pos hsmall, if_pos hsmall, add32_eq (by omega)]
    congr 1
    omega
  · rw [if_neg hsmall, if_neg hsmall, Nat.add_sub_cancel]

theorem carveBlock_aligned {pageAlign a s front : Nat} (hplain : pageAlign ≠ 0)
    (ha : a = k.heap.index.lookup it k.mem) (hs : s = headerSize k.mem a) (hpage : 4096 ≤ a)
    (hfits : AlignFits a s (size + 20)) (hfront : front = 4096 - a % 4096 - 12)
    (hsize : headerSize (Kernel.alignHole a (a + front) k.mem) a = front) :
    Kernel.carveBlock it size (size + 20) pageAlign k =
      Kernel.writeBlock size (size + 20) (a + front) (s - front)
        { k with mem := Kernel.alignHole a (a + front) k.mem } := by
  obtain ⟨hoffset, hroom, hrest⟩ := hfits
  have hlt : s < 4294967296 := by
    rw [hs]
    exact read32_lt _ _
  have halt : a < 4294967296 := by
    rw [ha]
    exact OrderedArray.lookup_lt _ _ _
  have hgap : sub32 s (size + 20) = s - (size + 20) := sub32_eq (by omega) hlt
  have hmask : a &&& 0xFFFFF000 ≠ 0 := by
    rw [ne_eq, and_highMask_eq_zero_iff halt]
    omega
  have hloc : sub32 (sub32 (add32 a 0x1000) (a &&& 0xFFF)) sizeofHeader = a + front := by
    rw [and_lowMask]
    unfold sizeofHeader
    unfold add32 sub32
    omega
  unfold Kernel.carveBlock
  simp only [← ha, ← hs, hgap, hloc, hmask, hplain, ne_eq, not_false_eq_true, true_and, if_true,
    hsize]
  rw [if_neg (by unfold sizeofHeader sizeofFooter; omega),
    if_neg (by unfold sizeofHeader sizeofFooter; omega), sub32_eq (by omega) hlt]

/-- The heap `k'` after serving a request from the hole of `s` bytes behind `left`: a front part
that stays a hole, empty unless the request is page-aligned, the block of `b` bytes, and what is
left. -/
structure Carved (k : Kernel) (left front : List Chunk) (s : Nat) (right : List Chunk) (b : Nat)
    (k' : Kernel) : Prop where
  frontHole : front = [] ∨ ∃ f, front = [⟨f, true⟩]
  room : total Chunk.size front + b ≤ s
  start : k'.heap.startAddress = k.heap.startAddress
  endAddr : k'.heap.endAddress = k.heap.endAddress
  wellFormed : WellFormed k' (left ++ (front ++ blockChunks b
      (s - total Chunk.size front)) ++ right)
  sameLeft : SameOn k.heap.startAddress (k.heap.startAddress + total Chunk.size left) k.mem k'.mem
  sameRight : ∀ hi, SameOn (k.heap.startAddress + total Chunk.size left + s) hi k.mem k'.mem
  footer : s - total Chunk.size front ≠ b →
    FooterAt k'.mem (k.heap.startAddress + total Chunk.size left + s - 8)
      (k.heap.startAddress + total Chunk.size left + total Chunk.size front + b)

/-- **Serving a request from a listed hole.** -/
theorem carveBlock_spec {pageAlign a s : Nat} (h : WellFormed k cs) (hit : it < k.heap.index.size)
    (ha : a = k.heap.index.lookup it k.mem) (hs : s = headerSize k.mem a)
    (hfits : size + 20 ≤ s)
    (halign : pageAlign ≠ 0 → AlignFits a s (size + 20) ∧ IndexRoom k) :
    ∃ left front right b, cs = left ++ [⟨s, true⟩] ++ right ∧
      a = k.heap.startAddress + total Chunk.size left ∧
      front = (if pageAlign = 0 then [] else [⟨4096 - a % 4096 - 12, true⟩]) ∧ size + 20 ≤ b ∧
      (Kernel.carveBlock it size (size + 20) pageAlign k).1 = a + total Chunk.size front + 12 ∧
      Carved k left front s right b (Kernel.carveBlock it size (size + 20) pageAlign k).2 := by
  obtain ⟨left, right, hcs, haddr⟩ := h.lookup_hole hit
  rw [← ha, ← hs] at hcs
  rw [← ha] at haddr
  subst hcs
  have htiles := h.tiles
  have hstart := h.start_ge
  have hlt := h.end_lt
  simp only [total_append, total_cons, total_nil] at htiles
  have hstart' := carveBlock_startAddress it size (size + 20) pageAlign k
  have hend' := carveBlock_endAddress it size (size + 20) pageAlign k
  by_cases hplain : pageAlign = 0
  · -- a plain request: the hole leaves the index, and the block starts where it did
    have hprep := prepared_removeHole h hit (by rw [← ha]; exact haddr)
    rw [← haddr] at hprep
    have hroom := h.room
    obtain ⟨hb, hrest⟩ := plainBlock_spec hfits
    have hcarve := carveBlock_plain ha hs hfits
    rw [← hplain] at hcarve
    set b := plainBlock size s
    have hwrite := hprep.writeBlock (b - 20) b (by omega) hrest (fun _ => by
      rw [removeHole_heap]
      simp only
      omega)
    rw [hcarve] at hstart' hend' ⊢
    rw [← haddr] at hwrite
    obtain ⟨hp, hwf, hsameLeft, hsameRight, hfooter⟩ := hwrite
    refine ⟨left, [], right, b, rfl, haddr, by rw [if_pos hplain], hb,
      by simpa using hp, Or.inl rfl, by rw [total_nil]; omega, hstart', hend',
      by simpa using hwf, by rw [← haddr]; exact hsameLeft, by rw [← haddr]; exact hsameRight, ?_⟩
    rw [← haddr]
    simpa using hfooter
  · -- a page-aligned one: the front of the hole stays in the index
    obtain ⟨hfitsAligned, hindexRoom⟩ := halign hplain
    obtain ⟨hoffset, hroom', hrest⟩ := hfitsAligned
    set front := 4096 - a % 4096 - 12 with hfront
    have hprep := prepared_alignHole h haddr hfront (by omega) (by omega)
    have hsize : headerSize (Kernel.alignHole a (a + front) k.mem) a = front := by
      have hhead := (chunksAt_cons.mp hprep.frontAt).1.header.size
      rwa [← haddr] at hhead
    have hcarve := carveBlock_aligned hplain ha hs (by omega) (halign hplain).1 hfront hsize
    have hwrite := hprep.writeBlock size (size + 20) rfl (by omega)
      (fun _ => hindexRoom)
    rw [hcarve] at hstart' hend' ⊢
    rw [← haddr, show a + front + (s - front) = a + s by omega] at hwrite
    obtain ⟨hp, hwf, hsameLeft, hsameRight, hfooter⟩ := hwrite
    refine ⟨left, [⟨front, true⟩], right, size + 20, rfl, haddr, by rw [if_neg hplain],
      Nat.le_refl _, by simpa using hp, Or.inr ⟨front, rfl⟩,
      by simp only [total_cons, total_nil]; omega, hstart', hend', by simpa using hwf,
      by rw [← haddr]; exact hsameLeft, by rw [← haddr]; exact hsameRight, ?_⟩
    rw [← haddr]
    simpa using hfooter

end Carve

end Vulcanos
