import Vulcanos.Proof.Carve

/-!
# `free` keeps the heap well formed

`free` finds its left neighbour through the footer in front of the block, and that footer can be
stale: a merge to the right leaves the old footer of the merged hole in place. It finds its right
neighbour by the header behind the block, which is not a header when the block is the last chunk.
And it contracts the heap to `HEAP_MIN_SIZE`, wherever the freed block begins. `FreeOk` asks that
none of this goes wrong; the rest of the module follows `free` through its three merging steps.
-/

namespace Vulcanos

open Memory Word Layout

/-! ### The condition on a call -/

def markHole (head : Nat) (m : Mem) : Mem := write8 m (head + 4) 1

/-- `free` unifies the chunk at `head` with what the footer in front of it points to. -/
def UnifiesLeft (m : Mem) (head : Nat) : Prop :=
  footerMagic m (head - sizeofFooter) = heapMagic ∧
    headerIsHole m (footerHeader m (head - sizeofFooter)) = 1

def UnifiesRight (m : Mem) (next : Nat) : Prop :=
  headerMagic m next = heapMagic ∧ headerIsHole m next ≠ 0

instance (m : Mem) (head : Nat) : Decidable (UnifiesLeft m head) := by
  unfold UnifiesLeft
  infer_instance

instance (m : Mem) (next : Nat) : Decidable (UnifiesRight m next) := by
  unfold UnifiesRight
  infer_instance

/-- The header of the hole that the freed block becomes. -/
def unifiedHead (m : Mem) (head : Nat) : Nat :=
  if UnifiesLeft m head then footerHeader m (head - sizeofFooter) else head

/-- What freeing the block at `head` needs: a footer in front of it that counts is the footer of the
listed hole there, no header lies behind the last chunk, a contraction leaves room for a header and
a footer, and an entry that is added has room in the index. -/
structure FreeOk (head : Nat) (k : Kernel) : Prop where
  left : UnifiesLeft (markHole head k.mem) head →
    unifiedHead (markHole head k.mem) head ∈ k.heap.index.entries k.mem ∧
      unifiedHead (markHole head k.mem) head +
        headerSize k.mem (unifiedHead (markHole head k.mem) head) = head
  right : head + headerSize k.mem head = k.heap.endAddress →
    ¬ UnifiesRight k.mem k.heap.endAddress
  contraction : head + headerSize k.mem head = k.heap.endAddress →
    unifiedHead (markHole head k.mem) head + 20 ≤ k.heap.startAddress + heapMinSize
  room : ¬ UnifiesLeft (markHole head k.mem) head →
    ¬ UnifiesRight k.mem (head + headerSize k.mem head) → IndexRoom k

instance (head : Nat) (k : Kernel) : Decidable (FreeOk head k) :=
  decidable_of_iff (_ ∧ _ ∧ _ ∧ _)
    ⟨fun ⟨h1, h2, h3, h4⟩ => ⟨h1, h2, h3, h4⟩, fun ⟨h1, h2, h3, h4⟩ => ⟨h1, h2, h3, h4⟩⟩

/-! ### The hole under construction -/

/-- The kernel `k1` in the middle of a `free`: of the chunks `left ++ lh ++ [⟨s, false⟩] ++ rh ++
right` of `k`, those around the block have become one hole of `n` bytes at `hd`. It is listed if it
was a hole before. -/
structure Merging (k : Kernel) (left lh : List Chunk) (s : Nat) (rh right : List Chunk)
    (hd n : Nat) (k1 : Kernel) : Prop where
  head : hd = k.heap.startAddress + total Chunk.size left
  minSize : 20 ≤ n
  uncut : right ≠ [] → n = total Chunk.size lh + s + total Chunk.size rh
  start : k1.heap.startAddress = k.heap.startAddress
  tiles : hd + n + total Chunk.size right = k1.heap.endAddress
  end_le : k1.heap.endAddress ≤ k.heap.endAddress
  header : HeaderAt k1.mem hd true n
  footer : rh = [] → FooterAt k1.mem (hd + n - 8) hd
  sameLeft : SameOn k.heap.startAddress hd k.mem k1.mem
  sameRight : ∀ hi, SameOn (hd + total Chunk.size lh + s) hi k.mem k1.mem
  sublist : (k1.heap.index.entries k1.mem).Sublist (k.heap.index.entries k.mem)
  index : (k1.heap.index.entries k1.mem).Perm (holes k.heap.startAddress left ++
    (if lh = [] then [] else [hd]) ++
      holes (hd + total Chunk.size lh + s + total Chunk.size rh) right)
  array : k1.heap.index.array = k.heap.index.array
  size : k1.heap.index.size + rh.length ≤ k.heap.index.size

section Steps

variable {k k1 : Kernel} {left lh rest rh right : List Chunk} {head s r hd n : Nat}

theorem markHole_sameOutside (head : Nat) (m : Mem) :
    SameOutside (head + 4) (head + 5) m (markHole head m) :=
  (SameOutside.refl _ _ m).write8 (Nat.le_refl _) (by omega)

theorem headerAt_markHole {m : Mem} (h : HeaderAt m head false s) :
    HeaderAt (markHole head m) head true s where
  magic := (read32_write8_of_apart (by omega)).trans h.magic
  isHole := read8_write8_self _ _ _
  size := (read32_write8_of_apart (by omega)).trans h.size

theorem leftUnify_not (h : WellFormed k (left ++ ⟨s, false⟩ :: rest))
    (hhead : head = k.heap.startAddress + total Chunk.size left)
    (hnot : ¬ UnifiesLeft (markHole head k.mem) head) :
    ∃ k1, Kernel.leftUnify head (head + s - 8) { k with mem := markHole head k.mem } =
        ⟨head, head + s - 8, head - 8, true, k1⟩ ∧
      Merging k left [] s [] rest head s k1 := by
  have hstart := h.start_ge
  have hlt := h.end_lt
  have hle := h.chunk_end_le
  have hroom := h.room
  have htiles := h.tiles
  have hchunk := h.chunkAt
  rw [← hhead] at hchunk hle
  simp only at hle
  simp only [total_append, total_cons] at htiles
  have hmin := hchunk.minSize
  simp only at hmin
  have htest : sub32 head sizeofFooter = head - sizeofFooter :=
    sub32_eq (by unfold sizeofFooter; omega) (by omega)
  have hsame := markHole_sameOutside head k.mem
  have hentries : k.heap.index.entries (markHole head k.mem) = k.heap.index.entries k.mem :=
    OrderedArray.entries_congr (hsame.sameOn (Or.inl (by omega)))
  refine ⟨{ k with mem := markHole head k.mem }, ?_, hhead, hmin, fun _ => by simp, rfl, ?_,
      Nat.le_refl _,
    headerAt_markHole hchunk.header, ?_, ?_, ?_, ?_, ?_, rfl, Nat.le_refl _⟩
  · unfold UnifiesLeft at hnot
    unfold Kernel.leftUnify
    simp only [htest, if_neg hnot]
    rfl
  · simp only
    omega
  · exact fun _ => (hchunk.footer rfl).frame (hsame.sameOn (Or.inr (by simp only; omega)))
  · exact hsame.sameOn (Or.inl (by omega))
  · exact fun hi => hsame.sameOn (Or.inr (by simp only [total_nil]; omega))
  · simp only [hentries]
    exact List.Sublist.refl _
  · have hindex := h.index
    simp only [hentries, holes_append, holes_cons, ← hhead] at hindex ⊢
    simpa using hindex

/-- Left unify of the block behind a hole, once it has found the hole: flag, back pointer and size
are stored. -/
theorem leftUnify_takes {t : Nat} (hhole : ChunkAt k.mem hd ⟨t, true⟩)
    (hblock : ChunkAt k.mem (hd + t) ⟨s, false⟩) (hlt : hd + t + s < 4294967296)
    (hmagic : footerMagic (markHole (hd + t) k.mem) (sub32 (hd + t) sizeofFooter) = heapMagic)
    (hfound : footerHeader (markHole (hd + t) k.mem) (sub32 (hd + t) sizeofFooter) = hd) :
    ∃ m, Kernel.leftUnify (hd + t) (hd + t + s - 8)
        { k with mem := markHole (hd + t) k.mem } =
          ⟨hd, hd + t + s - 8, sub32 (hd + t) sizeofFooter, false, { k with mem := m }⟩ ∧
      HeaderAt m hd true (t + s) ∧ FooterAt m (hd + (t + s) - 8) hd ∧
      SameOutside (hd + 8) (hd + t + s) k.mem m := by
  have hmint := hhole.minSize
  have hmin := hblock.minSize
  simp only at hmint hmin
  obtain ⟨m1, hm1⟩ : ∃ m1, m1 = markHole (hd + t) k.mem := ⟨_, rfl⟩
  obtain ⟨m2, hm2⟩ : ∃ m2, m2 = write32 m1 (hd + t + s - 8 + 4) hd := ⟨_, rfl⟩
  obtain ⟨m3, hm3⟩ : ∃ m3, m3 = write32 m2 (hd + 8) (t + s) := ⟨_, rfl⟩
  rw [← hm1] at hmagic hfound
  have hsame1 : SameOutside (hd + t + 4) (hd + t + 5) k.mem m1 := by
    rw [hm1]
    exact markHole_sameOutside (hd + t) k.mem
  have hsame2 : SameOutside (hd + t + s - 4) (hd + t + s) m1 m2 := by
    rw [hm2]
    exact (SameOutside.refl _ _ m1).write32 (by omega) (by omega)
  have hsame3 : SameOutside (hd + 8) (hd + 12) m2 m3 := by
    rw [hm3]
    exact (SameOutside.refl _ _ m2).write32 (Nat.le_refl _) (by omega)
  have hsame12 : SameOutside (hd + t + 4) (hd + t + s) k.mem m2 :=
    (hsame1.mono (Nat.le_refl _) (by omega)).trans (hsame2.mono (by omega) (Nat.le_refl _))
  have hhole1 : HeaderAt m1 hd true t := hhole.header.frame (hsame1.sameOn (Or.inl (by omega)))
  have hhole2 : HeaderAt m2 hd true t := hhole.header.frame (hsame12.sameOn (Or.inl (by omega)))
  have hsize1 : headerSize m1 (hd + t) = s := by
    rw [hm1]
    exact (headerAt_markHole hblock.header).size
  have hheader3 : HeaderAt m3 hd true (t + s) := by
    rw [hm3]
    exact headerAt_of_writeSize hhole2 (by omega)
  have hfooter2 : FooterAt m2 (hd + t + s - 8) hd := by
    rw [hm2]
    exact footerAt_of_writeHead
      ((hblock.footer rfl).frame (hsame1.sameOn (Or.inr (by simp only; omega)))) (by omega)
  refine ⟨m3, ?_, hheader3, ?_, ?_⟩
  · have hcond : footerMagic m1 (sub32 (hd + t) sizeofFooter) = heapMagic ∧
        headerIsHole m1 hd = 1 := ⟨hmagic, hhole1.isHole⟩
    unfold Kernel.leftUnify
    simp only [← hm1, hfound, if_pos hcond, hsize1, ← hm2, hhole2.size]
    rw [add32_eq (by omega), ← hm3]
  · rw [← Nat.add_assoc]
    exact hfooter2.frame (hsame3.sameOn (Or.inr (by omega)))
  · exact (hsame12.mono (by omega) (Nat.le_refl _)).trans (hsame3.mono (Nat.le_refl _) (by omega))

theorem leftUnify_unifies (h : WellFormed k (left ++ ⟨s, false⟩ :: rest))
    (hhead : head = k.heap.startAddress + total Chunk.size left)
    (hunifies : UnifiesLeft (markHole head k.mem) head)
    (hmem : unifiedHead (markHole head k.mem) head ∈ k.heap.index.entries k.mem)
    (hends : unifiedHead (markHole head k.mem) head +
      headerSize k.mem (unifiedHead (markHole head k.mem) head) = head) :
    ∃ left' t k1, left = left' ++ [⟨t, true⟩] ∧
      Kernel.leftUnify head (head + s - 8) { k with mem := markHole head k.mem } =
        ⟨head - t, head + s - 8, head - 8, false, k1⟩ ∧
      Merging k left' [⟨t, true⟩] s [] rest (head - t) (t + s) k1 := by
  have hstart := h.start_ge
  have hlt := h.end_lt
  have hle := h.chunk_end_le
  have hroom := h.room
  have hchunk := h.chunkAt
  have hminAll := h.minSize
  rw [← hhead] at hchunk hle
  have hmin := hchunk.minSize
  simp only at hmin hle
  -- the hole found is the chunk in front of the block
  rw [unifiedHead, if_pos hunifies] at hmem hends
  obtain ⟨left', t, right', hcs, haddr⟩ := h.hole_of_mem_entries hmem
  have hhole : ChunkAt k.mem (k.heap.startAddress + total Chunk.size left') ⟨t, true⟩ := by
    rw [hcs] at h
    exact h.chunkAt
  rw [← haddr] at hhole
  rw [hhole.header.size] at hends
  have hmint := hhole.minSize
  simp only at hmint hends
  have hsplit : left = left' ++ [⟨t, true⟩] := by
    cases right' with
    | nil =>
        have htotal := congrArg (total Chunk.size) hcs
        simp only [total_append, total_cons, total_nil] at htotal
        omega
    | cons c right' =>
        refine (split_unique hminAll rfl
          (hcs.trans (List.append_cons left' ⟨t, true⟩ (c :: right'))) ?_).1
        simp only [total_append, total_cons, total_nil]
        omega
  subst hsplit
  have htiles := h.tiles
  simp only [total_append, total_cons, total_nil] at htiles hhead
  have htest : sub32 head sizeofFooter = head - sizeofFooter :=
    sub32_eq (by unfold sizeofFooter; omega) (by omega)
  obtain ⟨hd, hhd⟩ : ∃ hd, hd = footerHeader (markHole head k.mem) (head - sizeofFooter) :=
    ⟨_, rfl⟩
  rw [← hhd] at hhole hends haddr
  obtain rfl : head = hd + t := hends.symm
  obtain ⟨m, hcall, hheader, hfooter, hsame⟩ := leftUnify_takes hhole hchunk (by omega)
    (by rw [htest]; exact hunifies.1) (by rw [htest, ← hhd])
  have hentries : k.heap.index.entries m = k.heap.index.entries k.mem :=
    OrderedArray.entries_congr (hsame.sameOn (Or.inl (by omega)))
  refine ⟨left', t, { k with mem := m }, rfl, ?_, ?_⟩ <;> rw [Nat.add_sub_cancel]
  · rw [hcall, htest]
    rfl
  · refine ⟨haddr, by omega, fun _ => by simp, rfl, ?_, Nat.le_refl _, hheader, fun _ => hfooter,
      hsame.sameOn (Or.inl (by omega)), fun hi => ?_, ?_, ?_, rfl, Nat.le_refl _⟩
    · simp only
      omega
    · exact hsame.sameOn (Or.inr (by simp only [total_cons, total_nil]; omega))
    · simp only [hentries]
      exact List.Sublist.refl _
    · have hindex := h.index
      simp only [hentries, holes_append, holes_cons, holes_nil, total_append, total_cons, total_nil,
        if_true, List.append_nil] at hindex ⊢
      rw [if_neg (by simp), haddr]
      simpa [Nat.add_assoc] using hindex

theorem findEntry_spec (hmem : head ∈ k.heap.index.entries k.mem) :
    Kernel.findEntry head k k.heap.index.size 0 < k.heap.index.size ∧
      k.heap.index.lookup (Kernel.findEntry head k k.heap.index.size 0) k.mem = head := by
  have hfrom : ∀ n it j, it ≤ j → j < it + n → k.heap.index.lookup j k.mem = head →
      Kernel.findEntry head k n it < it + n ∧
        k.heap.index.lookup (Kernel.findEntry head k n it) k.mem = head := by
    intro n
    induction n with
    | zero => intro it j hle hlt; omega
    | succ n ih =>
        intro it j hle hlt hj
        rw [Kernel.findEntry]
        by_cases hhere : k.heap.index.lookup it k.mem = head
        · rw [if_neg (not_not.mpr hhere)]
          exact ⟨by omega, hhere⟩
        · rw [if_pos hhere]
          have hne : it ≠ j := fun heq => hhere (heq ▸ hj)
          obtain ⟨hlt', hfound⟩ := ih (it + 1) j (by omega) (by omega) hj
          exact ⟨by omega, hfound⟩
  obtain ⟨j, hj, hjx⟩ := List.mem_map.mp hmem
  obtain ⟨hlt, hfound⟩ := hfrom k.heap.index.size 0 j (Nat.zero_le j)
    (by have := List.mem_range.mp hj; omega) hjx
  exact ⟨by omega, hfound⟩

variable {testFoot : Nat} {add : Bool}

theorem rightUnify_not (hnext : hd + n < 4294967296) (hmin : 8 ≤ n)
    (hnot : ¬ UnifiesRight k1.mem (hd + n)) :
    Kernel.rightUnify ⟨hd, hd + n - 8, testFoot, add, k1⟩ =
      .ok ⟨hd, hd + n - 8, testFoot, add, k1⟩ := by
  have hhead : add32 (hd + n - 8) sizeofFooter = hd + n := by
    unfold sizeofFooter
    rw [add32_eq (by omega)]
    omega
  unfold UnifiesRight at hnot
  unfold Kernel.rightUnify
  simp only [hhead, if_neg hnot]

/-- Right unify of a hole with the listed hole behind it: the size is stored, and the entry leaves
the index. -/
theorem rightUnify_takes {m : Mem} (testFoot : Nat) (add : Bool)
    (hheader : HeaderAt k1.mem hd true n) (hnext : HeaderAt k1.mem (hd + n) true r)
    (hmin : 20 ≤ n) (hlt : hd + n + r < 4294967296) (hm : m = write32 k1.mem (hd + 8) (n + r))
    (hentries : k1.heap.index.entries m = k1.heap.index.entries k1.mem)
    (hlisted : hd + n ∈ k1.heap.index.entries k1.mem) :
    HeaderAt m hd true (n + r) ∧ SameOutside (hd + 8) (hd + 12) k1.mem m ∧
      ∃ it < k1.heap.index.size, k1.heap.index.lookup it m = hd + n ∧
        Kernel.rightUnify ⟨hd, hd + n - 8, testFoot, add, k1⟩ =
          .ok ⟨hd, sub32 (add32 testFoot r) sizeofFooter, sub32 (add32 testFoot r) sizeofFooter,
            add, Kernel.removeHole it { k1 with mem := m }⟩ := by
  have hhead : add32 (hd + n - 8) sizeofFooter = hd + n := by
    unfold sizeofFooter
    rw [add32_eq (by omega)]
    omega
  have hsame : SameOutside (hd + 8) (hd + 12) k1.mem m := by
    rw [hm]
    exact (SameOutside.refl _ _ _).write32 (Nat.le_refl _) (Nat.le_refl _)
  have hsizeAfter : headerSize m (hd + n) = r :=
    (hnext.frame (hsame.sameOn (Or.inr (by omega)))).size
  have hmem : hd + n ∈ ({ k1 with mem := m } : Kernel).heap.index.entries m := by
    dsimp only
    rwa [hentries]
  obtain ⟨hit, hfound⟩ := findEntry_spec (k := { k1 with mem := m }) hmem
  refine ⟨?_, hsame, _, hit, hfound, ?_⟩
  · rw [hm]
    exact headerAt_of_writeSize hheader (by omega)
  · have hcond : headerMagic k1.mem (hd + n) = heapMagic ∧ headerIsHole k1.mem (hd + n) ≠ 0 :=
      ⟨hnext.magic, by rw [hnext.isHole]; decide⟩
    unfold Kernel.rightUnify
    simp only [hhead, if_pos hcond, hnext.size, hheader.size,
      add32_eq (show n + r < 4294967296 by omega), ← hm, hsizeAfter]
    rw [assertThat_of _ hit]
    rfl

/-- **The hole behind** the new one gives its bytes to it and leaves the index. The footer that the
code computes then is not the merged hole's. -/
theorem rightUnify_unifies (testFoot : Nat) (add : Bool)
    (h : WellFormed k (left ++ lh ++ ⟨s, false⟩ :: ⟨r, true⟩ :: right))
    (hmerging : Merging k left lh s [] (⟨r, true⟩ :: right) hd n k1)
    (hn : n = total Chunk.size lh + s) (hend : k1.heap.endAddress = k.heap.endAddress) :
    ∃ k2, Kernel.rightUnify ⟨hd, hd + n - 8, testFoot, add, k1⟩ =
        .ok ⟨hd, sub32 (add32 testFoot r) sizeofFooter, sub32 (add32 testFoot r) sizeofFooter, add,
          k2⟩ ∧
      Merging k left lh s [⟨r, true⟩] right hd (n + r) k2 ∧
      k2.heap.endAddress = k.heap.endAddress := by
  have hstart := h.start_ge
  have hlt := h.end_lt
  have htiles := hmerging.tiles
  have hhd := hmerging.head
  have hmin := hmerging.minSize
  have hroom := h.room
  have harray := hmerging.array
  have hsize := hmerging.size
  simp only [total_cons, List.length_nil] at htiles hsize
  -- the neighbour's header, as the code reads it
  have hnext : ChunkAt k1.mem (hd + n) ⟨r, true⟩ := by
    have hwf : WellFormed k ((left ++ lh ++ [⟨s, false⟩]) ++ ⟨r, true⟩ :: right) := by
      simpa using h
    have hchunk := hwf.chunkAt
    simp only [total_append, total_cons, total_nil] at hchunk
    rw [show k.heap.startAddress + (total Chunk.size left + total Chunk.size lh + (s + 0)) = hd + n
      by omega] at hchunk
    exact hchunk.frame ((hmerging.sameRight (hd + n + r)).mono (by omega) (Nat.le_refl _))
  have hminr := hnext.minSize
  have hheader := hnext.header
  simp only at hminr hheader
  obtain ⟨m1, hm1⟩ : ∃ m1, m1 = write32 k1.mem (hd + 8) (n + r) := ⟨_, rfl⟩
  have hwrite : SameOutside (hd + 8) (hd + 12) k1.mem m1 := by
    rw [hm1]
    exact (SameOutside.refl _ _ _).write32 (Nat.le_refl _) (Nat.le_refl _)
  have hentries : k1.heap.index.entries m1 = k1.heap.index.entries k1.mem :=
    OrderedArray.entries_congr (hwrite.sameOn (Or.inl (by omega)))
  have hindex := hmerging.index
  simp only [total_nil, Nat.add_zero, holes_cons, if_true] at hindex
  rw [show hd + total Chunk.size lh + s = hd + n by omega] at hindex
  have hlisted : hd + n ∈ k1.heap.index.entries k1.mem := by
    rw [hindex.mem_iff]
    simp
  obtain ⟨hnew, hsame1, it, hitlt, hitfound, hunify⟩ := rightUnify_takes testFoot add
    hmerging.header hheader (by omega) (by omega) hm1 hentries hlisted
  obtain ⟨kw, hkw⟩ : ∃ kw : Kernel, kw = { k1 with mem := m1 } := ⟨_, rfl⟩
  have hkwmem : kw.mem = m1 := by rw [hkw]
  have hkwheap : kw.heap = k1.heap := by rw [hkw]
  rw [← hkwheap, ← hkwmem] at hitfound hentries
  rw [← hkw] at hunify
  have hperm := perm_removeHole (k := kw) (by rw [hkwheap]; exact hitlt)
  rw [hitfound, hentries, hkwheap] at hperm
  have hsame2 := removeHole_sameOutside it kw
  have hheap2 := removeHole_heap it kw
  have hentries2 := entries_removeHole (k := kw) (by rw [hkwheap]; exact hitlt)
  rw [hentries, hkwheap] at hentries2
  rw [hkwheap] at hheap2
  rw [hkwmem, hkwheap] at hsame2
  have habove : ∀ lo hi, k.heap.startAddress ≤ lo →
      SameOn lo hi m1 (Kernel.removeHole it kw).mem :=
    fun lo hi hlo => hsame2.sameOn (Or.inr (by omega))
  refine ⟨_, hunify, ⟨hhd, by omega, fun _ => by simp [hn], ?_, ?_, ?_, ?_,
      fun hcon => by simp at hcon, ?_, ?_, ?_, ?_,
    ?_, ?_⟩, ?_⟩
  · rw [hheap2]
    exact hmerging.start
  · rw [hheap2]
    simp only
    omega
  · rw [hheap2]
    exact hmerging.end_le
  · exact hnew.frame (habove _ _ (by omega))
  · exact (hmerging.sameLeft.trans (hsame1.sameOn (Or.inl (by omega)))).trans
      (habove _ _ (Nat.le_refl _))
  · exact fun hi => ((hmerging.sameRight hi).trans (hsame1.sameOn (Or.inr (by omega)))).trans
      (habove _ _ (by omega))
  · rw [hentries2]
    exact (List.eraseIdx_sublist _ _).trans hmerging.sublist
  · simp only [total_cons, total_nil, Nat.add_zero]
    rw [show hd + total Chunk.size lh + s + r = hd + n + r by omega]
    exact ((hperm.trans hindex).trans List.perm_middle).cons_inv
  · rw [hheap2]
    exact harray
  · rw [hheap2]
    simp only [List.length_singleton]
    omega
  · rw [hheap2]
    exact hend

/-! ### Contracting -/

/-- Below `HEAP_MIN_SIZE` every size is rounded to it, whatever the mask in between leaves. -/
theorem contractSize_eq {x : Nat} (hx : x < heapMinSize) : Kernel.contractSize x = heapMinSize := by
  unfold Kernel.contractSize
  unfold heapMinSize at hx ⊢
  rcases and_pageBit x with hbit | hbit
  · simp only [hbit, ne_eq, not_true_eq_false, if_false]
    rw [if_pos hx]
  · simp only [hbit]
    rfl

theorem contractLoop_eq (newSize m it : Nat) (k : Kernel) :
    (Kernel.contractLoop newSize m it k).mem = k.mem ∧
      (Kernel.contractLoop newSize m it k).heap = k.heap := by
  induction m generalizing it k with
  | zero => exact ⟨rfl, rfl⟩
  | succ m ih =>
      rw [Kernel.contractLoop]
      split
      · obtain ⟨hmem, hheap⟩ := ih (sub32 it 0x1000)
          (Kernel.freeFrameAt (Kernel.lookupPage (add32 k.heap.startAddress it) k) k)
        exact ⟨hmem.trans rfl, hheap.trans rfl⟩
      · exact ⟨rfl, rfl⟩

theorem contract_ok (newSize : Nat)
    (hold : newSize < sub32 k.heap.endAddress k.heap.startAddress) :
    Kernel.contract newSize k = .ok (Kernel.contractSize newSize,
      withEnd (add32 k.heap.startAddress (Kernel.contractSize newSize))
        (Kernel.contractLoop (Kernel.contractSize newSize)
          (sub32 (sub32 k.heap.endAddress k.heap.startAddress) 0x1000 / 0x1000 + 1)
          (sub32 (sub32 k.heap.endAddress k.heap.startAddress) 0x1000) k)) := by
  unfold Kernel.contract
  simp only [assertThat, hold, decide_true, if_true, bind, Except.bind, (contractLoop_eq _ _ _ _).2]
  unfold withEnd
  rw [(contractLoop_eq _ _ _ _).2]

theorem contract_returns (newSize : Nat)
    (hold : newSize < sub32 k.heap.endAddress k.heap.startAddress) :
    ∃ k2, Kernel.contract newSize k = .ok (Kernel.contractSize newSize, k2) ∧ k2.mem = k.mem ∧
      k2.heap = { k.heap with
        endAddress := add32 k.heap.startAddress (Kernel.contractSize newSize) } := by
  refine ⟨_, contract_ok newSize hold, ?_, ?_⟩
  · rw [withEnd_mem, (contractLoop_eq _ _ _ _).1]
  · rw [withEnd_heap, (contractLoop_eq _ _ _ _).2]

theorem contractHeap_not {foot testHead : Nat}
    (hfoot : add32 foot sizeofFooter ≠ k1.heap.endAddress) :
    Kernel.contractHeap testHead ⟨hd, foot, testFoot, add, k1⟩ =
      .ok ⟨hd, foot, testFoot, add, k1⟩ := by
  unfold Kernel.contractHeap
  simp only [if_neg hfoot]

theorem contractHeap_last (hheader : HeaderAt k1.mem hd true n)
    (hend : hd + n = k1.heap.endAddress) (hstart : k1.heap.startAddress ≤ hd) (hmin : 20 ≤ n)
    (hlt : k1.heap.endAddress < 4294967296) (testFoot : Nat) (add : Bool) :
    ∃ k2, k2.mem = k1.mem ∧
      k2.heap = { k1.heap with
        endAddress := add32 k1.heap.startAddress
          (Kernel.contractSize (hd - k1.heap.startAddress)) } ∧
      ∀ testHead rest, rest = sub32 n (sub32 (k1.heap.endAddress - k1.heap.startAddress)
          (Kernel.contractSize (hd - k1.heap.startAddress))) →
        Kernel.contractHeap testHead ⟨hd, hd + n - 8, testFoot, add, k1⟩ =
          if rest > 0 then
            .ok ⟨hd, sub32 (add32 hd (headerSize (write32 k1.mem (hd + 8) rest) hd)) sizeofFooter,
              testFoot, add, { k2 with
                mem := writeFooter (write32 k1.mem (hd + 8) rest)
                  (sub32 (add32 hd (headerSize (write32 k1.mem (hd + 8) rest) hd)) sizeofFooter)
                  hd }⟩
          else
            .ok ⟨hd, hd + n - 8, testFoot, add,
              if Kernel.findEntry testHead k2 k2.heap.index.size 0 < k2.heap.index.size then
                Kernel.removeHole (Kernel.findEntry testHead k2 k2.heap.index.size 0) k2
              else k2⟩ := by
  have hfoot : add32 (hd + n - 8) sizeofFooter = k1.heap.endAddress := by
    unfold sizeofFooter
    rw [add32_eq (by omega)]
    omega
  have hlen : sub32 k1.heap.endAddress k1.heap.startAddress =
      k1.heap.endAddress - k1.heap.startAddress := sub32_eq (by omega) hlt
  have hoffset : sub32 hd k1.heap.startAddress = hd - k1.heap.startAddress :=
    sub32_eq hstart (by omega)
  obtain ⟨k2, hcontract, hmem2, hheap2⟩ :=
    contract_returns (k := k1) (hd - k1.heap.startAddress) (by omega)
  refine ⟨k2, hmem2, hheap2, ?_⟩
  rintro testHead rest hrest
  unfold Kernel.contractHeap
  simp only [if_pos hfoot, hlen, hoffset]
  rw [hcontract, ok_bind]
  simp only [hmem2, hheader.size]
  rw [← hrest]

/-- **Contracting.** The heap ends `HEAP_MIN_SIZE` bytes behind its start, and the last hole with
it. -/
theorem contractHeap_contracts (testFoot : Nat) (add : Bool)
    (h : WellFormed k (left ++ lh ++ [⟨s, false⟩]))
    (hmerging : Merging k left lh s [] [] hd n k1)
    (hend : k1.heap.endAddress = k.heap.endAddress)
    (hfloor : k.heap.startAddress + heapMinSize ≤ k.heap.endAddress)
    (hfits : hd + 20 ≤ k.heap.startAddress + heapMinSize) :
    ∃ foot n' k2, (∀ testHead, Kernel.contractHeap testHead ⟨hd, hd + n - 8, testFoot, add, k1⟩ =
        .ok ⟨hd, foot, testFoot, add, k2⟩) ∧ Merging k left lh s [] [] hd n' k2 ∧
      k2.heap.endAddress = k.heap.startAddress + heapMinSize := by
  have hstart := h.start_ge
  have hlt := h.end_lt
  have hhd := hmerging.head
  have hmin := hmerging.minSize
  have hroom := h.room
  have hstart1 := hmerging.start
  have htiles := hmerging.tiles
  have htiles0 := h.tiles
  have harray := hmerging.array
  have hsize := hmerging.size
  simp only [total_append, total_cons, total_nil, List.length_nil] at htiles htiles0 hsize
  obtain ⟨k2, hmem2, hheap2, hcontract⟩ := contractHeap_last hmerging.header (by omega) (by omega)
    hmin (by omega) testFoot add
  rw [hstart1, hend] at hcontract
  rw [hstart1, contractSize_eq (by omega), add32_eq (by omega)] at hheap2
  rw [contractSize_eq (by omega)] at hcontract
  obtain ⟨n', hn'⟩ : ∃ n', n' = k.heap.startAddress + heapMinSize - hd := ⟨_, rfl⟩
  have hcut : n' = sub32 n (sub32 (k.heap.endAddress - k.heap.startAddress) heapMinSize) := by
    have hdrop : sub32 (k.heap.endAddress - k.heap.startAddress) heapMinSize =
        k.heap.endAddress - k.heap.startAddress - heapMinSize := sub32_eq (by omega) (by omega)
    rw [hdrop, sub32_eq (by omega) (by omega)]
    omega
  obtain ⟨hheader, hfooter, hsame⟩ := hmerging.header.resize
    (show hd + n' - 8 + 8 = hd + n' by omega) (by omega) (by omega)
  have hsized : headerSize (write32 k1.mem (hd + 8) n') hd = n' :=
    read32_write32_self _ _ (by omega)
  have hfootEq : sub32 (add32 hd n') sizeofFooter = hd + n' - 8 := by
    unfold sizeofFooter
    rw [add32_eq (by omega), sub32_eq (by omega) (by omega)]
  obtain ⟨m2, hm2⟩ : ∃ m2, m2 = writeFooter (write32 k1.mem (hd + 8) n') (hd + n' - 8) hd :=
    ⟨_, rfl⟩
  rw [← hm2] at hheader hfooter hsame
  have hentries : k1.heap.index.entries m2 = k1.heap.index.entries k1.mem :=
    OrderedArray.entries_congr (hsame.sameOn (Or.inl (by omega)))
  refine ⟨hd + n' - 8, n', { k2 with mem := m2 }, ?_,
    ⟨hhd, by omega, fun hcon => absurd rfl hcon, by simp only [hheap2]; exact hstart1,
        by simp only [hheap2, total_nil]; omega,
      by simp only [hheap2]; omega, hheader, fun _ => hfooter, ?_, ?_, ?_, ?_,
      by simp only [hheap2]; exact harray,
      by simp only [hheap2, List.length_nil]; omega⟩, by simp only [hheap2]⟩
  · intro testHead
    rw [hcontract testHead n' hcut, if_pos (by omega), hsized, hfootEq, ← hm2]
  · exact hmerging.sameLeft.trans (hsame.sameOn (Or.inl (by omega)))
  · exact fun hi => (hmerging.sameRight hi).trans (hsame.sameOn (Or.inr (by omega)))
  · simp only [hheap2, hentries]
    exact hmerging.sublist
  · simp only [hheap2, hentries]
    exact hmerging.index

/-! ### The whole call -/

/-- Left unify of the block behind the chunks `left`: it has taken the hole there, if there is one.
-/
structure LeftMerged (k : Kernel) (left : List Chunk) (s : Nat) (rest left' lh : List Chunk)
    (k1 : Kernel) : Prop where
  split : left = left' ++ lh
  hole : lh = [] ∨ ∃ t, lh = [⟨t, true⟩]
  alone : lh = [] ↔ ¬ UnifiesLeft (markHole (k.heap.startAddress + total Chunk.size left) k.mem)
    (k.heap.startAddress + total Chunk.size left)
  head : unifiedHead (markHole (k.heap.startAddress + total Chunk.size left) k.mem)
    (k.heap.startAddress + total Chunk.size left) = k.heap.startAddress + total Chunk.size left'
  call : Kernel.leftUnify (k.heap.startAddress + total Chunk.size left)
      (k.heap.startAddress + total Chunk.size left + s - 8)
      { k with mem := markHole (k.heap.startAddress + total Chunk.size left) k.mem } =
    ⟨k.heap.startAddress + total Chunk.size left',
      k.heap.startAddress + total Chunk.size left + s - 8,
      k.heap.startAddress + total Chunk.size left - 8, decide (lh = []), k1⟩
  merging : Merging k left' lh s [] rest (k.heap.startAddress + total Chunk.size left')
    (total Chunk.size lh + s) k1
  endAddr : k1.heap.endAddress = k.heap.endAddress

theorem leftUnify_spec (h : WellFormed k (left ++ ⟨s, false⟩ :: rest))
    (hok : FreeOk (k.heap.startAddress + total Chunk.size left) k) :
    ∃ left' lh k1, LeftMerged k left s rest left' lh k1 := by
  obtain ⟨head, hhead⟩ : ∃ head, head = k.heap.startAddress + total Chunk.size left := ⟨_, rfl⟩
  rw [← hhead] at hok
  have htiles := h.tiles
  by_cases hunifies : UnifiesLeft (markHole head k.mem) head
  · obtain ⟨hmem, hends⟩ := hok.left hunifies
    obtain ⟨left', t, k1, rfl, hleft, hmerging⟩ :=
      leftUnify_unifies h hhead hunifies hmem hends
    have hhd := hmerging.head
    have htiles1 := hmerging.tiles
    obtain ⟨l, u, r, hcs, haddr⟩ := h.hole_of_mem_entries hmem
    have hsize : headerSize k.mem (k.heap.startAddress + total Chunk.size l) = u := by
      rw [hcs] at h
      exact h.chunkAt.header.size
    have hminu := h.minSize ⟨u, true⟩ (by rw [hcs]; simp)
    have hmint := h.minSize ⟨t, true⟩ (by simp)
    -- both holes end where the block begins
    have hu := (mem_layout_iff Chunk.size).mpr
      ⟨l, r, hcs, (rfl : (k.heap.startAddress + total Chunk.size l, Chunk.mk u true).1 = _)⟩
    have ht := (mem_layout_iff Chunk.size).mpr
      ⟨left', ⟨s, false⟩ :: rest, List.append_assoc left' [⟨t, true⟩] _,
        (rfl : (k.heap.startAddress + total Chunk.size left', Chunk.mk t true).1 = _)⟩
    have hsame : unifiedHead (markHole head k.mem) head =
        k.heap.startAddress + total Chunk.size left' := by
      rw [haddr] at hends ⊢
      simp only [total_append, total_cons, total_nil] at hhead
      rcases apart_of_mem_layout hu ht with heq | hapart
      · exact congrArg Prod.fst heq
      · simp only at hapart hminu hmint
        omega
    simp only [total_append, total_cons, total_nil] at htiles htiles1
    rw [hhd] at hmerging hleft
    refine ⟨left', [⟨t, true⟩], k1, rfl, Or.inr ⟨t, rfl⟩, ?_, ?_, ?_, by simpa using hmerging,
      by omega⟩
    all_goals rw [← hhead]
    · simp [hunifies]
    · exact hsame
    · rw [hleft]
      rfl
  · obtain ⟨k1, hleft, hmerging⟩ := leftUnify_not h hhead hunifies
    have htiles1 := hmerging.tiles
    simp only [total_append, total_cons] at htiles
    refine ⟨left, [], k1, (List.append_nil left).symm, Or.inl rfl, ?_, ?_, ?_, ?_, by omega⟩
    all_goals rw [← hhead]
    · simp [hunifies]
    · rw [unifiedHead, if_neg hunifies]
    · rw [hleft]
      rfl
    · simpa using hmerging

def finishFree (lh : List Chunk) (hd : Nat) (k1 : Kernel) : Kernel :=
  if lh = [] then Kernel.insertHole hd k1 else k1

theorem unifiesRight_congr {m m' : Mem} {next : Nat} (hsame : SameOn next (next + 12) m m') :
    UnifiesRight m' next ↔ UnifiesRight m next := by
  unfold UnifiesRight headerMagic headerIsHole
  rw [hsame.read32 (Nat.le_refl _) (by omega), hsame.read8 (by omega) (by omega)]

theorem not_unifiesRight (h : WellFormed k (left ++ ⟨s, false⟩ :: rest))
    (hhead : head = k.heap.startAddress + total Chunk.size left) (hok : FreeOk head k)
    (hrest : ∀ c ∈ rest.head?, c.hole = false) : ¬ UnifiesRight k.mem (head + s) := by
  have hsize : headerSize k.mem head = s := by
    rw [hhead]
    exact h.chunkAt.header.size
  have htiles := h.tiles
  cases rest with
  | nil =>
      simp only [total_append, total_cons, total_nil] at htiles
      have hlast : head + s = k.heap.endAddress := by omega
      have hno := hok.right (by rw [hsize]; exact hlast)
      rwa [← hlast] at hno
  | cons c right =>
      have hwf : WellFormed k ((left ++ [⟨s, false⟩]) ++ c :: right) := by simpa using h
      have hchunk := hwf.chunkAt
      simp only [total_append, total_cons, total_nil, Nat.add_zero] at hchunk
      rw [← Nat.add_assoc, ← hhead] at hchunk
      have hblock : c.hole = false := hrest c rfl
      intro hunifies
      have hflag := hchunk.header.isHole
      rw [hblock] at hflag
      exact hunifies.2 hflag

/-- How freeing the block of `s` bytes behind `left ++ lh` went: the holes `lh` and `rh` next to it
were unified with it, where there were any, and `k1` is the kernel before the hole is listed. -/
structure Unified (k : Kernel) (left lh : List Chunk) (s : Nat) (rh right : List Chunk) (n : Nat)
    (k1 : Kernel) : Prop where
  leftHole : lh = [] ∨ ∃ t, lh = [⟨t, true⟩]
  rightHole : rh = [] ∨ ∃ r, rh = [⟨r, true⟩]
  leftAlone : lh = [] ↔ ¬ UnifiesLeft
    (markHole (k.heap.startAddress + total Chunk.size (left ++ lh)) k.mem)
    (k.heap.startAddress + total Chunk.size (left ++ lh))
  head : unifiedHead (markHole (k.heap.startAddress + total Chunk.size (left ++ lh)) k.mem)
    (k.heap.startAddress + total Chunk.size (left ++ lh)) =
      k.heap.startAddress + total Chunk.size left
  rightAlone : rh = [] → ∀ c ∈ right.head?, c.hole = false
  merging : Merging k left lh s rh right (k.heap.startAddress + total Chunk.size left) n k1
  endAddr : k1.heap.endAddress =
    if rh ++ right = [] then k.heap.startAddress + heapMinSize else k.heap.endAddress
  room : lh = [] → rh = [] → IndexRoom k

theorem free_of_chunk (hchunk : ChunkAt k.mem head ⟨s, false⟩) (hlt : head + s < 4294967296) :
    Kernel.free (head + 12) k = (do
      let f ← Kernel.rightUnify
        (Kernel.leftUnify head (head + s - 8) { k with mem := markHole head k.mem })
      let f ← Kernel.contractHeap (add32 (Kernel.leftUnify head (head + s - 8)
        { k with mem := markHole head k.mem }).foot sizeofFooter) f
      .ok (if f.addToFreeHole then Kernel.insertHole f.head f.kernel else f.kernel)) := by
  have hmin := hchunk.minSize
  have hfooter := hchunk.footer rfl
  simp only at hmin hfooter
  have hp : sub32 (head + 12) sizeofHeader = head := by
    unfold sizeofHeader
    rw [sub32_eq (by omega) (by omega)]
    omega
  have hfoot : sub32 (add32 head s) sizeofFooter = head + s - 8 := by
    unfold sizeofFooter
    rw [add32_eq (by omega), sub32_eq (by omega) (by omega)]
  unfold Kernel.free markHole
  rw [if_neg (by omega)]
  simp only [hp, hchunk.header.size, hfoot]
  rw [assertThat_of _ hchunk.header.magic, ok_bind, assertThat_of _ hfooter.magic, ok_bind]

section LeftMerged

variable {left' : List Chunk}

theorem LeftMerged.next (hleft : LeftMerged k left s rest left' lh k1) :
    k.heap.startAddress + total Chunk.size left' + (total Chunk.size lh + s) =
      k.heap.startAddress + total Chunk.size left + s := by
  rw [hleft.split, total_append]
  omega

theorem LeftMerged.sameRight (hleft : LeftMerged k left s rest left' lh k1) (hi : Nat) :
    SameOn (k.heap.startAddress + total Chunk.size left + s) hi k.mem k1.mem := by
  have hsame := hleft.merging.sameRight hi
  rwa [Nat.add_assoc _ _ s, hleft.next] at hsame

theorem LeftMerged.free {f f' : Kernel.Freeing} (h : WellFormed k (left ++ ⟨s, false⟩ :: rest))
    (hleft : LeftMerged k left s rest left' lh k1)
    (hright : Kernel.rightUnify ⟨k.heap.startAddress + total Chunk.size left',
      k.heap.startAddress + total Chunk.size left' + (total Chunk.size lh + s) - 8,
      k.heap.startAddress + total Chunk.size left - 8, decide (lh = []), k1⟩ = .ok f)
    (hcontract : ∀ testHead, Kernel.contractHeap testHead f = .ok f')
    (hhead : f'.head = k.heap.startAddress + total Chunk.size left')
    (hadd : f'.addToFreeHole = decide (lh = [])) :
    Kernel.free (k.heap.startAddress + total Chunk.size left + 12) k =
      .ok (finishFree lh (k.heap.startAddress + total Chunk.size left') f'.kernel) := by
  have hlt := h.end_lt
  have hle := h.chunk_end_le
  rw [hleft.next] at hright
  rw [free_of_chunk h.chunkAt (Nat.lt_of_le_of_lt hle hlt), hleft.call, hright, ok_bind, hcontract,
    ok_bind, hhead, hadd]
  unfold finishFree
  simp only [decide_eq_true_eq]

theorem LeftMerged.alone_right (h : WellFormed k (left ++ ⟨s, false⟩ :: rest))
    (hleft : LeftMerged k left s rest left' lh k1)
    (hok : FreeOk (k.heap.startAddress + total Chunk.size left) k)
    (hrest : ∀ c ∈ rest.head?, c.hole = false) :
    (lh = [] → IndexRoom k) ∧ ∀ testFoot add,
      Kernel.rightUnify ⟨k.heap.startAddress + total Chunk.size left',
        k.heap.startAddress + total Chunk.size left' + (total Chunk.size lh + s) - 8, testFoot, add,
        k1⟩ = .ok ⟨k.heap.startAddress + total Chunk.size left',
          k.heap.startAddress + total Chunk.size left' + (total Chunk.size lh + s) - 8, testFoot,
          add, k1⟩ := by
  have hnot := not_unifiesRight h rfl hok hrest
  have hlt := h.end_lt
  have hle := h.chunk_end_le
  have hmin := h.chunkAt.minSize
  have hsize : headerSize k.mem (k.heap.startAddress + total Chunk.size left) = s :=
    h.chunkAt.header.size
  have hnext := hleft.next
  simp only at hle hmin
  constructor
  · intro hempty
    exact hok.room (hleft.alone.mp hempty) (by rwa [hsize])
  · intro testFoot add
    refine rightUnify_not (by omega) (by omega) ?_
    rw [hnext, unifiesRight_congr (hleft.sameRight _)]
    exact hnot

/-- The last block: there is no hole behind it, and the heap contracts. -/
theorem LeftMerged.free_last (h : WellFormed k (left ++ [⟨s, false⟩]))
    (hleft : LeftMerged k left s [] left' lh k1)
    (hfloor : k.heap.startAddress + heapMinSize ≤ k.heap.endAddress)
    (hok : FreeOk (k.heap.startAddress + total Chunk.size left) k) :
    ∃ n k2, Unified k left' lh s [] [] n k2 ∧
      Kernel.free (k.heap.startAddress + total Chunk.size left + 12) k =
        .ok (finishFree lh (k.heap.startAddress + total Chunk.size left') k2) := by
  obtain ⟨hroom, hright⟩ := hleft.alone_right h hok (by simp)
  have hlast : k.heap.startAddress + total Chunk.size left +
      headerSize k.mem (k.heap.startAddress + total Chunk.size left) = k.heap.endAddress := by
    have htiles := h.tiles
    have hsize : headerSize k.mem (k.heap.startAddress + total Chunk.size left) = s :=
      h.chunkAt.header.size
    simp only [total_append, total_cons, total_nil] at htiles
    omega
  have hfits := hok.contraction hlast
  rw [hleft.head] at hfits
  obtain ⟨foot, n, k2, hcontract, hmerging, hend⟩ := contractHeap_contracts
    (k.heap.startAddress + total Chunk.size left - 8) (decide (lh = [])) (hleft.split ▸ h)
    hleft.merging hleft.endAddr hfloor hfits
  refine ⟨n, k2, ⟨hleft.hole, Or.inl rfl, hleft.split ▸ hleft.alone, hleft.split ▸ hleft.head,
    by simp, hmerging, by rw [if_pos (by simp), hend], fun hl _ => hroom hl⟩, ?_⟩
  exact hleft.free h (hright _ _) hcontract rfl rfl

theorem foot_hole_ne (h : WellFormed k (left ++ ⟨s, false⟩ :: ⟨r, true⟩ :: right)) :
    add32 (sub32 (add32 (k.heap.startAddress + total Chunk.size left - 8) r) sizeofFooter)
      sizeofFooter ≠ k.heap.endAddress := by
  have hlt := h.end_lt
  have hstart := h.start_ge
  have htiles := h.tiles
  have hminr := h.minSize ⟨r, true⟩ (by simp)
  have hmin := h.minSize ⟨s, false⟩ (by simp)
  simp only [total_append, total_cons] at htiles hminr hmin
  unfold sizeofFooter
  rw [add32_eq (show k.heap.startAddress + total Chunk.size left - 8 + r < 4294967296 by omega),
    sub32_eq (by omega) (by omega), add32_eq (by omega)]
  omega

theorem foot_inUse_ne (h : WellFormed k (left ++ ⟨s, false⟩ :: ⟨r, false⟩ :: right)) :
    add32 (k.heap.startAddress + total Chunk.size left + s - 8) sizeofFooter ≠
      k.heap.endAddress := by
  have hlt := h.end_lt
  have htiles := h.tiles
  have hminr := h.minSize ⟨r, false⟩ (by simp)
  have hmin := h.minSize ⟨s, false⟩ (by simp)
  simp only [total_append, total_cons] at htiles hminr hmin
  unfold sizeofFooter
  rw [add32_eq (by omega)]
  omega

/-- A block with a hole behind it: the footer that the call computes then lies inside the heap, so
nothing is contracted. -/
theorem LeftMerged.free_hole (h : WellFormed k (left ++ ⟨s, false⟩ :: ⟨r, true⟩ :: right))
    (hleft : LeftMerged k left s (⟨r, true⟩ :: right) left' lh k1) :
    ∃ n k2, Unified k left' lh s [⟨r, true⟩] right n k2 ∧
      Kernel.free (k.heap.startAddress + total Chunk.size left + 12) k =
        .ok (finishFree lh (k.heap.startAddress + total Chunk.size left') k2) := by
  obtain ⟨k2, hright, hmerging, hend⟩ := rightUnify_unifies
    (k.heap.startAddress + total Chunk.size left - 8) (decide (lh = [])) (hleft.split ▸ h)
    hleft.merging rfl hleft.endAddr
  have hinside := foot_hole_ne h
  rw [← hend] at hinside
  refine ⟨_, k2, ⟨hleft.hole, Or.inr ⟨r, rfl⟩, hleft.split ▸ hleft.alone,
    hleft.split ▸ hleft.head, by simp, hmerging, by rw [if_neg (by simp), hend],
    fun _ hr => by simp at hr⟩, ?_⟩
  exact hleft.free h hright (fun _ => contractHeap_not hinside) rfl rfl

/-- A block with a block behind it: nothing is unified to the right, and nothing contracted. -/
theorem LeftMerged.free_inUse (h : WellFormed k (left ++ ⟨s, false⟩ :: ⟨r, false⟩ :: right))
    (hleft : LeftMerged k left s (⟨r, false⟩ :: right) left' lh k1)
    (hok : FreeOk (k.heap.startAddress + total Chunk.size left) k) :
    ∃ n, Unified k left' lh s [] (⟨r, false⟩ :: right) n k1 ∧
      Kernel.free (k.heap.startAddress + total Chunk.size left + 12) k =
        .ok (finishFree lh (k.heap.startAddress + total Chunk.size left') k1) := by
  obtain ⟨hroom, hright⟩ := hleft.alone_right h hok (by simp)
  have hinside := foot_inUse_ne h
  rw [← hleft.next, ← hleft.endAddr] at hinside
  refine ⟨_, ⟨hleft.hole, Or.inl rfl, hleft.split ▸ hleft.alone, hleft.split ▸ hleft.head,
    by simp, hleft.merging, by rw [if_neg (by simp), hleft.endAddr], fun hl _ => hroom hl⟩, ?_⟩
  exact hleft.free h (hright _ _) (fun _ => contractHeap_not hinside) rfl rfl

end LeftMerged

/-- **What `free` does to a block** of a well-formed heap: the block and the holes around it become
one hole, which goes into the index unless it is there already. -/
theorem free_eq (h : WellFormed k (left ++ ⟨s, false⟩ :: rest))
    (hhead : head = k.heap.startAddress + total Chunk.size left)
    (hfloor : k.heap.startAddress + heapMinSize ≤ k.heap.endAddress) (hok : FreeOk head k) :
    ∃ left' lh rh right n k1, left = left' ++ lh ∧ rest = rh ++ right ∧
      Unified k left' lh s rh right n k1 ∧
      Kernel.free (head + 12) k =
        .ok (finishFree lh (k.heap.startAddress + total Chunk.size left') k1) := by
  subst hhead
  obtain ⟨left', lh, k1, hleft⟩ := leftUnify_spec h hok
  have hsplit := hleft.split
  cases rest with
  | nil =>
      obtain ⟨n, k2, hunified, hfree⟩ := hleft.free_last h hfloor hok
      exact ⟨left', lh, [], [], n, k2, hsplit, rfl, hunified, hfree⟩
  | cons c right =>
      obtain ⟨r, hole⟩ := c
      cases hole with
      | true =>
          obtain ⟨n, k2, hunified, hfree⟩ := hleft.free_hole h
          exact ⟨left', lh, [⟨r, true⟩], right, n, k2, hsplit, rfl, hunified, hfree⟩
      | false =>
          obtain ⟨n, hunified, hfree⟩ := hleft.free_inUse h hok
          exact ⟨left', lh, [], ⟨r, false⟩ :: right, n, k1, hsplit, rfl, hunified, hfree⟩

theorem Merging.indexRoom (h : WellFormed k (left ++ lh ++ ⟨s, false⟩ :: (rh ++ right)))
    (hmerging : Merging k left lh s rh right hd n k1) (hroom : lh = [] → rh = [] → IndexRoom k)
    (hempty : lh = []) :
    k1.heap.index.array + 4 * (k1.heap.index.size + 1) ≤ k.heap.startAddress := by
  have hfloor := h.room
  have harray := hmerging.array
  have hsize := hmerging.size
  by_cases hrh : rh = []
  · have hroomk := hroom hempty hrh
    unfold IndexRoom at hroomk
    omega
  · have hlength := List.length_pos_of_ne_nil hrh
    omega

theorem Merging.finish_sameOn (h : WellFormed k (left ++ lh ++ ⟨s, false⟩ :: (rh ++ right)))
    (hmerging : Merging k left lh s rh right hd n k1) (hroom : lh = [] → rh = [] → IndexRoom k)
    (lo hi : Nat) (hlo : k.heap.startAddress ≤ lo) :
    SameOn lo hi k1.mem (finishFree lh hd k1).mem := by
  unfold finishFree
  split
  · rename_i hempty
    have hroom1 := hmerging.indexRoom h hroom hempty
    exact (insertHole_sameOutside hd k1).sameOn (Or.inr (by omega))
  · exact fun _ _ _ => rfl

theorem finishFree_heap (lh : List Chunk) (hd : Nat) (k1 : Kernel) :
    ∃ index, (finishFree lh hd k1).heap = { k1.heap with index := index } := by
  unfold finishFree
  split
  · exact ⟨_, insertHole_heap hd k1⟩
  · exact ⟨_, rfl⟩

theorem Merging.chunksAt (h : WellFormed k (left ++ lh ++ ⟨s, false⟩ :: (rh ++ right)))
    (hmerging : Merging k left lh s rh right hd n k1) :
    ChunksAt k1.mem k.heap.startAddress left ∧ ChunksAt k1.mem hd (⟨n, true⟩ :: right) := by
  have hhd := hmerging.head
  have hchunks := h.chunksAt
  simp only [chunksAt_append, chunksAt_cons, total_append] at hchunks
  obtain ⟨⟨hleft, -⟩, -, -, hrightAt⟩ := hchunks
  have hright1 : ChunksAt k1.mem (hd + n) right := by
    by_cases hempty : right = []
    · rw [hempty]
      exact chunksAt_nil
    · have hn := hmerging.uncut hempty
      rw [show k.heap.startAddress + (total Chunk.size left + total Chunk.size lh) +
        (Chunk.mk s false).size + total Chunk.size rh = hd + n by simp only; omega] at hrightAt
      exact hrightAt.frame ((hmerging.sameRight _).mono (by omega) (Nat.le_refl _))
  constructor
  · refine hleft.frame ?_
    rw [← hhd]
    exact hmerging.sameLeft
  · rw [chunksAt_cons]
    exact ⟨⟨hmerging.minSize, hmerging.header, fun hcon => by simp at hcon⟩, hright1⟩

theorem Merging.index_holes (hmerging : Merging k left lh s rh right hd n k1) :
    (k1.heap.index.entries k1.mem).Perm (holes k.heap.startAddress left ++
      (if lh = [] then [] else [hd]) ++ holes (hd + n) right) := by
  have hindex := hmerging.index
  by_cases hempty : right = []
  · simpa [hempty] using hindex
  · rw [hmerging.uncut hempty]
    simpa only [Nat.add_assoc] using hindex

theorem Merging.wellFormed (h : WellFormed k (left ++ lh ++ ⟨s, false⟩ :: (rh ++ right)))
    (hmerging : Merging k left lh s rh right hd n k1)
    (hroom : lh = [] → rh = [] → IndexRoom k) :
    WellFormed (finishFree lh hd k1) (left ++ ⟨n, true⟩ :: right) := by
  have hstart := h.start_ge
  have hlt := h.end_lt
  have hfloor := h.room
  have hhd := hmerging.head
  have htiles := hmerging.tiles
  have hle := hmerging.end_le
  have harray := hmerging.array
  have hsize := hmerging.size
  obtain ⟨hleft1, hmid1⟩ := hmerging.chunksAt h
  have hindex := hmerging.index_holes
  have htilesAll : k1.heap.startAddress + total Chunk.size (left ++ ⟨n, true⟩ :: right) =
      k1.heap.endAddress := by
    rw [hmerging.start, total_append, total_cons]
    simp only
    omega
  by_cases hempty : lh = []
  · -- the hole is new to the index
    have habove := hmerging.finish_sameOn h hroom
    have hroom1 := hmerging.indexRoom h hroom hempty
    unfold finishFree at habove ⊢
    rw [if_pos hempty] at hindex habove ⊢
    have hheap := insertHole_heap hd k1
    refine ⟨?_, ?_, ?_, ?_, ?_, ?_⟩
    · rw [hheap, hmerging.start]
      exact hstart
    · rw [hheap]
      simp only
      omega
    · rw [hheap]
      exact htilesAll
    · rw [hheap]
      simp only [chunksAt_append, hmerging.start]
      rw [← hhd]
      exact ⟨hleft1.frame (habove _ _ (Nat.le_refl _)), hmid1.frame (habove _ _ (by omega))⟩
    · refine (perm_insertHole hd k1 (by omega)).trans ?_
      rw [hheap, hmerging.start]
      simp only [holes_append, holes_cons, if_true, ← hhd, List.append_nil] at hindex ⊢
      exact (hindex.cons hd).trans List.perm_middle.symm
    · rw [hheap, hmerging.start]
      exact hroom1
  · unfold finishFree
    rw [if_neg hempty] at hindex ⊢
    refine ⟨by rw [hmerging.start]; exact hstart, by omega, htilesAll, ?_, ?_,
      by rw [hmerging.start]; omega⟩
    · rw [chunksAt_append, hmerging.start, ← hhd]
      exact ⟨hleft1, hmid1⟩
    · rw [hmerging.start]
      simp only [holes_append, holes_cons, if_true, ← hhd, List.append_assoc] at hindex ⊢
      exact hindex

end Steps

/-! ### Every call of `free` -/

/-- The heap `k'` of the chunks `cs'` is the heap `k` of the chunks `cs` without the block of `s`
bytes at `head`. The other blocks are where they were, contents included. -/
structure Frees (k : Kernel) (cs : List Chunk) (head s : Nat) (k' : Kernel) (cs' : List Chunk) :
    Prop where
  wellFormed : WellFormed k' cs'
  start : k'.heap.startAddress = k.heap.startAddress
  floor : k.heap.startAddress + heapMinSize ≤ k'.heap.endAddress
  blocks : (blocks k.heap.startAddress cs).Perm ((head, s) :: blocks k.heap.startAddress cs')
  same : ∀ u ∈ Vulcanos.blocks k.heap.startAddress cs', SameOn u.1 (u.1 + u.2) k.mem k'.mem

theorem Unified.frees {k k1 : Kernel} {left lh rh right : List Chunk} {s n : Nat}
    (h : WellFormed k (left ++ lh ++ ⟨s, false⟩ :: (rh ++ right)))
    (hfloor : k.heap.startAddress + heapMinSize ≤ k.heap.endAddress)
    (hunified : Unified k left lh s rh right n k1) :
    Frees k (left ++ lh ++ ⟨s, false⟩ :: (rh ++ right))
      (k.heap.startAddress + total Chunk.size (left ++ lh)) s
      (finishFree lh (k.heap.startAddress + total Chunk.size left) k1)
      (left ++ ⟨n, true⟩ :: right) := by
  obtain ⟨hlh, hrh, -, -, -, hmerging, hend1, hroom⟩ := hunified
  have hfloor1 : k.heap.startAddress + heapMinSize ≤ k1.heap.endAddress := by
    rw [hend1]
    split
    · exact Nat.le_refl _
    · exact hfloor
  set hd := k.heap.startAddress + total Chunk.size left with hhd
  have hwf := hmerging.wellFormed h hroom
  obtain ⟨index, hheap⟩ := finishFree_heap lh hd k1
  have hnoBlocks : ∀ x, blocks x lh = [] ∧ blocks x rh = [] := by
    intro x
    constructor
    · rcases hlh with rfl | ⟨t, rfl⟩ <;> simp
    · rcases hrh with rfl | ⟨r, rfl⟩ <;> simp
  have huncut := hmerging.uncut
  refine ⟨hwf, by rw [hheap]; exact hmerging.start, by rw [hheap]; exact hfloor1, ?_, ?_⟩
  · simp only [blocks_append, blocks_cons, (hnoBlocks _).1, (hnoBlocks _).2, if_true, if_false,
      List.nil_append, List.append_nil, Bool.false_eq_true, total_append]
    rw [← Nat.add_assoc, ← hhd]
    have hright : blocks (hd + total Chunk.size lh + s + total Chunk.size rh) right =
        blocks (hd + n) right := by
      by_cases hempty : right = []
      · simp [hempty]
      · rw [huncut hempty]
        simp only [Nat.add_assoc]
    rw [hright]
    exact List.perm_middle
  · rintro ⟨x, t⟩ hx
    have habove := hmerging.finish_sameOn h hroom
    simp only [blocks_append, blocks_cons, if_true, List.nil_append, List.mem_append] at hx
    rcases hx with hx | hx
    · obtain ⟨l, r, hl, rfl⟩ := mem_blocks_iff.mp hx
      have htotal := congrArg (total Chunk.size) hl
      simp only [total_append, total_cons] at htotal
      exact (hmerging.sameLeft.mono (by simp only; omega) (by simp only; omega)).trans
        (habove _ _ (by simp only; omega))
    · have hright : right ≠ [] := by
        rintro rfl
        simp at hx
      have hn := huncut hright
      obtain ⟨l, r, hl, rfl⟩ := mem_blocks_iff.mp hx
      exact ((hmerging.sameRight _).mono (by simp only; omega) (Nat.le_refl _)).trans
        (habove _ _ (by simp only; omega))

/-- **Every call of `free`** that meets the condition returns, takes the block off a heap that stays
well formed, and leaves the other blocks alone. -/
theorem free_frees {k : Kernel} {cs : List Chunk} {head s : Nat} (h : WellFormed k cs)
    (hblock : (head, s) ∈ blocks k.heap.startAddress cs)
    (hfloor : k.heap.startAddress + heapMinSize ≤ k.heap.endAddress) (hok : FreeOk head k) :
    ∃ k' cs', Kernel.free (head + 12) k = .ok k' ∧ Frees k cs head s k' cs' := by
  obtain ⟨left, rest, rfl, hhead⟩ := mem_blocks_iff.mp hblock
  obtain ⟨left', lh, rh, right, n, k1, rfl, rfl, hunified, hfree⟩ := free_eq h hhead hfloor hok
  have hfrees := hunified.frees h hfloor
  rw [← hhead] at hfrees
  exact ⟨_, _, hfree, hfrees⟩

end Vulcanos
