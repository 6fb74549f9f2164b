import Vulcanos.HeapAlloc
import Vulcanos.HeapDepth

/-!
# What a plain request is answered with

A request is to stop at an assertion or to get a block with room for it inside the heap. The size of
the block is computed in 32 bits before anything is compared with it, so a request near `2 ^ 32`
passes for a small one.
-/

namespace Vulcanos

open Memory Word Layout

/-- `alloc` stops at an assertion, or returns `p` with `size` bytes from there to the end of the
heap at least, in a block whose header has room for them and for a header and a footer. -/
def Answered (size : Nat) (k : Kernel) : Prop :=
  ∃ fuel, (∃ desc, Kernel.alloc fuel size 0 k = .error (.panicAssert desc)) ∨
    ∃ p k', Kernel.alloc fuel size 0 k = .ok (p, k') ∧ p + size ≤ k'.heap.endAddress ∧
      size + 20 ≤ headerSize k'.mem (sub32 p sizeofHeader)

/-- One of the two assertions of `expand` fails. -/
def Refused (size : Nat) (k : Kernel) : Prop :=
  k.askedLen size ≤ k.heapLen ∨
    k.heap.maxAddress < add32 k.heap.startAddress (Kernel.nextPage (k.askedLen size))

/-- Every page table that the page loop of `expand` has to make, it gets from a hole at once, or the
request for it is refused. -/
def TablesHad (newSize : Nat) : Nat → Nat → Kernel → Prop
  | 0, _, _ => True
  | n + 1, it, k =>
      it < newSize →
        (Kernel.lookupPage (add32 k.heap.startAddress it) k = 0 → k.kheap ≠ 0 →
          ServedAtOnce heapGuards 0x1000 1 k ∨
            Kernel.findSmallestHole (0x1000 + 20) 1 k = none ∧ Refused 0x1000 k) ∧
        ∀ page k1 k2,
          Kernel.getPage (Kernel.alloc 1) (add32 k.heap.startAddress it) 1 k = .ok (page, k1) →
          Kernel.allocFrameAt page (if k1.heap.supervisor ≠ 0 then 1 else 0)
            (if k1.heap.readonly ≠ 0 then 0 else 1) k1 = .ok k2 →
          TablesHad newSize n (add32 it 0x1000) k2

/-- The expansion for the request adds bytes to the heap without wrapping, and has its page tables.
-/
def GrowsFor (size : Nat) (k : Kernel) : Prop :=
  k.heapLen < expandedSize size k ∧ k.heap.startAddress + expandedSize size k < 4294967296 ∧
    TablesHad (expandedSize size k) (expandedSize size k / 0x1000 + 1) k.heapLen k

/-! ### A request that some hole fits -/

section Found

variable {k : Kernel} {cs : List Chunk} {size it x s : Nat}

theorem carveBlock_roomy (hx : x = k.heap.index.lookup it k.mem) (hs : s = headerSize k.mem x)
    (hit : it < k.heap.index.size) (hbelow : k.heap.index.array + 4 * k.heap.index.size ≤ x)
    (hfits : size + 20 ≤ s) (hend : x + s ≤ k.heap.endAddress)
    (hlt : k.heap.endAddress < 4294967296) :
    ∃ k', Kernel.carveBlock it size (size + 20) 0 k = (x + 12, k') ∧
      k'.heap.endAddress = k.heap.endAddress ∧ size + 20 ≤ headerSize k'.mem x := by
  have hendAddress := carveBlock_endAddress it size (size + 20) 0 k
  rw [carveBlock_plain hx hs hfits] at hendAddress ⊢
  obtain ⟨hb, hrest⟩ := plainBlock_spec hfits
  generalize plainBlock size s = b at hb hrest hendAddress ⊢
  obtain ⟨m', -, hchunks, -, hwritten⟩ := writeBlock_spec (Kernel.removeHole it k) x
    (show b - 20 + 20 = b by omega) hrest hend hlt
  have hheader : headerSize m' x = b := by
    unfold blockChunks at hchunks
    split at hchunks <;> exact (chunksAt_cons.mp hchunks).1.header.size
  rw [hwritten] at hendAddress ⊢
  refine ⟨_, rfl, hendAddress, ?_⟩
  by_cases hall : s = b
  · rw [if_pos hall]
    exact hheader ▸ hb
  · -- the slots that change lie below the block
    rw [if_neg hall]
    have hindex := insertHole_sameOutside (x + b) { Kernel.removeHole it k with mem := m' }
    have hsize : (Kernel.removeHole it k).heap.index.size = k.heap.index.size - 1 := rfl
    have harray : (Kernel.removeHole it k).heap.index.array = k.heap.index.array := rfl
    dsimp only at hindex
    rw [hsize, harray] at hindex
    have hkept : SameOn x (x + 12) m'
        (Kernel.insertHole (x + b) { Kernel.removeHole it k with mem := m' }).mem :=
      hindex.sameOn (by omega)
    have hword := hkept.read32 (a := x + 8) (by omega) (by omega)
    calc
      size + 20 ≤ headerSize m' x := hheader ▸ hb
      _ = headerSize (Kernel.insertHole (x + b) { Kernel.removeHole it k with mem := m' }).mem x :=
        hword.symm

/-- Listed holes lie inside the heap, behind the storage of the index. -/
structure Listing (k : Kernel) : Prop where
  end_lt : k.heap.endAddress < 4294967296
  below : ∀ x ∈ k.heap.index.entries k.mem, k.heap.index.array + 4 * k.heap.index.size ≤ x
  inside : ∀ x ∈ k.heap.index.entries k.mem, x + headerSize k.mem x ≤ k.heap.endAddress

theorem WellFormed.listing (h : WellFormed k cs) : Listing k := by
  have hroom := h.room
  refine ⟨h.end_lt, fun x hx => ?_, fun x hx => (h.tiled.entry_bounds hx).2.1⟩
  have hlo := (h.tiled.entry_bounds hx).1
  omega

theorem Listing.alloc_of_find (h : Listing k) (fuel : Nat) (hsize : size + 20 < 4294967296)
    (hfind : Kernel.findSmallestHole (size + 20) 0 k = some it) :
    ∃ p k', Kernel.alloc (fuel + 1) size 0 k = .ok (p, k') ∧ p + size ≤ k'.heap.endAddress ∧
      size + 20 ≤ headerSize k'.mem (sub32 p sizeofHeader) := by
  obtain ⟨hit, hfits, -⟩ := findSmallestHole_spec hfind
  rw [holeFits_plain, decide_eq_true_eq] at hfits
  have hentry := OrderedArray.lookup_mem (m := k.mem) hit
  have hlt := h.end_lt
  have hbelow := h.below _ hentry
  have hinside := h.inside _ hentry
  generalize hx : k.heap.index.lookup it k.mem = x at hfits hbelow hinside
  obtain ⟨k', hcarve, hend, hroom⟩ :=
    carveBlock_roomy hx.symm rfl hit hbelow hfits hinside hlt
  refine ⟨x + 12, k', ?_, by omega, ?_⟩
  · rw [Vulcanos.alloc_of_find fuel hsize hfind, hcarve]
  · rw [sub32_eq (by unfold sizeofHeader; omega) (by omega)]
    exact hroom

end Found

/-! ### A request that no hole fits -/

section Grow

variable {k : Kernel} {cs : List Chunk} {newEnd : Nat}

/-- The hole with the highest address takes the new bytes, which are the last of the heap. Where it
is not the last chunk, it takes in what lies between, and still ends inside the heap. -/
theorem WellFormed.listing_of_grown {i foot x s : Nat} {m2 : Mem} (h : WellFormed k cs)
    (hlt : newEnd < 4294967296) (hle : k.heap.endAddress ≤ newEnd) (hi : i < k.heap.index.size)
    (hx : k.heap.index.lookup i k.mem = x) (hs : headerSize k.mem x = s)
    (hmax : ∀ y ∈ k.heap.index.entries k.mem, y ≤ x)
    (hfoot : foot + 8 = x + (s + (newEnd - k.heap.endAddress)))
    (hm2 : writeFooter (write32 k.mem (x + 8) (s + (newEnd - k.heap.endAddress))) foot x = m2) :
    Listing { withEnd newEnd k with mem := m2 } ∧
      newEnd - k.heap.endAddress ≤ headerSize m2 (k.heap.index.lookup i m2) := by
  have hroom := h.room
  have hentry : x ∈ k.heap.index.entries k.mem := hx ▸ OrderedArray.lookup_mem hi
  obtain ⟨hlo, hhi, hmin⟩ := h.tiled.entry_bounds hentry
  obtain ⟨left, right, hcs, haddr⟩ := h.tiled.hole_of_mem_entries hentry
  rw [hs] at hhi hmin hcs
  have hsplit : Tiled k (left ++ ⟨s, true⟩ :: right) := hcs ▸ h.tiled
  have hold : HeaderAt k.mem x true s := haddr ▸ hsplit.chunkAt.header
  obtain ⟨hheader, -, hsame⟩ := hold.resize hfoot (by omega) (by omega)
  rw [hm2] at hheader hsame
  have hgrown : headerSize m2 x = s + (newEnd - k.heap.endAddress) := hheader.size
  -- the slots of the index lie below what is written
  have hslots : SameOn k.heap.index.array k.heap.startAddress k.mem m2 :=
    hsame.sameOn (Or.inl (by omega))
  have hentries : k.heap.index.entries m2 = k.heap.index.entries k.mem :=
    OrderedArray.entries_congr (hslots.mono (Nat.le_refl _) hroom)
  have hlookup : k.heap.index.lookup i m2 = x :=
    (hslots.read32 (Nat.le_add_right _ _) (by omega)).trans hx
  refine ⟨⟨hlt, fun y hy => ?_, fun y hy => ?_⟩, ?_⟩
  · have hy' : y ∈ k.heap.index.entries k.mem := hentries ▸ hy
    exact Nat.le_trans hroom (h.tiled.entry_bounds hy').1
  · have hy' : y ∈ k.heap.index.entries k.mem := hentries ▸ hy
    obtain ⟨-, hyhi, hymin⟩ := h.tiled.entry_bounds hy'
    change y + headerSize m2 y ≤ newEnd
    by_cases hyx : y = x
    · rw [hyx, hgrown]
      omega
    · -- the others end where the hole begins at the latest
      have hle := hmax y hy'
      have hapart := hsplit.entry_apart hy' (haddr ▸ hyx)
      rw [← haddr] at hapart
      have hkept : SameOn y (y + 12) k.mem m2 := hsame.sameOn (Or.inl (by omega))
      have hsize : headerSize m2 y = headerSize k.mem y := hkept.read32 (by omega) (by omega)
      rw [hsize]
      omega
  · rw [hlookup, hgrown]
    exact Nat.le_add_left _ _

/-- After the expansion step the listed holes lie inside the longer heap, and one of them has the
new bytes at least. -/
theorem WellFormed.growHoles_listing (h : WellFormed k cs)
    (hslot : k.heap.index.array + 4 ≤ k.heap.startAddress)
    (hmore : k.heap.endAddress + 20 ≤ newEnd) (hlt : newEnd < 4294967296) :
    ∃ k3, Kernel.growHoles (sub32 k.heap.endAddress k.heap.startAddress) k.heap.endAddress
        (withEnd newEnd k) = k3 ∧ Listing k3 ∧
      ∃ i < k3.heap.index.size,
        newEnd - k.heap.endAddress ≤ headerSize k3.mem (k3.heap.index.lookup i k3.mem) := by
  have hstart := h.start_ge
  rcases scan_spec (k := k) (withEnd_mem newEnd k) (withEnd_heap newEnd k) with
    ⟨hscan, hzero⟩ | ⟨i, hscan, hi, -, hmax⟩
  · -- no hole at all
    have hempty : k.heap.index.size = 0 := by
      by_contra hsize
      have hentry := OrderedArray.lookup_mem (m := k.mem) (Nat.pos_of_ne_zero hsize)
      have hlo := (h.tiled.entry_bounds hentry).1
      have hnot := hzero _ hentry
      omega
    obtain ⟨left, last, rfl, -, hgrown, -⟩ :=
      growHoles_empty h hmore hlt hempty (by unfold IndexRoom; omega)
    obtain ⟨i, hi, hsize⟩ := hgrown.tiled.exists_lookup (List.mem_append_right left
      (List.mem_singleton_self _)) rfl
    have htiles := h.tiles
    rw [total_append] at htiles
    refine ⟨_, rfl, hgrown.listing, i, hi, ?_⟩
    rw [hsize]
    dsimp only
    omega
  · obtain ⟨-, -, hmin⟩ := h.tiled.entry_bounds (OrderedArray.lookup_mem (m := k.mem) hi)
    rw [growHoles_some h.tiled (withEnd_mem newEnd k) (withEnd_heap newEnd k) (by omega) hlt hscan
      hi]
    generalize hx : k.heap.index.lookup i k.mem = x at hmin hmax ⊢
    have hfoot : x + headerSize k.mem x + (newEnd - k.heap.endAddress) - 8 + 8 =
        x + (headerSize k.mem x + (newEnd - k.heap.endAddress)) := by omega
    obtain ⟨hlisting, hbytes⟩ := h.listing_of_grown hlt (by omega) hi hx rfl hmax hfoot rfl
    exact ⟨_, rfl, hlisting, i, hi, hbytes⟩

end Grow

section Expand

variable {k k1 : Kernel} {size pageAlign address fuel newSize n it : Nat}

theorem Refused.expand (h : Refused size k) (alloc : Kernel.Allocator) :
    ∃ desc, Kernel.expand alloc (k.askedLen size) k = .error (.panicAssert desc) := by
  unfold Kernel.expand
  by_cases hmore : k.heapLen < k.askedLen size
  · have hmax := h.resolve_left (Nat.not_le_of_lt hmore)
    rw [show sub32 k.heap.endAddress k.heap.startAddress = k.heapLen from rfl]
    dsimp only
    rw [assertThat_of _ hmore, ok_bind]
    exact ⟨_, by rw [assertThat, if_neg (by simpa using hmax)]; rfl⟩
  · rw [show sub32 k.heap.endAddress k.heap.startAddress = k.heapLen from rfl]
    dsimp only
    exact ⟨_, by rw [assertThat, if_neg (by simpa using hmore)]; rfl⟩

theorem Refused.alloc (h : Refused size k)
    (hnone : Kernel.findSmallestHole (add32 size (sizeofHeader + sizeofFooter)) pageAlign k = none)
    (fuel : Nat) :
    ∃ desc, Kernel.alloc (fuel + 1) size pageAlign k = .error (.panicAssert desc) := by
  obtain ⟨desc, hexpand⟩ := h.expand (Kernel.alloc fuel)
  refine ⟨desc, ?_⟩
  rw [Kernel.alloc]
  simp only [hnone]
  change (Kernel.expand (Kernel.alloc fuel) (k.askedLen size) k >>= _) = _
  rw [hexpand]
  rfl

theorem getPage_refused (hnone : Kernel.lookupPage address k = 0) (hkheap : k.kheap ≠ 0)
    (hfind : Kernel.findSmallestHole (0x1000 + 20) 1 k = none) (h : Refused 0x1000 k) :
    ∃ desc, Kernel.getPage (Kernel.alloc 1) address 1 k = .error (.panicAssert desc) := by
  obtain ⟨desc, halloc⟩ := h.alloc hfind 0
  refine ⟨desc, ?_⟩
  unfold Kernel.getPage Kernel.kmallocAp Kernel.kmallocInt
  rw [if_neg (not_not.mpr hnone), if_pos Nat.one_ne_zero, if_pos hkheap,
    show 1 % 256 = 1 from rfl, halloc]
  rfl

/-- The page loop comes to its end, or to a page whose table is refused. -/
theorem expandLoop_had {k0 : Kernel} {cs : List Chunk} (h : TablesHad newSize n it k)
    (hserves : ∃ cs' new, Serves k0 cs k cs' new) (hframes : k.frames.nframes < 4294967296) :
    (∃ desc, Kernel.expandLoop (Kernel.alloc 1) newSize n it k = .error (.panicAssert desc)) ∨
      ∃ k', Kernel.expandLoop (Kernel.alloc 1) newSize n it k = .ok k' ∧
        (∃ cs' new, Serves k0 cs k' cs' new) ∧ k'.heap.endAddress = k.heap.endAddress ∧
        k'.heap.index.array = k.heap.index.array := by
  induction n generalizing it k with
  | zero => exact Or.inr ⟨k, rfl, hserves, rfl, rfl⟩
  | succ n ih =>
      rw [Kernel.expandLoop]
      by_cases hit : it < newSize
      · rw [if_pos hit]
        obtain ⟨htable, hrest⟩ := h hit
        by_cases hserved : Kernel.lookupPage (add32 k.heap.startAddress it) k = 0 → k.kheap ≠ 0 →
            ServedAtOnce heapGuards 0x1000 1 k
        · obtain ⟨page, k1, hget, hframes1, harray1⟩ := getPage_served hserved
          obtain ⟨hserves1, -, hend1⟩ := (kept_serves k0 cs).getPage hserves hserved hget
          obtain ⟨k2, hframe, hframes2, hheap2⟩ := allocFrameAt_total (k := k1)
            (by rw [hframes1]; exact hframes) page (if k1.heap.supervisor ≠ 0 then 1 else 0)
            (if k1.heap.readonly ≠ 0 then 0 else 1)
          have hmem2 := (allocFrameAt_eq hframe).1
          rw [hget, ok_bind]
          dsimp only
          rw [hframe, ok_bind]
          rcases ih (hrest page k1 k2 hget hframe)
            ((kept_serves k0 cs).congr _ _ hserves1 hmem2 hheap2)
            (by rw [hframes2, hframes1]; exact hframes) with
            hstop | ⟨k', hloop, hserves', hend, harray⟩
          · exact Or.inl hstop
          · rw [hheap2] at hend harray
            exact Or.inr ⟨k', hloop, hserves', hend.trans hend1, harray.trans harray1⟩
        · -- the first table that is not served is refused
          simp only [Classical.not_imp] at hserved
          obtain ⟨hnone, hkheap, hnot⟩ := hserved
          obtain ⟨hfind, hrefused⟩ := (htable hnone hkheap).resolve_left hnot
          obtain ⟨desc, hget⟩ := getPage_refused hnone hkheap hfind hrefused
          exact Or.inl ⟨desc, by rw [hget]; rfl⟩
      · rw [if_neg hit]
        exact Or.inr ⟨k, rfl, hserves, rfl, rfl⟩

/-- The expansion for a request, when its assertions hold: it has all of its pages, or the request
for a page table is refused. -/
theorem GrowsFor.expand {cs : List Chunk} (h : GrowsFor size k) (hwf : WellFormed k cs)
    (hframes : k.frames.nframes < 4294967296) (hsize : size + 20 < 4294967296)
    (hnot : ¬ Refused size k) :
    (∃ desc, Kernel.expand (Kernel.alloc 1) (k.askedLen size) k = .error (.panicAssert desc)) ∨
      ∃ k2 cs2, WellFormed k2 cs2 ∧ k2.heap.startAddress = k.heap.startAddress ∧
        k2.heap.endAddress = k.heap.endAddress ∧ k2.heap.index.array = k.heap.index.array ∧
        Kernel.expand (Kernel.alloc 1) (k.askedLen size) k =
          .ok (withEnd (k.heap.startAddress + expandedSize size k) k2) := by
  obtain ⟨-, hfits, htables⟩ := h
  obtain ⟨hmore, hmax⟩ := not_or.mp hnot
  rw [Nat.not_le] at hmore
  rw [Nat.not_lt] at hmax
  have hasked : Kernel.nextPage (k.askedLen size) = expandedSize size k := by
    unfold Kernel.askedLen expandedSize
    rw [show add32 size (sizeofHeader + sizeofFooter) = size + 20 from add32_eq hsize]
    rfl
  unfold Kernel.expand
  rw [show sub32 k.heap.endAddress k.heap.startAddress = k.heapLen from rfl]
  dsimp only
  rw [assertThat_of _ hmore, ok_bind, assertThat_of _ hmax, ok_bind, hasked]
  rcases expandLoop_had htables ⟨cs, [], Serves.refl hwf⟩ hframes with
    ⟨desc, hloop⟩ | ⟨k2, hloop, ⟨cs2, new, hserves⟩, hend, harray⟩
  · exact Or.inl ⟨desc, by rw [hloop]; rfl⟩
  · refine Or.inr ⟨k2, cs2, hserves.wellFormed, hserves.start, hend, harray, ?_⟩
    have hend2 : add32 k2.heap.startAddress (expandedSize size k) =
        k.heap.startAddress + expandedSize size k := by
      rw [hserves.start, add32_eq hfits]
    rw [hloop, ok_bind, ← hend2]
    rfl

/-- **A request that no hole fits** is answered when the heap can be made longer for it. -/
theorem GrowsFor.answered {cs : List Chunk} (h : GrowsFor size k) (hwf : WellFormed k cs)
    (hslot : k.heap.index.array + 4 ≤ k.heap.startAddress)
    (hframes : k.frames.nframes < 4294967296) (hsize : size + 20 < 4294967296)
    (hnone : Kernel.findSmallestHole (size + 20) 0 k = none) : Answered size k := by
  have hnew : add32 size (sizeofHeader + sizeofFooter) = size + 20 := add32_eq hsize
  have hnone' : Kernel.findSmallestHole (add32 size (sizeofHeader + sizeofFooter)) 0 k = none := by
    rwa [hnew]
  by_cases hrefused : Refused size k
  · exact ⟨1, Or.inl (hrefused.alloc hnone' 0)⟩
  · have hround : Kernel.alloc 2 size 0 k =
        Kernel.expand (Kernel.alloc 1) (k.askedLen size) k >>= fun k1 =>
          Kernel.alloc 1 size 0 (Kernel.growHoles k.heapLen k.heap.endAddress k1) := by
      rw [Kernel.alloc]
      simp only [hnone']
      rfl
    rcases h.expand hwf hframes hsize hrefused with
      ⟨desc, hexpand⟩ | ⟨k2, cs2, hwf2, hstart, hend, harray, hexpand⟩
    · exact ⟨2, Or.inl ⟨desc, by rw [hround, hexpand]; rfl⟩⟩
    · obtain ⟨hgrows, hfits, -⟩ := h
      have hmore : k.heapLen < k.askedLen size := Nat.not_le.mp fun hle => hrefused (Or.inl hle)
      have htiles := hwf.tiles
      have hlt := hwf.end_lt
      have hlen : k.heapLen = k.heap.endAddress - k.heap.startAddress :=
        sub32_eq (by omega) (by omega)
      -- the sum of the old length and the request does not wrap
      have hsum : add32 k.heapLen (size + 20) = k.heapLen + (size + 20) := by
        unfold Kernel.askedLen at hmore
        rw [hnew] at hmore
        unfold add32 at hmore ⊢
        omega
      have hge : k.heapLen + (size + 20) ≤ expandedSize size k := by
        rw [← hsum]
        exact le_nextPage (add32_lt _ _) (Nat.lt_of_le_of_lt (Nat.zero_le _) hgrows)
      have hfar : k2.heap.endAddress + (size + 20) ≤
          k.heap.startAddress + expandedSize size k := by omega
      obtain ⟨k3, hgrow, hlisting, i, hi, hroom⟩ :=
        hwf2.growHoles_listing (by omega) (show k2.heap.endAddress + 20 ≤ _ by omega) hfits
      -- the hole that has got the new bytes fits, so the search comes to one
      obtain ⟨it, hfind⟩ : ∃ it, Kernel.findSmallestHole (size + 20) 0 k3 = some it := by
        rw [← Option.ne_none_iff_exists']
        intro hnone3
        have hnofit := findSmallestHole_none hnone3 i hi
        rw [holeFits_plain, decide_eq_true_eq] at hnofit
        omega
      obtain ⟨p, k', halloc, hinside, hheader⟩ := hlisting.alloc_of_find 0 hsize hfind
      refine ⟨2, Or.inr ⟨p, k', ?_, hinside, hheader⟩⟩
      have hsame : Kernel.growHoles k.heapLen k.heap.endAddress
          (withEnd (k.heap.startAddress + expandedSize size k) k2) = k3 := by
        rw [← hgrow, hstart, hend]
        rfl
      rw [hround, hexpand, ok_bind, hsame]
      exact halloc

theorem tablesHad_of_present
    (hpresent : ∀ j < newSize, Kernel.lookupPage (add32 k.heap.startAddress j) k ≠ 0) :
    TablesHad newSize n it k := by
  induction n generalizing it k with
  | zero => trivial
  | succ n ih =>
      intro hlt
      refine ⟨fun hnone => absurd hnone (hpresent it hlt), fun page k1 k2 hget hframe => ih ?_⟩
      unfold Kernel.getPage at hget
      rw [if_pos (hpresent it hlt)] at hget
      obtain ⟨-, rfl⟩ := Prod.mk.inj (Except.ok.inj hget)
      intro j hj
      have hthere := hpresent j hj
      unfold Kernel.lookupPage at hthere ⊢
      rw [(allocFrameAt_eq hframe).2, allocFrameAt_directory hframe]
      exact hthere

end Expand

/-! ### Every request -/

section Request

variable {k : Kernel} {cs : List Chunk} {size it : Nat}

theorem not_answered_of_wraps (hwraps : 4294967296 ≤ size + 20)
    (hfind : Kernel.findSmallestHole (add32 size (sizeofHeader + sizeofFooter)) 0 k = some it) :
    ¬ Answered size k := by
  rintro ⟨fuel, hanswer⟩
  cases fuel with
  | zero =>
      rcases hanswer with ⟨desc, hstop⟩ | ⟨p, k', hreturn, -⟩
      · exact nomatch Except.error.inj hstop
      · exact nomatch hreturn
  | succ fuel =>
      rw [Kernel.alloc] at hanswer
      simp only [hfind] at hanswer
      rcases hanswer with ⟨desc, hstop⟩ | ⟨p, k', -, -, hheader⟩
      · contradiction
      · have hlt := read32_lt k'.mem (sub32 p sizeofHeader + 8)
        unfold headerSize at hheader
        omega

/-- **A request is answered** when a listed hole fits what is searched for, if and only if that is
what was asked for. When none fits, it is answered if an assertion of `expand` fails or the heap can
be made longer for it. -/
theorem answered_of_request (h : WellFormed k cs)
    (hslot : k.heap.index.array + 4 ≤ k.heap.startAddress)
    (hframes : k.frames.nframes < 4294967296) :
    ((Kernel.findSmallestHole (add32 size (sizeofHeader + sizeofFooter)) 0 k).isSome →
      (Answered size k ↔ size + 20 < 4294967296)) ∧
    (Kernel.findSmallestHole (add32 size (sizeofHeader + sizeofFooter)) 0 k = none →
      Refused size k ∨ size + 20 < 4294967296 ∧ GrowsFor size k → Answered size k) := by
  refine ⟨fun hfound => ?_, fun hnone hok => ?_⟩
  · obtain ⟨it, hfind⟩ := Option.isSome_iff_exists.mp hfound
    refine ⟨fun hanswered => ?_, fun hsize => ?_⟩
    · by_contra hwraps
      exact not_answered_of_wraps (Nat.not_lt.mp hwraps) hfind hanswered
    · rw [show add32 size (sizeofHeader + sizeofFooter) = size + 20 from add32_eq hsize] at hfind
      obtain ⟨p, k', halloc, hanswer⟩ := h.listing.alloc_of_find 0 hsize hfind
      exact ⟨1, Or.inr ⟨p, k', halloc, hanswer⟩⟩
  · rcases hok with hrefused | ⟨hsize, hgrows⟩
    · exact ⟨1, Or.inl (hrefused.alloc hnone 0)⟩
    · rw [show add32 size (sizeofHeader + sizeofFooter) = size + 20 from add32_eq hsize] at hnone
      exact hgrows.answered h hslot hframes hsize hnone

end Request

theorem growsFor_bareStart : GrowsFor 0x80000 bareStart.kernel := by
  refine ⟨by decide +kernel, by decide +kernel, tablesHad_of_present fun j hj => ?_⟩
  have hlen : expandedSize 0x80000 bareStart.kernel = 0x100000 := by decide +kernel
  have hstart : bareStart.kernel.heap.startAddress = 0xC0081000 := by decide
  rw [hlen] at hj
  rw [hstart, add32_eq (by omega)]
  unfold Kernel.lookupPage
  dsimp only
  rw [show (0xC0081000 + j) / 0x1000 / 1024 = 768 by omega, show
    bareStart.kernel.directory.pageTablesVirtual 768 = 0x180000 by decide, if_pos (by decide)]
  omega

theorem answered_of_request_bareStart :
    Answered 8 bareStart.kernel ∧ Answered 0x80000 bareStart.kernel := by
  have hwf := fresh_bareStart.inv.wellFormed
  exact ⟨((answered_of_request hwf (by decide) (by decide)).1 (by decide +kernel)).mpr (by decide),
    (answered_of_request hwf (by decide) (by decide)).2 (by decide +kernel)
      (Or.inr ⟨by decide, growsFor_bareStart⟩)⟩

/-- The largest request finds the hole of a new heap. -/
theorem not_answered : ¬ ∀ k cs size, Intact k cs → size < 4294967296 → Answered size k := by
  intro hall
  obtain ⟨it, hfind⟩ := Option.isSome_iff_exists.mp (show (Kernel.findSmallestHole
    (add32 0xFFFFFFFF (sizeofHeader + sizeofFooter)) 0 bareStart.kernel).isSome by decide +kernel)
  exact not_answered_of_wraps (by decide) hfind
    (hall _ _ 0xFFFFFFFF fresh_bareStart.intact (by decide))

end Vulcanos
