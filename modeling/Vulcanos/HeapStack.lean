import Vulcanos.HeapAlloc
import Vulcanos.HeapSafety
import Vulcanos.Proof.HeapPages
import Vulcanos.Proof.Merge

/-!
# Blocks freed in the reverse order of their requests

Used like this, the heap is a stack: every block begins where the one before it ends, freeing the
last one gives all its bytes back, and nothing is ever in the way of a request that there are bytes
for.
-/

namespace Vulcanos

open Memory Word Layout

/-- The bytes that blocks of these sizes take up, with a header and a footer each. -/
def stackSize (sizes : List Nat) : Nat := (sizes.map (· + 20)).sum

/-- Blocks of these sizes from the address `a` on, the last one first. -/
def stackAt (a : Nat) : List Nat → List (Nat × Nat)
  | [] => []
  | n :: sizes => (a + stackSize sizes + 12, n) :: stackAt a sizes

def stackChunks (sizes : List Nat) : List Chunk := (sizes.map fun n => ⟨n + 20, false⟩).reverse

/-- The heap consists of blocks of these sizes, the last one first, and of one hole behind them. The
word in front of the heap is no part of the index and no footer's. -/
structure Stacked (k : Kernel) (sizes : List Nat) : Prop where
  start_ge : 4096 ≤ k.heap.startAddress
  sound : Sound k (stackChunks sizes ++
    [⟨k.heap.endAddress - k.heap.startAddress - stackSize sizes, true⟩])
  below : k.heap.index.array + 4 * k.heap.index.maxSize + 8 ≤ k.heap.startAddress
  quiet : footerMagic k.mem (k.heap.startAddress - 8) ≠ heapMagic

section Chunks

variable {sizes : List Nat} {n a : Nat}

@[simp]
theorem stackSize_cons (n : Nat) (sizes : List Nat) :
    stackSize (n :: sizes) = n + 20 + stackSize sizes := rfl

theorem stackChunks_cons (n : Nat) (sizes : List Nat) :
    stackChunks (n :: sizes) = stackChunks sizes ++ [⟨n + 20, false⟩] := by
  rw [stackChunks, List.map_cons, List.reverse_cons, stackChunks]

theorem inUse_stackChunks {c : Chunk} (hc : c ∈ stackChunks sizes) : c.hole = false := by
  rw [stackChunks, List.mem_reverse] at hc
  obtain ⟨n, -, rfl⟩ := List.mem_map.mp hc
  rfl

theorem total_stackChunks (sizes : List Nat) :
    total Chunk.size (stackChunks sizes) = stackSize sizes := by
  induction sizes with
  | nil => rfl
  | cons n sizes ih =>
      rw [stackChunks_cons, total_append, ih, total_cons, total_nil, stackSize_cons]
      exact Nat.add_comm _ _

theorem holes_stackChunks (a : Nat) (sizes : List Nat) : holes a (stackChunks sizes) = [] := by
  induction sizes with
  | nil => rfl
  | cons n sizes ih => rw [stackChunks_cons, holes_append, ih, holes_cons, holes_nil]; rfl

end Chunks

section Steps

variable {k k' : Kernel} {left right : List Chunk} {sizes : List Nat} {it n r s size : Nat}

/-! ### The bytes between the index and the heap -/

/-- The heap `k'` is in the place of `k`, with as many slots, and the bytes between them are as they
were. So are the pages. -/
structure FrontKept (k k' : Kernel) : Prop where
  paging : SamePaging k k'
  heap : ∃ n, k'.heap = { k.heap with index := { k.heap.index with size := n } }
  same : SameOn (k.heap.index.array + 4 * k.heap.index.maxSize) k.heap.startAddress k.mem k'.mem

theorem FrontKept.quiet (h : FrontKept k k')
    (hbelow : k.heap.index.array + 4 * k.heap.index.maxSize + 8 ≤ k.heap.startAddress)
    (hquiet : footerMagic k.mem (k.heap.startAddress - 8) ≠ heapMagic) :
    footerMagic k'.mem (k.heap.startAddress - 8) ≠ heapMagic := by
  have hword : footerMagic k'.mem (k.heap.startAddress - 8) =
      footerMagic k.mem (k.heap.startAddress - 8) := h.same.read32 (by omega) (by omega)
  rwa [hword]

/-- Chunks in the place of the ones of before make up the heap again. -/
theorem FrontKept.stacked (h : FrontKept k k') (hstacked : Stacked k sizes) {sizes' : List Nat}
    (hsound : Sound k' (stackChunks sizes' ++
      [⟨k.heap.endAddress - k.heap.startAddress - stackSize sizes', true⟩])) :
    Stacked k' sizes' := by
  have hquiet := h.quiet hstacked.below hstacked.quiet
  have hbelow := hstacked.below
  have hstart := hstacked.start_ge
  obtain ⟨n, hheap⟩ := h.heap
  refine ⟨?_, ?_, ?_, ?_⟩ <;> rw [hheap]
  · exact hstart
  · exact hsound
  · exact hbelow
  · exact hquiet

theorem FrontKept.insertHole (h : FrontKept k k') (a : Nat)
    (hspare : k'.heap.index.size < k.heap.index.maxSize) :
    FrontKept k (Kernel.insertHole a k') := by
  obtain ⟨hpaging, ⟨n, hheap⟩, hsame⟩ := h
  rw [hheap] at hspare
  have hinsert := insertHole_sameOutside a k'
  rw [hheap] at hinsert
  refine ⟨hpaging.trans (samePaging_insertHole a k'), ⟨n + 1, by rw [insertHole_heap, hheap]⟩,
    hsame.trans (hinsert.sameOn (Or.inr ?_))⟩
  simp only at hspare ⊢
  omega

theorem Sound.carve_front (h : Sound k (left ++ [⟨s, true⟩] ++ right))
    (haddr : k.heap.index.lookup it k.mem = k.heap.startAddress + total Chunk.size left)
    (hfits : size + 20 ≤ s) : FrontKept k (Kernel.carveBlock it size (size + 20) 0 k).2 := by
  have hwhole : Sound k (left ++ ⟨s, true⟩ :: right) := by simpa using h
  have hspare := h.spare
  have hend := hwhole.chunk_end_le
  have hremove := removeHole_sameOutside it k
  have hheap := removeHole_heap it k
  obtain ⟨hb, hrest⟩ := plainBlock_spec hfits
  rw [carveBlock_plain haddr.symm hwhole.chunkAt.header.size.symm hfits]
  generalize plainBlock size s = b at hb hrest
  obtain ⟨m', hwrite, -, -, heq⟩ := writeBlock_spec (Kernel.removeHole it k)
    (k.heap.startAddress + total Chunk.size left) (show b - 20 + 20 = b by omega) hrest
    (by rw [hheap]; exact hend) (by rw [hheap]; exact h.end_lt)
  have hkept : FrontKept k { Kernel.removeHole it k with mem := m' } :=
    ⟨(samePaging_removeHole it k).trans (samePaging_mem _ m'), ⟨_, hheap⟩,
      (hremove.sameOn (Or.inr (by omega))).trans (hwrite.sameOn (Or.inl (by omega)))⟩
  rw [heq]
  dsimp only
  split
  · exact hkept
  · refine hkept.insertHole _ ?_
    rw [withMem_heap, hheap]
    exact Nat.lt_of_le_of_lt (Nat.sub_le _ _) hspare

/-! ### A request -/

theorem Stacked.lookup_eq (h : Stacked k sizes) (hit : it < k.heap.index.size) :
    k.heap.index.lookup it k.mem = k.heap.startAddress + stackSize sizes := by
  have hmem := h.sound.index.subset (OrderedArray.lookup_mem (m := k.mem) hit)
  rw [holes_append, holes_stackChunks, List.nil_append, holes_cons, holes_nil,
    total_stackChunks] at hmem
  simpa using hmem

/-- **A request** that leaves room for a hole is served behind the last block. -/
theorem Stacked.push (h : Stacked k sizes) (fuel : Nat)
    (hroom : stackSize sizes + size + 40 ≤ k.heap.endAddress - k.heap.startAddress) :
    ∃ k', Kernel.alloc (fuel + 1) size 0 k =
        .ok (k.heap.startAddress + stackSize sizes + 12, k') ∧ Stacked k' (size :: sizes) ∧
      SamePaging k k' := by
  have hsound := h.sound
  have hend := hsound.end_lt
  obtain ⟨w, hw⟩ : ∃ w, w = k.heap.endAddress - k.heap.startAddress - stackSize sizes := ⟨_, rfl⟩
  rw [← hw] at hsound
  have hsome : SomeHoleFits (size + 20) (stackChunks sizes ++ [⟨w, true⟩]) :=
    ⟨⟨w, true⟩, List.mem_append_right _ (List.mem_singleton_self _), rfl, by simp only; omega⟩
  obtain ⟨it, hfind⟩ := hsound.find_of_fits hsome
  obtain ⟨hit, -, -⟩ := findSmallestHole_spec hfind
  have haddr := h.lookup_eq hit
  rw [← total_stackChunks] at haddr
  rw [← List.append_nil (_ ++ _)] at hsound
  have hfits : size + 20 ≤ w := by omega
  obtain ⟨hp, hsplit⟩ := hsound.carve_plain hit haddr hfits
  have hkept := hsound.carve_front haddr hfits
  have halloc := alloc_of_find fuel (show size + 20 < 4294967296 by omega) hfind
  rw [show plainBlock size w = size + 20 from if_neg (by omega)] at hsplit
  generalize Kernel.carveBlock it size (size + 20) 0 k = r at hp hsplit hkept halloc
  obtain ⟨p, k'⟩ := r
  dsimp only at hp hsplit hkept
  rw [total_stackChunks] at hp
  refine ⟨k', by rw [halloc, hp], hkept.stacked h ?_, hkept.paging⟩
  have hsound' := hsplit.sound
  rw [blockChunks, if_neg (by omega), List.append_nil] at hsound'
  rw [stackChunks_cons, stackSize_cons, List.append_assoc]
  rwa [show k.heap.endAddress - k.heap.startAddress - (size + 20 + stackSize sizes) =
    w - (size + 20) by omega]

/-! ### A block that is freed -/

/-- Freeing a block with a hole behind it and none in front changes nothing there either. -/
theorem Sound.free_front {head : Nat} (h : Sound k (left ++ ⟨s, false⟩ :: ⟨r, true⟩ :: right))
    (hhead : head = k.heap.startAddress + total Chunk.size left)
    (hfront : left = [] → ¬ UnifiesFront (markHole head k.mem) head)
    (halone : ∀ c ∈ left.getLast?, c.hole = false) :
    ∃ k', Kernel.free (head + 12) k = .ok k' ∧ FrontKept k k' := by
  have hlt := h.end_lt
  have htiles := h.tiles
  have hspare := h.spare
  have hlisted : head + s ∈ k.heap.index.entries k.mem := by
    refine h.index.mem_iff.mpr ?_
    simp only [holes_append, holes_cons, hhead]
    simp
  have hnext : HeaderAt k.mem (head + s) true r := by
    have hchunk := (show Sound k ((left ++ [⟨s, false⟩]) ++ ⟨r, true⟩ :: right) by
      simpa using h).chunkAt
    rw [total_append, total_cons, total_nil, ← Nat.add_assoc, ← hhead] at hchunk
    exact hchunk.header
  have hmin := h.minSize ⟨s, false⟩ (by simp)
  have hminr := h.minSize ⟨r, true⟩ (by simp)
  simp only [total_append, total_cons] at htiles hmin hminr
  obtain ⟨hleft, hjoined⟩ := leftUnify_alone h.tiled hhead hfront halone
  have hmark := markHole_sameOutside head k.mem
  obtain ⟨m, hm⟩ : ∃ m, m = write32 (markHole head k.mem) (head + 8) (s + r) := ⟨_, rfl⟩
  have hsize : SameOutside head (head + s) k.mem m := by
    rw [hm]
    exact (hmark.mono (by omega) (by omega)).write32 (by omega) (by omega)
  have hentries : ∀ {m'}, SameOutside head (head + s) k.mem m' →
      k.heap.index.entries m' = k.heap.index.entries k.mem := fun hsame =>
    entries_of_sameOutside (Nat.le_of_lt hspare) h.outside (hsame.mono (by omega) (by omega))
  have hmarked := hentries (hmark.mono (by omega) (by omega))
  obtain ⟨-, -, it, -, -, hright⟩ := rightUnify_takes (sub32 head sizeofFooter) true
    hjoined.header (hnext.frame (hmark.sameOn (Or.inr (by omega)))) (by omega) (by omega) hm
    ((hentries hsize).trans hmarked.symm) (hmarked ▸ hlisted)
  have hheap := removeHole_heap it { k with mem := m }
  have hinside : add32 (sub32 (add32 (sub32 head sizeofFooter) r) sizeofFooter) sizeofFooter ≠
      (Kernel.removeHole it { k with mem := m }).heap.endAddress := by
    rw [hheap]
    unfold sizeofFooter add32 sub32
    simp only
    omega
  refine ⟨Kernel.insertHole head (Kernel.removeHole it { k with mem := m }), ?_, ?_⟩
  · rw [free_steps h.tiled hhead, hleft, hright, ok_bind, contractHeap_not hinside, ok_bind]
    rfl
  · have hremove := removeHole_sameOutside it { k with mem := m }
    have hkept : FrontKept k (Kernel.removeHole it { k with mem := m }) :=
      ⟨(samePaging_mem k m).trans (samePaging_removeHole it _), ⟨_, hheap⟩,
        (hsize.sameOn (Or.inl (by omega))).trans (hremove.sameOn (Or.inr (by simp only; omega)))⟩
    refine hkept.insertHole head ?_
    rw [hheap]
    exact Nat.lt_of_le_of_lt (Nat.sub_le _ _) hspare

/-- **Freeing the last block** gives its bytes to the hole. -/
theorem Stacked.pop (h : Stacked k (n :: sizes)) :
    ∃ k', Kernel.free (k.heap.startAddress + stackSize sizes + 12) k = .ok k' ∧
      Stacked k' sizes ∧ SamePaging k k' := by
  have hbelow := h.below
  have hsound := h.sound
  have hlt := hsound.end_lt
  have htiles := hsound.tiles
  rw [stackChunks_cons, stackSize_cons, List.append_assoc, List.singleton_append] at hsound
  obtain ⟨w, hw⟩ : ∃ w, w = k.heap.endAddress - k.heap.startAddress -
    (n + 20 + stackSize sizes) := ⟨_, rfl⟩
  rw [← hw] at hsound
  have hend := hsound.chunk_end_le
  have hfront : stackChunks sizes = [] →
      ¬ UnifiesFront (markHole k.heap.startAddress k.mem) k.heap.startAddress := fun _ => by
    refine not_unifiesFront ?_
    rw [sizeofFooter, sub32_eq (by omega) (by omega)]
    exact h.quiet
  have hlast : ∀ c ∈ (stackChunks sizes).getLast?, c.hole = false := fun c hc =>
    inUse_stackChunks (List.mem_of_getLast? hc)
  obtain ⟨k', hfree, hkept⟩ := hsound.free_front rfl
    (fun hnil => by rw [hnil, total_nil, Nat.add_zero]; exact hfront hnil) hlast
  obtain ⟨left', lh, rh, right, k2, hrel⟩ := free_releases hsound.tiled (by simp) hfront
    (fun init t hinit => by simp [hinit] at hlast)
  have hnext : Neighbours (stackChunks sizes) [] [⟨w, true⟩] [] :=
    ⟨Or.inl ⟨rfl, hlast⟩, Or.inr ⟨w, rfl⟩⟩
  rw [← List.append_nil (stackChunks sizes), ← List.append_nil [_]] at hrel
  obtain ⟨rfl, rfl, rfl, rfl⟩ := hrel.neighbours hnext
  have hslot : ([] : List Chunk) = [] → [(⟨w, true⟩ : Chunk)] = [] → SlotFree k :=
    fun _ hnil => nomatch hnil
  have htiled : Tiled k (stackChunks sizes ++ [] ++ ⟨n + 20, false⟩ :: ([⟨w, true⟩] ++ [])) := by
    simpa using hsound.tiled
  have hback := hrel.gathered.tiled htiled hslot
  have hcall := hrel.call
  rw [List.append_nil, hfree, Except.ok.injEq] at hcall
  rw [← hcall] at hback
  simp only [total_nil, total_cons, Nat.zero_add, Nat.add_zero] at hback
  obtain ⟨m, hheap⟩ := hkept.heap
  have hstacked : Stacked k' sizes := by
    have hout := h.sound.outside
    have hspare := h.sound.spare
    -- there is one hole before the call and one after it
    have hsize := h.sound.index.length_eq
    have hsize' := hback.index.length_eq
    rw [OrderedArray.length_entries, holes_append, holes_stackChunks] at hsize hsize'
    have hwidth : k.heap.endAddress - k.heap.startAddress - stackSize sizes = n + 20 + w := by
      rw [total_append, total_stackChunks, stackSize_cons, total_cons, total_nil] at htiles
      simp only at htiles
      omega
    refine hkept.stacked h ?_
    rw [hwidth]
    refine ⟨hback.end_lt, hback.tiles, hback.chunksAt, hback.index, ?_, ?_⟩
    · rw [hsize']
      rw [hsize] at hspare
      rw [hheap]
      exact hspare
    · unfold IndexOutside at hout ⊢
      rw [hheap]
      exact hout
  rw [total_stackChunks] at hfree
  exact ⟨k', hfree, hstacked, hkept.paging⟩

/-! ### A store -/

theorem mem_blocks_of_mem_stackAt {u : Nat × Nat} {a : Nat} (hu : u ∈ stackAt a sizes)
    (rest : List Chunk) :
    ∃ head, u.1 = head + 12 ∧ (head, u.2 + 20) ∈ blocks a (stackChunks sizes ++ rest) := by
  induction sizes generalizing rest with
  | nil => exact absurd hu List.not_mem_nil
  | cons n sizes ih =>
      rw [stackChunks_cons, List.append_assoc]
      rcases List.mem_cons.mp hu with rfl | hu
      · refine ⟨a + stackSize sizes, rfl, mem_blocks_iff.mpr ⟨stackChunks sizes, rest, rfl, ?_⟩⟩
        rw [total_stackChunks]
      · exact ih hu _

theorem Stacked.store (h : Stacked k sizes) {u : Nat × Nat} {a v : Nat}
    (hu : u ∈ stackAt k.heap.startAddress sizes) (hlo : u.1 ≤ a) (hhi : a < u.1 + u.2) :
    Stacked { k with mem := write8 k.mem a v } sizes := by
  obtain ⟨hge, hsound, hbelow, hquiet⟩ := h
  obtain ⟨head, hp, hmem⟩ := mem_blocks_of_mem_stackAt hu
    [⟨k.heap.endAddress - k.heap.startAddress - stackSize sizes, true⟩]
  have hspare := hsound.spare
  obtain ⟨left, right, -, hhead⟩ := mem_blocks_iff.mp hmem
  have hwf : WellFormed k (stackChunks sizes ++
      [⟨k.heap.endAddress - k.heap.startAddress - stackSize sizes, true⟩]) :=
    ⟨hge, hsound.end_lt, hsound.tiles, hsound.chunksAt, hsound.index, by omega⟩
  obtain ⟨-, hlt, htiles, hchunks, hindex, -⟩ :=
    hwf.store (v := v) hmem (show head + 12 ≤ a by omega) (by omega)
  refine ⟨hge, ⟨hlt, htiles, hchunks, hindex, hspare, hsound.outside⟩, hbelow, ?_⟩
  have hsame : SameOutside a (a + 1) k.mem (write8 k.mem a v) :=
    (SameOutside.refl _ _ _).write8 (Nat.le_refl _) (by omega)
  have hword : footerMagic (write8 k.mem a v) (k.heap.startAddress - 8) =
      footerMagic k.mem (k.heap.startAddress - 8) :=
    (hsame.sameOn (Or.inl (by omega))).read32 (Nat.le_refl _) (Nat.le_refl _)
  rwa [hword]

/-! ### Runs -/

/-- The blocks that are held are the stack's. -/
structure StackInv (s : HeapRun) : Prop where
  stacked : Stacked s.kernel (s.live.map Prod.snd)
  live : s.live = stackAt s.kernel.heap.startAddress (s.live.map Prod.snd)

/-- A plain request that leaves room for a hole, the last block that is held, or a store into a
block. -/
def Call.Lifo (c : Call) (s : HeapRun) : Prop :=
  match c with
  | alloc fuel size pageAlign => 0 < fuel ∧ pageAlign = 0 ∧
      stackSize (s.live.map Prod.snd) + size + 40 ≤
        s.kernel.heap.endAddress - s.kernel.heap.startAddress
  | free p => s.live.head?.map Prod.fst = some p
  | store a _ => ∃ u ∈ s.live, u.1 ≤ a ∧ a < u.1 + u.2

instance (c : Call) (s : HeapRun) : Decidable (c.Lifo s) :=
  match c with
  | .alloc fuel size pageAlign => inferInstanceAs (Decidable (0 < fuel ∧ pageAlign = 0 ∧
      stackSize (s.live.map Prod.snd) + size + 40 ≤
        s.kernel.heap.endAddress - s.kernel.heap.startAddress))
  | .free p => inferInstanceAs (Decidable (s.live.head?.map Prod.fst = some p))
  | .store a _ => inferInstanceAs (Decidable (∃ u ∈ s.live, u.1 ≤ a ∧ a < u.1 + u.2))

theorem lt_of_mem_stackAt {u : Nat × Nat} {a : Nat} (hu : u ∈ stackAt a sizes) :
    u.1 < a + stackSize sizes + 12 := by
  induction sizes with
  | nil => exact absurd hu List.not_mem_nil
  | cons n sizes ih =>
      rw [stackSize_cons]
      rcases List.mem_cons.mp hu with rfl | hu
      · simp only
        omega
      · have hlt := ih hu
        omega

/-- **One call** returns and leaves a stack. -/
theorem StackInv.step {s : HeapRun} {c : Call} (h : StackInv s) (hc : c.Lifo s) :
    ∃ s', c.step s = .ok s' ∧ StackInv s' ∧ SamePaging s.kernel s'.kernel := by
  obtain ⟨hstacked, hlive⟩ := h
  cases c with
  | alloc fuel size pageAlign =>
      obtain ⟨hfuel, rfl, hroom⟩ := hc
      obtain ⟨fuel, rfl⟩ := Nat.exists_eq_succ_of_ne_zero (Nat.ne_of_gt hfuel)
      obtain ⟨k', halloc, hstacked', hpaging⟩ := hstacked.push fuel hroom
      refine ⟨⟨k', (s.kernel.heap.startAddress + stackSize (s.live.map Prod.snd) + 12, size) ::
        s.live⟩, by rw [Call.step, halloc, ok_bind], ⟨hstacked', ?_⟩, hpaging⟩
      rw [hpaging.start, List.map_cons, stackAt, ← hlive]
  | free p =>
      obtain ⟨k, live⟩ := s
      dsimp only at hstacked hlive
      cases live with
      | nil => cases hc
      | cons u rest =>
          obtain ⟨q, n⟩ := u
          obtain rfl : q = p := Option.some.inj hc
          rw [List.map_cons, stackAt, List.cons.injEq, Prod.mk.injEq] at hlive
          obtain ⟨⟨hq, -⟩, hrest⟩ := hlive
          obtain ⟨k', hfree, hstacked', hpaging⟩ := hstacked.pop
          rw [← hq] at hfree
          have hfilter : ((q, n) :: rest).filter (fun u => u.1 ≠ q) = rest := by
            rw [List.filter_cons_of_neg (by simp), List.filter_eq_self]
            intro u hu
            rw [hrest] at hu
            have hlt := lt_of_mem_stackAt hu
            rw [decide_eq_true_eq]
            omega
          refine ⟨⟨k', rest⟩, ?_, ⟨hstacked', ?_⟩, hpaging⟩
          · rw [Call.step, hfree, ok_bind, hfilter]
          · rw [hpaging.start]
            exact hrest
  | store a v =>
      obtain ⟨u, hu, hlo, hhi⟩ := hc
      exact ⟨_, rfl, ⟨hstacked.store (hlive ▸ hu) hlo hhi, hlive⟩, samePaging_mem _ _⟩

end Steps

/-- A heap that was just created has no block. What is in front of it is arbitrary. -/
theorem Fresh.stacked {s : HeapRun} (h : Fresh s)
    (hquiet : footerMagic s.kernel.mem (s.kernel.heap.startAddress - 8) ≠ heapMagic) :
    Stacked s.kernel [] := by
  have hsound := h.intact.toSound
  obtain ⟨k, hkheap, hcreate, -⟩ := h
  rw [createKernelHeap_eq hkheap] at hcreate
  have hheap : s.kernel.heap =
      ⟨⟨kheapStart, 1, heapIndexSize⟩, 0xC0081000, 0xC0100000, 0xCFFFF000, 0, 0⟩ := by
    rw [← Except.ok.inj hcreate]
    exact insertHole_heap 0xC0081000 (unlistedHeap k)
  refine ⟨by rw [hheap]; decide, ?_, by rw [hheap]; decide, hquiet⟩
  rw [hheap]
  exact hsound

theorem Fresh.stackInv {s : HeapRun} (h : Fresh s)
    (hquiet : footerMagic s.kernel.mem (s.kernel.heap.startAddress - 8) ≠ heapMagic) :
    StackInv s := by
  have hstacked := h.stacked hquiet
  obtain ⟨k, -, -, hlive⟩ := h
  rw [← List.map_nil (f := Prod.snd (α := Nat)), ← hlive] at hstacked
  exact ⟨hstacked, by rw [hlive]; rfl⟩

section Runs

variable {s s' : HeapRun}

/-- **Blocks that are freed in the reverse order of their requests** lie side by side from the start
of the heap after every run, and the next such call returns: a request does as soon as the bytes of
the heap suffice for the blocks, itself and a hole. -/
theorem run_stacked (hfresh : Fresh s)
    (hquiet : footerMagic s.kernel.mem (s.kernel.heap.startAddress - 8) ≠ heapMagic)
    (hrun : Run.Reaches Call.step Call.Lifo s s') :
    s'.live = stackAt s.kernel.heap.startAddress (s'.live.map Prod.snd) ∧
      SamePaging s.kernel s'.kernel ∧ ∀ c : Call, c.Lifo s' → ∃ s'', c.step s' = .ok s'' := by
  have hinv : StackInv s' ∧ SamePaging s.kernel s'.kernel := by
    refine hrun.invariant (fun t => StackInv t ∧ SamePaging s.kernel t.kernel)
      ⟨hfresh.stackInv hquiet, .refl s.kernel⟩ ?_
    rintro c t u ⟨hinv, hpaging⟩ hlifo hstep
    obtain ⟨u', hstep', hinv', hpaging'⟩ := hinv.step hlifo
    obtain rfl := Except.ok.inj (hstep.symm.trans hstep')
    exact ⟨hinv', hpaging.trans hpaging'⟩
  obtain ⟨hinv, hpaging⟩ := hinv
  refine ⟨?_, hpaging, fun c hc => ?_⟩
  · rw [← hpaging.start]
    exact hinv.live
  · obtain ⟨s'', hstep, -⟩ := hinv.step hc
    exact ⟨s'', hstep⟩

/-- Two blocks, the last one freed for a smaller one in its place, and all freed again. -/
def stackedCalls : List Call :=
  [.alloc 1 32 0, .alloc 1 32 0, .free 0xC0081040, .alloc 1 8 0, .store 0xC0081047 255,
    .free 0xC0081040]

theorem run_stacked_stackedCalls : ∃ s', Run.Reaches Call.step Call.Lifo bareStart s' ∧
    s'.live = [(0xC008100C, 32)] ∧
    s'.live = stackAt bareStart.kernel.heap.startAddress (s'.live.map Prod.snd) := by
  obtain ⟨t, hrun, hlive⟩ := Run.exists_reaches_of_runAll
    (show (Run.runAll Call.step Call.Lifo stackedCalls bareStart).any
      (fun t => decide (t.live = [(0xC008100C, 32)])) = true by decide +kernel)
  exact ⟨t, hrun, of_decide_eq_true hlive,
    (run_stacked fresh_bareStart (by decide +kernel) hrun).1⟩

end Runs

end Vulcanos
