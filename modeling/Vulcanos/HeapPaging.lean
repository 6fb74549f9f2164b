import Vulcanos.HeapSafety
import Vulcanos.Kernel.PageFault
import Vulcanos.Proof.HeapPages

/-!
# The heap's pages have frames up to its end

After `init_paging` the heap's pages have frames exactly below `end_address`, and every expansion
keeps it so. A contraction does not: it leaves the page at the new end with its frame. In a
well-formed heap `free` never comes to contract, because the header it looks for behind the last
chunk is on a page that is not there. Where holes and blocks overlap it does come to it. The page
tables that an expansion past the first four megabytes makes come from the heap, so there the heap
has to be well formed; below, nothing is asked of the heap but that it does not contract.
-/

namespace Vulcanos

open Memory Word Layout

/-- The heap as `init_paging` leaves it, and nothing handed out. -/
def Booted (s : HeapRun) : Prop :=
  ∃ k fuel, k.kheap = 0 ∧ k.placementAddr % 0x1000 = 0 ∧ 0x100000 ≤ k.placementAddr ∧
    k.placementAddr ≤ 0x3000000 ∧ Kernel.initPaging fuel k = .ok s.kernel ∧ s.live = []

/-- One call on the kernel with its pages: `free` faults where it reads behind them. -/
def Call.pagedStep : Call → HeapRun → Except Stop HeapRun
  | free p, s => do
      let k ← Kernel.pagedFree p s.kernel
      .ok ⟨k, s.live.filter fun u => u.1 ≠ p⟩
  | c, s => c.step s

/-! ### The guards -/

/-- The frames that an expansion needs are among those that the bitmap has room for. -/
def EnoughFrames (size : Nat) (k : Kernel) : Prop :=
  k.frames.firstFrame +
    (expandedSize size k - sub32 k.heap.endAddress k.heap.startAddress) / 0x1000 ≤ 16384

/-- The heap guards and enough frames. -/
def pagingGuards : Guards where
  carve := heapGuards.carve
  expand := EnoughFrames
  grow := heapGuards.grow
  free := heapGuards.free

/-- Enough frames, no contraction, and no page table but the one that `init_paging` has made. -/
def oneTableGuards : Guards where
  carve := fun _ _ _ _ => True
  expand := fun size k => EnoughFrames size k ∧
    k.heap.startAddress + expandedSize size k ≤ 0xC0400000
  grow := fun _ _ => True
  free := fun head k => 0 < head ∧ ¬ Contracts head k

instance (size : Nat) (k : Kernel) : Decidable (EnoughFrames size k) := by
  unfold EnoughFrames
  infer_instance

instance : pagingGuards.Checked where
  carve := Guards.Checked.carve (G := heapGuards)
  expand := fun size k => inferInstanceAs (Decidable (EnoughFrames size k))
  grow := Guards.Checked.grow (G := heapGuards)
  free := Guards.Checked.free (G := heapGuards)

theorem keptPages_oneTable : KeptPages oneTableGuards fun _ => True where
  congr := fun _ _ _ _ _ _ => trivial
  carve := fun _ _ _ _ _ _ _ _ => trivial
  grow := fun _ _ _ _ _ _ => trivial
  enough := fun _ _ hspace => hspace.1
  table := by
    rintro k0 size k m it tmp ⟨-, htop⟩ hstart hlo hhi htable hnone - - -
    rw [show m / 1024 = 768 by omega] at hnone
    exact absurd hnone htable

/-! ### Page tables on the heap -/

/-- Every page table lies below the heap or is the payload of a block that no caller holds. -/
def TablesHeld (k : Kernel) (cs : List Chunk) (live : List (Nat × Nat)) : Prop :=
  ∀ t, k.table t ≠ 0 → k.table t + 0x1000 ≤ 0xC0000000 ∨
    ∃ head b, k.table t = head + 12 ∧ 0x1014 ≤ b ∧ (head, b) ∈ blocks k.heap.startAddress cs ∧
      ∀ u ∈ live, u.1 ≠ k.table t

/-- The heap is well formed, and the page tables are apart from what the callers hold. -/
def HeldHeap (live : List (Nat × Nat)) (k : Kernel) : Prop :=
  ∃ cs, HeapInv ⟨k, live⟩ cs ∧ TablesHeld k cs live

section Tables

variable {k k' : Kernel} {cs cs' : List Chunk} {live : List (Nat × Nat)} {new : List (Nat × Nat)}
  {head b t tmp : Nat}

theorem HeapInv.keep (h : HeapInv ⟨k, live⟩ cs) (hserves : Serves k cs k' cs' new) :
    HeapInv ⟨k', live⟩ cs' where
  wellFormed := hserves.wellFormed
  floor := by
    have hend := hserves.endAddr
    simp only [hserves.start]
    exact h.floor.trans hend
  live := fun u hu => by
    obtain ⟨head, b, hp, hb, hmem⟩ := h.live u hu
    simp only [hserves.start]
    exact ⟨head, b, hp, hb, hserves.blocks.mem_iff.mpr (List.mem_append_right _ hmem)⟩
  nodup := h.nodup

theorem TablesHeld.keep (h : TablesHeld k cs live) (hserves : Serves k cs k' cs' new)
    (hdir : k'.directory = k.directory) : TablesHeld k' cs' live := by
  intro t ht
  have htable : k'.table t = k.table t := by
    unfold Kernel.table
    rw [hdir]
  rw [htable] at ht ⊢
  rcases h t ht with hlow | ⟨head, b, haddr, hb, hmem, hlive⟩
  · exact Or.inl hlow
  · refine Or.inr ⟨head, b, haddr, hb, ?_, hlive⟩
    rw [hserves.start]
    exact hserves.blocks.mem_iff.mpr (List.mem_append_right _ hmem)

theorem WellFormed.block_bounds (h : WellFormed k cs)
    (hmem : (head, b) ∈ blocks k.heap.startAddress cs) :
    k.heap.startAddress ≤ head ∧ head + b ≤ k.heap.endAddress := by
  obtain ⟨left, right, rfl, hhead⟩ := mem_blocks_iff.mp hmem
  have hle := h.chunk_end_le
  simp only at hle
  omega

theorem Serves.new_ne (h : Serves k cs k' cs' [(head, b)]) {x c : Nat}
    (hmem : (x, c) ∈ Vulcanos.blocks k.heap.startAddress cs) : x ≠ head := by
  have hnodup : ((Vulcanos.blocks k.heap.startAddress cs').map Prod.fst).Nodup :=
    nodup_blocks_fst h.wellFormed.minSize
  rw [(h.blocks.map Prod.fst).nodup_iff] at hnodup
  simp only [List.singleton_append, List.map_cons, List.nodup_cons] at hnodup
  rintro rfl
  exact hnodup.1 (List.mem_map.mpr ⟨_, hmem, rfl⟩)

/-- **A page table from the heap** is apart from the others. -/
theorem HeldHeap.table (h : HeldHeap live k) (hstart : 0xC0000000 ≤ k.heap.startAddress)
    (hserves : ∀ cs, WellFormed k cs → ∃ cs' head b, Serves k cs k' cs' [(head, b)] ∧
      t = head + 12 ∧ 0x1014 ≤ b) (hdir : k'.directory = k.directory) (idx : Nat) :
    TableFits t k ∧ HeldHeap live (Kernel.installTable idx t tmp k') := by
  obtain ⟨cs, hinv, hheld⟩ := h
  obtain ⟨cs', head, b, hserve, rfl, hb⟩ := hserves cs hinv.wellFormed
  have hnew : (head, b) ∈ blocks k.heap.startAddress cs' := hserve.blocks.mem_iff.mpr (by simp)
  have hwf := hserve.wellFormed
  have hin := hwf.block_bounds (by rw [hserve.start]; exact hnew)
  rw [hserve.start] at hin
  refine ⟨⟨by omega, fun u hu => ?_⟩, cs', ?_, fun u hu => ?_⟩
  · rcases hheld u hu with hlow | ⟨x, c, haddr, hc, hmem, -⟩
    · exact Or.inl (by omega)
    · have hmem' : (x, c) ∈ blocks k.heap.startAddress cs' :=
        hserve.blocks.mem_iff.mpr (List.mem_append_right _ hmem)
      rcases apart_of_mem_blocks hmem' hnew with heq | hapart
      · exact absurd (Prod.mk.inj heq).1 (hserve.new_ne hmem)
      · omega
  · have hkeep := hinv.keep hserve
    exact ⟨(hserve.congr (installTable_mem _ _ _ _) (installTable_heap _ _ _ _)).wellFormed,
      hkeep.floor, hkeep.live, hkeep.nodup⟩
  · rw [table_installTable] at hu ⊢
    by_cases hidx : u = idx
    · rw [if_pos hidx]
      refine Or.inr ⟨head, b, rfl, hb, ?_, fun v hv heq => ?_⟩
      · rw [installTable_heap, hserve.start]
        exact hnew
      · obtain ⟨x, c, hp, -, hmem⟩ := hinv.live v hv
        exact hserve.new_ne hmem (by omega)
    · rw [if_neg hidx] at hu ⊢
      exact hheld.keep hserve hdir u hu

theorem keptPages_held (live : List (Nat × Nat)) : KeptPages pagingGuards fun k =>
    HeldHeap live k ∧ 0xC0000000 ≤ k.heap.startAddress where
  congr := by
    rintro k k' ⟨⟨cs, hinv, hheld⟩, hstart⟩ hmem hheap hdir
    refine ⟨⟨cs, ?_, ?_⟩, by rw [hheap]; exact hstart⟩
    · have hwf := ((Serves.refl hinv.wellFormed).congr hmem hheap).wellFormed
      refine ⟨hwf, ?_, ?_, hinv.nodup⟩
      · simp only [hheap]
        exact hinv.floor
      · simp only [hheap]
        exact hinv.live
    · have hkeep := hheld.keep ((Serves.refl hinv.wellFormed).congr hmem hheap) hdir
      exact hkeep
  carve := by
    rintro k size pageAlign it ⟨⟨cs, hinv, hheld⟩, hstart⟩ - hfind hcarve
    obtain ⟨cs', head, b, hserves, -⟩ := carveBlock_serves hinv.wellFormed hfind hcarve
    refine ⟨⟨cs', hinv.keep hserves, hheld.keep hserves ?_⟩, by rw [hserves.start]; exact hstart⟩
    exact (samePaging_carveBlock it size (size + 20) pageAlign k).directory
  grow := by
    rintro k newEnd ⟨⟨cs, hinv, hheld⟩, hstart⟩ hmore hlt ⟨hlast, hroom⟩
    obtain ⟨cs', hserves⟩ :=
      (growHoles_spec hinv.wellFormed hmore hlt hlast hroom).serves
        (Nat.le_trans (Nat.le_add_right _ 20) hmore)
    refine ⟨⟨cs', hinv.keep hserves, hheld.keep hserves ?_⟩, by rw [hserves.start]; exact hstart⟩
    exact (samePaging_growHoles _ _ (withEnd newEnd k)).directory
  enough := fun _ _ hspace => hspace
  table := by
    rintro k0 size k m it tmp - - - - - - ⟨hheld, hstart⟩ hfind hcarve
    have hsame := samePaging_carveBlock it 0x1000 (0x1000 + 20) 1 k
    have hserves : ∀ cs, WellFormed k cs → ∃ cs' head b,
        Serves k cs (Kernel.carveBlock it 0x1000 (0x1000 + 20) 1 k).2 cs' [(head, b)] ∧
          (Kernel.carveBlock it 0x1000 (0x1000 + 20) 1 k).1 = head + 12 ∧ 0x1014 ≤ b :=
      fun cs hwf => carveBlock_serves hwf hfind hcarve
    obtain ⟨hfits, hheld'⟩ := hheld.table hstart hserves hsame.directory (m / 1024)
    refine ⟨hfits, hheld', ?_⟩
    rw [installTable_heap, hsame.start]
    exact hstart

end Tables

/-! ### At boot -/

section Boot

variable {k k' : Kernel} {n fuel fuel' : Nat} {s : HeapRun}

theorem pageLoop_more {bound : Kernel → Nat} {body : Nat → Kernel → Except Stop Kernel} {i : Nat}
    (h : Kernel.pageLoop bound body fuel i k = .ok k') (hle : fuel ≤ fuel') :
    Kernel.pageLoop bound body fuel' i k = .ok k' := by
  induction fuel generalizing fuel' i k with
  | zero => simp [Kernel.pageLoop] at h
  | succ fuel ih =>
      obtain ⟨fuel', rfl⟩ := Nat.exists_eq_succ_of_ne_zero (show fuel' ≠ 0 by omega)
      rw [Kernel.pageLoop] at h ⊢
      split at h
      · rename_i hlt
        rw [if_pos hlt]
        simp only [bind_eq_ok] at h ⊢
        obtain ⟨k1, hbody, hrest⟩ := h
        exact ⟨k1, hbody, ih hrest (by omega)⟩
      · rename_i hge
        rw [if_neg hge]
        exact h

theorem initPaging_more (h : Kernel.initPaging fuel k = .ok k') (hle : fuel ≤ fuel') :
    Kernel.initPaging fuel' k = .ok k' := by
  unfold Kernel.initPaging at h ⊢
  simp only [bind_eq_ok] at h ⊢
  obtain ⟨k1, h1, k2, h2, k3, h3, k4, h4, k5, h5, h6⟩ := h
  exact ⟨k1, h1, k2, h2, k3, pageLoop_more h3 hle, k4, pageLoop_more h4 hle, k5,
      pageLoop_more h5 hle,
    h6⟩

theorem Booted.eq (h : Booted s) : ∃ b n k, HeapPages b n 256 k ∧ n ≤ 12400 ∧
    k.placementAddr + 0x1000 ≤ 0x1000 * n ∧
    s.kernel = { Kernel.insertHole 0xC0081000 (unlistedHeap k) with kheap := k.placementAddr } := by
  obtain ⟨k0, fuel, hkheap, halign, hlo, hhi, hinit, -⟩ := h
  obtain ⟨n, k, hpages, hn, hbound, hall⟩ := initPaging_eq hkheap halign hlo hhi
  have hmore := initPaging_more hinit (Nat.le_max_left fuel 12401)
  have hsame := hall (max fuel 12401) (Nat.lt_of_lt_of_le (by decide) (Nat.le_max_right _ _))
  exact ⟨_, n, k, hpages, hn, hbound, Except.ok.inj (hmore.symm.trans hsame)⟩

theorem Booted.fresh (h : Booted s) : Fresh s := by
  obtain ⟨b, n, k, hpages, -, -, heq⟩ := h.eq
  obtain ⟨-, -, -, -, -, -, -, hlive⟩ := h
  exact ⟨k, hpages.booting.kheap, by rw [createKernelHeap_eq hpages.booting.kheap, heq], hlive⟩

theorem Booted.start (h : Booted s) : s.kernel.heap.startAddress = 0xC0081000 ∧
    s.kernel.heap.endAddress = 0xC0100000 ∧ s.kernel.heap.maxAddress = 0xCFFFF000 := by
  obtain ⟨b, n, k, -, -, -, heq⟩ := h.eq
  have hheap : s.kernel.heap = (Kernel.insertHole 0xC0081000 (unlistedHeap k)).heap := by rw [heq]
  rw [hheap, insertHole_heap]
  exact ⟨rfl, rfl, rfl⟩

theorem Booted.index (h : Booted s) :
    s.kernel.heap.index = ⟨kheapStart, 1, heapIndexSize⟩ := by
  obtain ⟨b, n, k, -, -, -, heq⟩ := h.eq
  have hheap : s.kernel.heap = (Kernel.insertHole 0xC0081000 (unlistedHeap k)).heap := by rw [heq]
  rw [hheap, insertHole_heap]
  rfl

theorem Booted.pageInv (h : Booted s) : ∃ f ≤ 12656, PageInv 0xC0100 f s.kernel := by
  obtain ⟨hstart, -, hmax⟩ := h.start
  obtain ⟨b, n, k, hpages, hn, hbound, heq⟩ := h.eq
  have hplace := hpages.booting.placement
  have hentry : ∀ m, s.kernel.entry m = k.entry m := fun m =>
    entry_congr (by rw [heq]; rfl) (by rw [heq]; rfl)
  have hframes : s.kernel.frames = k.frames := by rw [heq]; rfl
  refine ⟨n + 256, by omega, ?_⟩
  refine ⟨?_, hstart, hmax, ?_, hpages.booting.apart.congr (by rw [heq]; rfl), by decide, by decide,
    fun m hlo hhi => ?_, fun m hlo hhi => ?_, ⟨by omega, by omega⟩, fun g hg => ?_⟩
  · rw [heq]
    exact Nat.ne_of_gt (Nat.lt_of_lt_of_le (by decide) hplace.1)
  · rw [hframes]
    exact hpages.booting.nframes
  · have hframe := hpages.heap (m - 786432) (by omega)
    rw [show 786432 + (m - 786432) = m by omega] at hframe
    rw [hentry, hframe]
    refine ⟨_, rfl, rfl, ?_⟩
    -- frame 0 went to the first page of the identity map
    have hpos : n + (m - 786432) ≠ 0 := by omega
    exact hpos
  · rw [hentry, hpages.rest m (by omega) (by omega)]
    split
    · exact Or.inr rfl
    · exact Or.inl rfl
  · rw [hframes]
    exact hpages.used g hg

theorem Booted.pagesInv (h : Booted s) : PagesInv s.kernel := by
  obtain ⟨-, hend, -⟩ := h.start
  obtain ⟨f, -, hpages⟩ := h.pageInv
  refine ⟨by rw [hend], f, ?_⟩
  rw [hend]
  exact hpages

/-- Behind the table of the heap's first pages there is none. -/
theorem Booted.table_eq_zero (h : Booted s) {t : Nat} (ht : 768 < t) : s.kernel.table t = 0 := by
  obtain ⟨b, n, k, hpages, hn, -, heq⟩ := h.eq
  have htable : s.kernel.table t = k.table t := by rw [heq]; rfl
  rw [htable, hpages.table]
  unfold tablesFor
  omega

theorem Booted.heldHeap (h : Booted s) : HeldHeap s.live s.kernel := by
  refine ⟨_, h.fresh.inv, fun t ht => Or.inl ?_⟩
  obtain ⟨b, n, k, hpages, hn, hbound, heq⟩ := h.eq
  have htable : s.kernel.table t = k.table t := by rw [heq]; rfl
  rw [htable] at ht ⊢
  have hbelow := (hpages.booting.tables t ht).2
  omega

end Boot

/-! ### Page faults -/

section Faults

variable {k k' : Kernel} {cs : List Chunk} {bytes : List Nat} {head s a p : Nat}

theorem touch_eq_ok {u : Unit} :
    Kernel.touch bytes k = .ok u ↔ ∀ a ∈ bytes, Kernel.present a k = true := by
  unfold Kernel.touch
  split
  · rename_i hall
    simpa using hall
  · rename_i hall
    simpa using hall

/-- Right unify reads the header behind the chunk, whatever is there. -/
theorem mem_rightWords (f : Kernel.Freeing) :
    add32 f.foot sizeofFooter ∈ Kernel.rightWords f := by
  unfold Kernel.rightWords Kernel.word
  dsimp only
  split
  · split <;> simp
  · simp

theorem present_congr (hsame : SamePaging k k') : Kernel.present a k' = Kernel.present a k := by
  unfold Kernel.present Kernel.lookupPage
  rw [hsame.directory, hsame.pages]

theorem PagesInv.not_present (h : PagesInv k) : Kernel.present k.heap.endAddress k = false := by
  obtain ⟨-, f, hpages⟩ := h
  have hhi := hpages.hi
  unfold Kernel.present
  rcases hpages.bare _ (Nat.le_refl _) hhi with hnone | hzero
  · rw [decide_eq_false]
    exact fun hpresent => hpresent.1 (lookupPage_eq_zero_iff.mpr (entry_eq_none_iff.mp hnone))
  · have htable : k.table (k.heap.endAddress / 0x1000 / 1024) ≠ 0 := by
      intro hzero'
      rw [entry_eq_none_iff.mpr hzero'] at hzero
      simp at hzero
    rw [entry_of_table htable] at hzero
    rw [lookupPage_of_table htable, Option.some.inj hzero]
    simp [Page.zero]

/-- Where no access faults, `free` does what it does on memory without pages. It has read the header
behind the chunk then. -/
theorem pagedFree_eq (h : Kernel.pagedFree p k = .ok k') :
    Kernel.free p k = .ok k' ∧ (p ≠ 0 → ∃ f, f = Kernel.leftUnify (sub32 p sizeofHeader)
      (sub32 (add32 (sub32 p sizeofHeader) (headerSize k.mem (sub32 p sizeofHeader))) sizeofFooter)
        { k with mem := markHole (sub32 p sizeofHeader) k.mem } ∧
      Kernel.present (add32 f.foot sizeofFooter) k = true) := by
  unfold Kernel.pagedFree at h
  unfold Kernel.free
  by_cases hp : p = 0
  · rw [if_pos hp] at h ⊢
    exact ⟨h, fun hne => absurd hp hne⟩
  · rw [if_neg hp] at h ⊢
    simp only [bind_eq_ok] at h
    obtain ⟨-, -, u1, hhead, -, -, u2, hfoot, -, -, -, -, u3, hright, f, hunify, f', hcontract, u4,
      -, hk'⟩ := h
    refine ⟨?_, fun _ => ⟨_, rfl, ?_⟩⟩
    · dsimp only
      rw [hhead, ok_bind, hfoot, ok_bind, hunify, ok_bind, hcontract, ok_bind]
      exact hk'
    · have hpresent := touch_eq_ok.mp hright _ (List.mem_append_left _ (mem_rightWords _))
      rwa [present_congr (samePaging_mem k _)] at hpresent

theorem pagedStep_eq {c : Call} {s s' : HeapRun} (h : c.pagedStep s = .ok s') :
    c.step s = .ok s' := by
  cases c with
  | alloc fuel size pageAlign => exact h
  | free p =>
      simp only [Call.pagedStep, bind_eq_ok] at h
      obtain ⟨k, hfree, hs'⟩ := h
      rw [Call.step, (pagedFree_eq hfree).1, ok_bind]
      exact hs'
  | store a v => exact h

/-- **In a well-formed heap nothing is contracted**: of the last block the header behind it faults,
and merging a hole from the right leaves the footer inside the heap. -/
theorem PagesInv.not_contracts (h : PagesInv k) (hwf : WellFormed k cs)
    (hmem : (head, s) ∈ blocks k.heap.startAddress cs) (hok : FreeOk head k)
    (hpaged : Kernel.pagedFree (head + 12) k = .ok k') : ¬ Contracts head k := by
  obtain ⟨left, rest, rfl, rfl⟩ := mem_blocks_iff.mp hmem
  obtain ⟨left', lh, k1, hleft⟩ := leftUnify_spec hwf hok
  have hlt := hwf.end_lt
  have hle := hwf.chunk_end_le
  have hmin := hwf.chunkAt.minSize
  have hsize : headerSize k.mem (k.heap.startAddress + total Chunk.size left) = s :=
    hwf.chunkAt.header.size
  simp only at hle hmin
  obtain ⟨head, hhead⟩ : ∃ head, head = k.heap.startAddress + total Chunk.size left := ⟨_, rfl⟩
  have hcall := hleft.call
  rw [← hhead] at hsize hle hpaged hcall ⊢
  have hfoot : sub32 (add32 head (headerSize k.mem head)) sizeofFooter = head + s - 8 := by
    unfold sizeofFooter
    rw [hsize, add32_eq (by omega), sub32_eq (by omega) (by omega)]
  have hmerged : merged head k = Kernel.rightUnify
      ⟨k.heap.startAddress + total Chunk.size left', head + s - 8, head - 8, decide (lh = []),
        k1⟩ := by
    unfold merged
    dsimp only
    rw [hfoot, show write8 k.mem (head + 4) 1 = markHole head k.mem from rfl, hcall]
  cases rest with
  | nil =>
      have htiles := hwf.tiles
      simp only [total_append, total_cons, total_nil] at htiles
      have hp : sub32 (head + 12) sizeofHeader = head := by
        unfold sizeofHeader
        rw [sub32_eq (by omega) (by omega), Nat.add_sub_cancel]
      obtain ⟨f, hf, hpresent⟩ := (pagedFree_eq hpaged).2 (by omega)
      rw [hp, hfoot, hcall] at hf
      have hnext : add32 f.foot sizeofFooter = k.heap.endAddress := by
        unfold sizeofFooter
        rw [hf, add32_eq (by simp only; omega)]
        simp only
        omega
      rw [hnext, h.not_present] at hpresent
      simp at hpresent
  | cons c right =>
      obtain ⟨r, hole⟩ := c
      cases hole with
      | true =>
          obtain ⟨k2, hright, -, hend⟩ := rightUnify_unifies (head - 8) (decide (lh = []))
            (hleft.split ▸ hwf) hleft.merging rfl hleft.endAddr
          have hinside := foot_hole_ne hwf
          rw [hleft.next, ← hhead] at hright
          rw [← hhead, ← hend] at hinside
          exact mt (contracts_iff (hmerged.trans hright)).mp hinside
      | false =>
          obtain ⟨-, hright⟩ := hleft.alone_right hwf hok (by simp)
          have hinside := foot_inUse_ne hwf
          rw [hleft.next, ← hhead] at hright
          rw [← hhead, ← hleft.endAddr] at hinside
          exact mt (contracts_iff (hmerged.trans (hright _ _))).mp hinside

end Faults

/-! ### Runs -/

section Run

variable {s s' : HeapRun} {c : Call} {G : Guards} {inv : Kernel → Prop}

theorem sub32_header {p : Nat} (hp : 0 < p - 12) (hlt : p < 4294967296) :
    sub32 p sizeofHeader = p - 12 := sub32_eq (by unfold sizeofHeader; omega) hlt

/-- Every pointer that a caller holds is a 32-bit word. -/
def HeapRun.Words (s : HeapRun) : Prop := ∀ u ∈ s.live, u.1 < 4294967296

theorem carveBlock_fst_lt (it size newSize pageAlign : Nat) (k : Kernel) :
    (Kernel.carveBlock it size newSize pageAlign k).1 < 4294967296 := by
  unfold Kernel.carveBlock Kernel.writeBlock
  dsimp only
  split <;> exact add32_lt _ _

theorem alloc_lt {fuel size pageAlign p : Nat} {k k' : Kernel}
    (h : Kernel.alloc fuel size pageAlign k = .ok (p, k')) : p < 4294967296 := by
  induction fuel generalizing k with
  | zero => simp [Kernel.alloc] at h
  | succ fuel ih =>
      rw [Kernel.alloc] at h
      dsimp only at h
      split at h
      · rename_i it _
        have hp := congrArg Prod.fst (Except.ok.inj h)
        rw [← show (Kernel.carveBlock it size (add32 size
            (sizeofHeader + sizeofFooter)) pageAlign k).1 = p
          from hp]
        exact carveBlock_fst_lt _ _ _ _ _
      · simp only [bind_eq_ok] at h
        obtain ⟨k1, -, hretry⟩ := h
        exact ih hretry

theorem HeapRun.Words.step (h : s.Words) (hstep : c.step s = .ok s') : s'.Words := by
  cases c with
  | alloc fuel size pageAlign =>
      simp only [Call.step, bind_eq_ok, Except.ok.injEq] at hstep
      obtain ⟨⟨p, k⟩, halloc, rfl⟩ := hstep
      intro u hu
      rcases List.mem_cons.mp hu with rfl | hu
      · exact alloc_lt halloc
      · exact h u hu
  | free p =>
      simp only [Call.step, bind_eq_ok, Except.ok.injEq] at hstep
      obtain ⟨k, -, rfl⟩ := hstep
      exact fun u hu => h u (List.mem_filter.mp hu).1
  | store a v =>
      obtain rfl := Except.ok.inj hstep
      exact h

/-- **One call** with one page table. -/
theorem PagesInv.step (h : PagesInv s.kernel) (hwords : s.Words)
    (hgood : c.Good oneTableGuards s) (hstep : c.step s = .ok s') : PagesInv s'.kernel := by
  obtain ⟨hlegal, hok⟩ := hgood
  cases c with
  | alloc fuel size pageAlign =>
      simp only [Call.step, bind_eq_ok, Except.ok.injEq] at hstep
      obtain ⟨⟨p, k⟩, halloc, rfl⟩ := hstep
      exact (keptPages_oneTable.alloc trivial h hlegal hok halloc).1
  | free p =>
      simp only [Call.step, bind_eq_ok, Except.ok.injEq] at hstep
      obtain ⟨k, hfree, rfl⟩ := hstep
      obtain ⟨hpos, hstay⟩ := hok
      obtain ⟨u, hu, rfl⟩ := hlegal
      rw [← sub32_header hpos (hwords u hu)] at hstay
      exact h.congr (free_samePaging hfree hstay)
  | store a v =>
      obtain rfl := Except.ok.inj hstep
      exact h.congr (samePaging_mem s.kernel _)

/-- A free within the guards of the heap that no fault stops does not contract. -/
theorem HeldHeap.stays {p : Nat} (hpages : PagesInv s.kernel) (hheld : HeldHeap s.live s.kernel)
    (hgood : (Call.free p).Good pagingGuards s) (hstep : (Call.free p).pagedStep s = .ok s') :
    ¬ Contracts (p - 12) s.kernel := by
  obtain ⟨cs, hinv, -⟩ := hheld
  obtain ⟨hlegal, hok⟩ := hgood
  obtain ⟨head, b, rfl, hmem⟩ := hinv.block_of_live hlegal
  simp only [Call.pagedStep, bind_eq_ok] at hstep
  obtain ⟨k, hfree, -⟩ := hstep
  change FreeOk (head + 12 - 12) s.kernel at hok
  rw [Nat.add_sub_cancel] at hok ⊢
  exact hpages.not_contracts hinv.wellFormed hmem hok hfree

/-- **One call** within the guards of the heap, with the page tables that it makes. -/
theorem HeldHeap.step (hpages : PagesInv s.kernel) (hheld : HeldHeap s.live s.kernel)
    (hgood : c.Good pagingGuards s) (hpaged : c.pagedStep s = .ok s') :
    PagesInv s'.kernel ∧ HeldHeap s'.live s'.kernel := by
  have hstep := pagedStep_eq hpaged
  have hstart : 0xC0000000 ≤ s.kernel.heap.startAddress := by
    obtain ⟨-, f, hinvp⟩ := hpages
    rw [hinvp.start]
    decide
  cases c with
  | alloc fuel size pageAlign =>
      obtain ⟨hlegal, hok⟩ := hgood
      simp only [Call.step, bind_eq_ok, Except.ok.injEq] at hstep
      obtain ⟨⟨p, k⟩, halloc, rfl⟩ := hstep
      obtain ⟨hpages', k1, it, ⟨⟨cs, hinv, htables⟩, hstart1⟩, hfind, hcarve, hres⟩ :=
        (keptPages_held s.live).alloc ⟨hheld, hstart⟩ hpages hlegal hok halloc
      refine ⟨hpages', ?_⟩
      have hdir := (samePaging_carveBlock it size (size + 20) pageAlign k1).directory
      obtain ⟨cs', head, b, hserves, haddr, hb⟩ := carveBlock_serves hinv.wellFormed hfind hcarve
      rw [← hres] at hserves haddr hdir
      obtain rfl := haddr
      refine ⟨cs', hinv.serve hserves hb, fun t ht => ?_⟩
      have htable : k.table t = k1.table t := by
        unfold Kernel.table
        rw [hdir]
      rcases htables.keep hserves hdir t ht with hlow | ⟨x, c, hx, hc, hmem, hlive⟩
      · exact Or.inl hlow
      · refine Or.inr ⟨x, c, hx, hc, hmem, fun u hu => ?_⟩
        rcases List.mem_cons.mp hu with rfl | hu
        · -- the block is new, and the table's is not
          rw [htable] at hx ht ⊢
          rcases htables t ht with hlow | ⟨y, d, hy, -, hmem', -⟩
          · have hin := hserves.wellFormed.block_bounds (by
              rw [hserves.start]
              exact hserves.blocks.mem_iff.mpr (List.mem_cons_self))
            have hlo : k1.heap.startAddress ≤ head := hserves.start ▸ hin.1
            simp only
            omega
          · have hne := hserves.new_ne hmem'
            simp only
            omega
        · exact hlive u hu
  | free p =>
      have hstay := hheld.stays hpages hgood hpaged
      obtain ⟨hlegal, hfreeOk⟩ := hgood
      obtain ⟨cs, hinv, htables⟩ := hheld
      obtain ⟨head, b, rfl, hmem⟩ := hinv.block_of_live hlegal
      obtain ⟨k, cs', hfree, hfrees⟩ := hinv.free_returns hmem hfreeOk
      simp only [Call.step, hfree, ok_bind, Except.ok.injEq] at hstep
      subst hstep
      have hlo : s.kernel.heap.startAddress ≤ head := (hinv.wellFormed.block_bounds hmem).1
      have hhi : head + b ≤ s.kernel.heap.endAddress := (hinv.wellFormed.block_bounds hmem).2
      have hlt : s.kernel.heap.endAddress < 4294967296 := hinv.wellFormed.end_lt
      have hmin : 20 ≤ b := by
        obtain ⟨left, right, rfl, -⟩ := mem_blocks_iff.mp hmem
        exact hinv.wellFormed.minSize ⟨b, false⟩ (by simp)
      rw [← sub32_header (by omega) (by omega)] at hstay
      have hsame := free_samePaging hfree hstay
      refine ⟨hpages.congr hsame, cs', hinv.release hfrees, fun t ht => ?_⟩
      have htable : k.table t = s.kernel.table t := by
        unfold Kernel.table
        rw [hsame.directory]
      simp only [htable] at ht ⊢
      rcases htables t ht with hlow | ⟨x, c, hx, hc, hmem', hlive⟩
      · exact Or.inl hlow
      · refine Or.inr ⟨x, c, hx, hc, ?_, fun u hu => hlive u (List.mem_filter.mp hu).1⟩
        rw [hsame.start]
        rcases List.mem_cons.mp (hfrees.blocks.mem_iff.mp hmem') with heq | hmem'
        · -- the freed block is a caller's, and no caller holds a table
          obtain ⟨u, hu, hup⟩ := hlegal
          have hxhead := (Prod.mk.inj heq).1
          have hsamePtr : u.1 = s.kernel.table t := by omega
          exact absurd hsamePtr (hlive u hu)
        · exact hmem'
  | store a v =>
      obtain rfl := Except.ok.inj hstep
      obtain ⟨cs, hinv, htables⟩ := hheld
      exact ⟨hpages.congr (samePaging_mem s.kernel _), cs, hinv.store hgood.1, htables⟩

end Run

theorem WellFormed.exists_find {k : Kernel} {left right : List Chunk} {t size : Nat}
    (h : WellFormed k (left ++ ⟨t, true⟩ :: right)) (hfits : size ≤ t) :
    ∃ it, Kernel.findSmallestHole size 0 k = some it := by
  cases hfind : Kernel.findSmallestHole size 0 k with
  | some it => exact ⟨it, rfl⟩
  | none =>
      have hmem : k.heap.startAddress + total Chunk.size left ∈ k.heap.index.entries k.mem :=
        h.index.mem_iff.mpr (mem_holes_iff.mpr ⟨left, t, right, rfl, rfl⟩)
      obtain ⟨j, hj, hjaddr⟩ := List.mem_map.mp hmem
      have hnot := findSmallestHole_none hfind j (List.mem_range.mp hj)
      have hsize := h.chunkAt.header.size
      rw [holeFits_plain, show k.heap.index.lookup j k.mem = _ from hjaddr, hsize] at hnot
      exact absurd (decide_eq_true hfits) hnot

/-- A kernel before `init_paging`, its image ending at the first megabyte. -/
def imageKernel : Kernel := { bareKernel with placementAddr := 0x100000 }

/-- A run that is computed on the heap that `init_paging` leaves there. -/
theorem exists_imageRun (guard : Call → HeapRun → Prop) [∀ c s, Decidable (guard c s)]
    (calls : List Call) (P : HeapRun → Bool)
    (h : (Kernel.initPaging 600 imageKernel).toOption.any (fun k =>
      (Run.runAll Call.pagedStep guard calls ⟨k, []⟩).any P) = true) :
    ∃ s s', Booted s ∧ Run.Reaches Call.pagedStep guard s s' ∧ P s' = true := by
  obtain ⟨k, hinit, hcheck⟩ := (Option.any_eq_true _ _).mp h
  rw [Run.toOption_eq_some] at hinit
  obtain ⟨s', hrun, hP⟩ := Run.exists_reaches_of_runAll hcheck
  exact ⟨⟨k, []⟩, s', ⟨imageKernel, 600, rfl, rfl, by decide, by decide, hinit, rfl⟩, hrun, hP⟩

/-- Two blocks that fill the heap, a third for which it is expanded, a store into the first and its
return. -/
def expandingCalls : List Call :=
  [.alloc 1 8 0, .alloc 1 (0x7F000 - 28 - 20) 0, .alloc 2 8 0, .store 0xC008100C 255,
    .free 0xC008100C]

end Vulcanos
