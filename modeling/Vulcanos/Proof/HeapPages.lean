import Vulcanos.Proof.InitPaging

/-!
# The pages of the heap

The page loop of `expand` gives a frame to each page it comes to, with a page table made on the way
where there is none. What the heap has to provide is only that such a table overlaps no other one:
`KeptPages` says so of an invariant of the heap, and the induction over the nested calls of `alloc`
is done for all of them.
-/

namespace Vulcanos

open Memory Word Layout

/-! ### Steps that do not touch the pages -/

/-- `k'` has the pages, the frames and the bounds of the heap that `k` has. -/
structure SamePaging (k k' : Kernel) : Prop where
  kheap : k'.kheap = k.kheap
  directory : k'.directory = k.directory
  pages : k'.pages = k.pages
  frames : k'.frames = k.frames
  start : k'.heap.startAddress = k.heap.startAddress
  endAddr : k'.heap.endAddress = k.heap.endAddress
  max : k'.heap.maxAddress = k.heap.maxAddress

section SamePaging

variable {k k' k'' : Kernel} {p : Nat} {m : Mem}

theorem SamePaging.refl (k : Kernel) : SamePaging k k := ⟨rfl, rfl, rfl, rfl, rfl, rfl, rfl⟩

theorem SamePaging.trans (h : SamePaging k k') (h' : SamePaging k' k'') : SamePaging k k'' :=
  ⟨h'.kheap.trans h.kheap, h'.directory.trans h.directory, h'.pages.trans h.pages,
    h'.frames.trans h.frames, h'.start.trans h.start, h'.endAddr.trans h.endAddr,
    h'.max.trans h.max⟩

theorem samePaging_mem (k : Kernel) (m : Mem) : SamePaging k { k with mem := m } :=
  ⟨rfl, rfl, rfl, rfl, rfl, rfl, rfl⟩

theorem samePaging_insertHole (head : Nat) (k : Kernel) : SamePaging k (Kernel.insertHole head k) :=
  ⟨rfl, rfl, rfl, rfl, rfl, rfl, rfl⟩

theorem samePaging_removeHole (it : Nat) (k : Kernel) : SamePaging k (Kernel.removeHole it k) :=
  ⟨rfl, rfl, rfl, rfl, rfl, rfl, rfl⟩

theorem samePaging_writeBlock (size newSize p s : Nat) (k : Kernel) :
    SamePaging k (Kernel.writeBlock size newSize p s k).2 := by
  unfold Kernel.writeBlock
  dsimp only
  split
  · exact (samePaging_mem k _).trans (samePaging_insertHole _ _)
  · exact samePaging_mem k _

theorem samePaging_carveBlock (it size newSize pageAlign : Nat) (k : Kernel) :
    SamePaging k (Kernel.carveBlock it size newSize pageAlign k).2 := by
  unfold Kernel.carveBlock
  dsimp only
  split
  · exact (samePaging_mem k _).trans (samePaging_writeBlock _ _ _ _ _)
  · exact (samePaging_removeHole it k).trans (samePaging_writeBlock _ _ _ _ _)

theorem samePaging_growHoles (oldLen oldEnd : Nat) (k : Kernel) :
    SamePaging k (Kernel.growHoles oldLen oldEnd k) := by
  unfold Kernel.growHoles
  dsimp only
  split
  · exact (samePaging_mem k _).trans (samePaging_insertHole _ _)
  · exact samePaging_mem k _

theorem samePaging_leftUnify (head foot : Nat) (k : Kernel) :
    SamePaging k (Kernel.leftUnify head foot k).kernel := by
  unfold Kernel.leftUnify
  dsimp only
  split
  · exact samePaging_mem k _
  · exact SamePaging.refl k

theorem samePaging_rightUnify {f f' : Kernel.Freeing} (h : Kernel.rightUnify f = .ok f') :
    SamePaging f.kernel f'.kernel := by
  unfold Kernel.rightUnify at h
  dsimp only at h
  split at h
  · simp only [bind_eq_ok, assertThat_eq_ok, Except.ok.injEq] at h
    obtain ⟨-, -, rfl⟩ := h
    exact (samePaging_mem f.kernel _).trans (samePaging_removeHole _ _)
  · obtain rfl := Except.ok.inj h
    exact SamePaging.refl f.kernel

/-- What `free` works with when it has merged the block at `head` with its neighbours. -/
def merged (head : Nat) (k : Kernel) : Except Stop Kernel.Freeing :=
  let foot := sub32 (add32 head (headerSize k.mem head)) sizeofFooter
  Kernel.rightUnify (Kernel.leftUnify head foot { k with mem := write8 k.mem (head + 4) 1 })

/-- The footer that `free` has come to is the last one of the heap, so that it contracts. -/
def Contracts (head : Nat) (k : Kernel) : Prop :=
  (merged head k).toOption.any
    (fun f => decide (add32 f.foot sizeofFooter = f.kernel.heap.endAddress)) = true

instance (head : Nat) (k : Kernel) : Decidable (Contracts head k) := by
  unfold Contracts
  infer_instance

theorem contracts_iff {head : Nat} {f : Kernel.Freeing} (h : merged head k = .ok f) :
    Contracts head k ↔ add32 f.foot sizeofFooter = f.kernel.heap.endAddress := by
  unfold Contracts
  rw [h]
  exact decide_eq_true_iff

theorem samePaging_merged {head : Nat} {f : Kernel.Freeing} (h : merged head k = .ok f) :
    SamePaging k f.kernel := by
  have hmark := samePaging_mem k (write8 k.mem (head + 4) 1)
  have hleft := samePaging_leftUnify head (sub32 (add32 head (headerSize k.mem head)) sizeofFooter)
    { k with mem := write8 k.mem (head + 4) 1 }
  exact (hmark.trans hleft).trans (samePaging_rightUnify h)

/-- **Freeing without a contraction** changes no page. -/
theorem free_samePaging (h : Kernel.free p k = .ok k')
    (hstay : ¬ Contracts (sub32 p sizeofHeader) k) : SamePaging k k' := by
  unfold Kernel.free at h
  split at h
  · obtain rfl := Except.ok.inj h
    exact SamePaging.refl k
  · simp only [bind_eq_ok, Except.ok.injEq] at h
    obtain ⟨-, -, -, -, f, hright, f', hcontract, rfl⟩ := h
    have hmerged : merged (sub32 p sizeofHeader) k = .ok f := hright
    have hfoot : add32 f.foot sizeofFooter ≠ f.kernel.heap.endAddress :=
      mt (contracts_iff hmerged).mpr hstay
    have hsame := samePaging_merged hmerged
    unfold Kernel.contractHeap at hcontract
    dsimp only at hcontract
    rw [if_neg hfoot] at hcontract
    obtain rfl := Except.ok.inj hcontract
    split
    · exact hsame.trans (samePaging_insertHole _ _)
    · exact hsame

end SamePaging

/-! ### The invariant of the pages -/

/-- The heap's pages below the `e`-th have frames, those from there on do not, and the frames below
`f` are used. -/
structure PageInv (e f : Nat) (k : Kernel) : Prop where
  kheap : k.kheap ≠ 0
  start : k.heap.startAddress = 0xC0081000
  max : k.heap.maxAddress = 0xCFFFF000
  nframes : k.frames.nframes = 65536
  apart : TablesApart k
  lo : 0xC0100 ≤ e
  hi : e ≤ 0xCFFFF
  backed : ∀ m, 0xC0000 ≤ m → m < e → ∃ page, k.entry m = some page ∧ page.pr = 1 ∧ page.fr ≠ 0
  bare : ∀ m, e ≤ m → m ≤ 0xCFFFF → k.entry m = none ∨ k.entry m = some Page.zero
  first : 0 < f ∧ f ≤ 16384
  used : ∀ g < 16384, k.frames.used g = decide (g < f)

section PageInv

variable {k k' : Kernel} {e f m : Nat}

theorem PageInv.congr (h : PageInv e f k) (hsame : SamePaging k k') : PageInv e f k' where
  kheap := by rw [hsame.kheap]; exact h.kheap
  start := hsame.start.trans h.start
  max := hsame.max.trans h.max
  nframes := by rw [hsame.frames]; exact h.nframes
  apart := h.apart.congr hsame.directory
  lo := h.lo
  hi := h.hi
  backed := fun m hlo hhi => by
    rw [entry_congr hsame.directory hsame.pages]
    exact h.backed m hlo hhi
  bare := fun m hlo hhi => by
    rw [entry_congr hsame.directory hsame.pages]
    exact h.bare m hlo hhi
  first := h.first
  used := by rw [hsame.frames]; exact h.used

theorem PageInv.table_ne_zero (h : PageInv e f k) : k.table 768 ≠ 0 := by
  obtain ⟨page, hpage, -⟩ := h.backed 786432 (Nat.le_refl _) (Nat.lt_of_lt_of_le (by decide) h.lo)
  intro hzero
  rw [entry_eq_none_iff.mpr hzero] at hpage
  simp at hpage

theorem PageInv.firstFrame (h : PageInv e f k) (hlt : k.frames.firstFrame < 16384) :
    k.frames.firstFrame = f := by
  have hfirst := Frames.firstFrame_spec k.frames
  rw [h.nframes] at hfirst
  by_cases hf : f < 16384
  · exact firstFrame_of_prefix h.nframes (by omega) fun g hg => h.used g (by omega)
  · have hclear := hfirst.clear (show k.frames.firstFrame < 65536 by omega)
    have hused := h.used _ hlt
    rw [decide_eq_true (by omega)] at hused
    exact absurd (hused.symm.trans hclear) (by decide)

/-- **A table for the next page**: the pages are as they were. -/
theorem PageInv.installTable {tab tmp : Nat} (h : PageInv e f k) (hnone : k.table (e / 1024) = 0)
    (hfits : TableFits tab k) :
    PageInv e f (Kernel.installTable (e / 1024) tab tmp k) where
  kheap := h.kheap
  start := h.start
  max := h.max
  nframes := h.nframes
  apart := hfits.apart h.apart
  lo := h.lo
  hi := h.hi
  backed := fun m hlo hhi => by
    obtain ⟨page, hpage, hheld⟩ := h.backed m hlo hhi
    have hne : m / 1024 ≠ e / 1024 := by
      intro heq
      rw [entry_eq_none_iff.mpr (by rw [heq]; exact hnone)] at hpage
      simp at hpage
    rw [hfits.entry, if_neg hne]
    exact ⟨page, hpage, hheld⟩
  bare := fun m hlo hhi => by
    rw [hfits.entry]
    split
    · exact Or.inr rfl
    · exact h.bare m hlo hhi
  first := h.first
  used := h.used

/-- **A frame for the next page.** -/
theorem PageInv.allocFrame {isSuper isWrite : Nat} (h : PageInv e f k) (hlt : e < 0xCFFFF)
    (hf : f < 16384) (htable : k.table (e / 1024) ≠ 0)
    (halloc : Kernel.allocFrameAt (k.entryAddr e) isSuper isWrite k = .ok k') :
    PageInv (e + 1) (f + 1) k' := by
  have hbare : k.pages (k.entryAddr e) = Page.zero := by
    rcases h.bare e (Nat.le_refl e) (Nat.le_of_lt hlt) with hnone | hzero
    · exact absurd (entry_eq_none_iff.mp hnone) htable
    · rw [entry_of_table htable] at hzero
      exact Option.some.inj hzero
  have hfirst : k.frames.firstFrame = f :=
    firstFrame_of_prefix h.nframes (by omega) fun g hg => h.used g (by omega)
  rw [allocFrameAt_of_fr_eq_zero _ _ _ (by rw [hbare]; rfl) (by rw [hfirst]; omega), hfirst, hbare]
    at halloc
  have hk' := (Except.ok.inj halloc).symm
  have hentry := @TablesApart.entry_update k k' _ _ h.apart htable (by rw [hk']) (by rw [hk'])
  refine ⟨?_, ?_, ?_, ?_, h.apart.congr (by rw [hk']), ?_, hlt, fun m hlo hhi => ?_,
    fun m hlo hhi => ?_, ⟨Nat.succ_pos f, hf⟩, fun g hg => ?_⟩
  · rw [hk']
    exact h.kheap
  · rw [hk']
    exact h.start
  · rw [hk']
    exact h.max
  · rw [hk']
    exact h.nframes
  · exact h.lo.trans (Nat.le_succ e)
  · rw [hentry]
    by_cases hme : m = e
    · rw [if_pos hme]
      exact ⟨_, rfl, rfl, Nat.ne_of_gt h.first.1⟩
    · rw [if_neg hme]
      exact h.backed m hlo (by omega)
  · rw [hentry, if_neg (by omega)]
    exact h.bare m (by omega) hhi
  · rw [hk']
    simp only
    rw [Frames.used_setFrame, Frames.frame_mul, h.used g hg, ← Bool.decide_or, decide_eq_decide]
    omega

/-- The pages of the heap at rest. -/
def PagesInv (k : Kernel) : Prop :=
  k.heap.endAddress % 0x1000 = 0 ∧ ∃ f, PageInv (k.heap.endAddress / 0x1000) f k

theorem PagesInv.congr (h : PagesInv k) (hsame : SamePaging k k') : PagesInv k' := by
  obtain ⟨halign, f, hpages⟩ := h
  unfold PagesInv
  rw [hsame.endAddr]
  exact ⟨halign, f, hpages.congr hsame⟩

end PageInv

/-! ### Contractions -/

section Contract

variable {k k' : Kernel} {f : Kernel.Freeing} {p m n it newSize : Nat}

theorem contractSize_ge (x : Nat) : heapMinSize ≤ Kernel.contractSize x := by
  unfold Kernel.contractSize
  generalize (if x &&& 0x1000 ≠ 0 then add32 (x &&& 0x1000) 0x1000 else x) = y
  by_cases hy : y < heapMinSize
  · rw [if_pos hy]
  · rw [if_neg hy]
    exact Nat.le_of_not_lt hy

theorem contractSize_lt {x old : Nat} (hx : x < old) (hold : heapMinSize < old) :
    Kernel.contractSize x < old := by
  unfold Kernel.contractSize
  unfold heapMinSize at hold ⊢
  rcases and_pageBit x with hbit | hbit
  · simp only [hbit, ne_eq, not_true_eq_false, if_false]
    split <;> omega
  · simp only [hbit]
    exact hold

theorem contractSize_le {x old : Nat} (hx : x < old) (hold : heapMinSize ≤ old) :
    Kernel.contractSize x ≤ old := by
  rcases Nat.lt_or_eq_of_le hold with hlt | rfl
  · exact Nat.le_of_lt (contractSize_lt hx hlt)
  · exact Nat.le_of_eq (contractSize_eq hx)

/-- What `contract` leaves of the pages, and what `free` does behind it. -/
theorem contractHeap_paging {f' : Kernel.Freeing} {testHead : Nat}
    (h : Kernel.contractHeap testHead f = .ok f')
    (hfoot : add32 f.foot sizeofFooter = f.kernel.heap.endAddress) :
    ∃ newLen k2, Kernel.contract (sub32 f.head f.kernel.heap.startAddress) f.kernel =
      .ok (newLen, k2) ∧ SamePaging k2 f'.kernel := by
  unfold Kernel.contractHeap at h
  dsimp only at h
  rw [if_pos hfoot] at h
  simp only [bind_eq_ok] at h
  obtain ⟨⟨newLen, k2⟩, hcontract, hrest⟩ := h
  refine ⟨newLen, k2, hcontract, ?_⟩
  dsimp only at hrest
  split at hrest
  · obtain rfl := Except.ok.inj hrest
    exact samePaging_mem k2 _
  · obtain rfl := Except.ok.inj hrest
    dsimp only
    split
    · exact samePaging_removeHole _ k2
    · exact SamePaging.refl k2

end Contract

/-! ### The rule for `alloc` -/

/-- What an invariant of the heap has to keep for the pages to be kept: frames do not matter to it,
carving and growing, within the guards, preserve it, and a page table that an expansion makes is
apart from the others. -/
structure KeptPages (G : Guards) (inv : Kernel → Prop) : Prop where
  congr : ∀ k k', inv k → k'.mem = k.mem → k'.heap = k.heap → k'.directory = k.directory → inv k'
  carve : ∀ k size pageAlign it, inv k → size + 20 < 4294967296 →
    Kernel.findSmallestHole (size + 20) pageAlign k = some it → G.carve size pageAlign it k →
      inv (Kernel.carveBlock it size (size + 20) pageAlign k).2
  grow : ∀ k newEnd, inv k → k.heap.endAddress + 20 ≤ newEnd → newEnd < 4294967296 →
    G.grow k.heap.endAddress (withEnd newEnd k) →
      inv (Kernel.growHoles (sub32 k.heap.endAddress k.heap.startAddress) k.heap.endAddress
        (withEnd newEnd k))
  enough : ∀ k size, G.expand size k → k.frames.firstFrame +
    (expandedSize size k - sub32 k.heap.endAddress k.heap.startAddress) / 0x1000 ≤ 16384
  table : ∀ k0 size k m it tmp, G.expand size k0 → k0.heap.startAddress = 0xC0081000 →
    786432 ≤ m → 0x1000 * m < k0.heap.startAddress + expandedSize size k0 → k.table 768 ≠ 0 →
    k.table (m / 1024) = 0 → inv k → Kernel.findSmallestHole (0x1000 + 20) 1 k = some it →
    G.carve 0x1000 1 it k →
      TableFits (Kernel.carveBlock it 0x1000 (0x1000 + 20) 1 k).1 k ∧
        inv (Kernel.installTable (m / 1024) (Kernel.carveBlock it 0x1000 (0x1000 + 20) 1 k).1 tmp
          (Kernel.carveBlock it 0x1000 (0x1000 + 20) 1 k).2)

section Rule

theorem nextPage_mod {x : Nat} (hge : 4096 ≤ x) (hlt : x < 4294967296) :
    Kernel.nextPage x % 4096 = 0 := by
  have hne : x &&& 0xFFFFF000 ≠ 0 := fun hzero => by
    rw [and_highMask_eq_zero_iff hlt] at hzero
    omega
  unfold Kernel.nextPage
  rw [if_pos hne, and_highMask hlt]
  unfold add32
  omega

variable {G : Guards} {inv : Kernel → Prop} {k k0 k' : Kernel}
  {fuel size pageAlign n it p e e' f page : Nat}

theorem KeptPages.getPage (hkept : KeptPages G inv) (hinv : inv k) (hpages : PageInv e f k)
    (hexpand : G.expand size k0) (hstart : k0.heap.startAddress = 0xC0081000)
    (hbelow : 0x1000 * e < k0.heap.startAddress + expandedSize size k0)
    (hok : k.table (e / 1024) = 0 → ServedAtOnce G 0x1000 1 k)
    (hget : Kernel.getPage (Kernel.alloc fuel) (0x1000 * e) 1 k = .ok (page, k')) :
    inv k' ∧ PageInv e f k' ∧ page = k'.entryAddr e ∧ k'.table (e / 1024) ≠ 0 ∧
      k'.heap.startAddress = k.heap.startAddress ∧ k'.heap.endAddress = k.heap.endAddress := by
  have hpage : 0x1000 * e / 0x1000 = e := by omega
  by_cases htable : k.table (e / 1024) = 0
  · obtain ⟨it, hfind, hcarve⟩ := hok htable
    rw [getPage_of_no_table (by rw [hpage]; exact htable), hpage] at hget
    unfold Kernel.kmallocAp Kernel.kmallocInt at hget
    rw [if_pos hpages.kheap] at hget
    cases fuel with
    | zero => simp [Kernel.alloc, bind, Except.bind] at hget
    | succ fuel =>
        rw [show 1 % 256 = 1 from rfl, alloc_of_find fuel (by decide) hfind] at hget
        simp only [ok_bind, Except.ok.injEq, Prod.mk.injEq] at hget
        obtain ⟨rfl, rfl⟩ := hget
        have hsame := samePaging_carveBlock it 0x1000 (0x1000 + 20) 1 k
        obtain ⟨k1, hk1⟩ : ∃ k1, k1 = (Kernel.carveBlock it 0x1000 (0x1000 + 20) 1 k).2 := ⟨_, rfl⟩
        obtain ⟨hfits, hinv'⟩ := hkept.table k0 size k e it _ hexpand hstart
          (Nat.le_trans (by decide) hpages.lo) hbelow hpages.table_ne_zero htable hinv hfind hcarve
        rw [← hk1] at hsame hinv' ⊢
        have hfits1 : TableFits (Kernel.carveBlock it 0x1000 (0x1000 + 20) 1 k).1 k1 := by
          refine ⟨hfits.1, fun t ht => ?_⟩
          unfold Kernel.table at ht ⊢
          rw [hsame.directory] at ht ⊢
          exact hfits.2 t ht
        have hnone : k1.table (e / 1024) = 0 := by
          unfold Kernel.table
          rw [hsame.directory]
          exact htable
        refine ⟨hinv', (hpages.congr hsame).installTable hnone hfits1, ?_, ?_, hsame.start,
            hsame.endAddr⟩
        · unfold Kernel.entryAddr
          rw [table_installTable, if_pos rfl]
        · rw [table_installTable, if_pos rfl]
          exact Nat.ne_of_gt hfits.1
  · rw [getPage_of_table 1 (by rw [hpage]; exact htable), hpage] at hget
    obtain ⟨rfl, rfl⟩ := Prod.mk.inj (Except.ok.inj hget)
    exact ⟨hinv, hpages, rfl, htable, rfl, rfl⟩

/-- **The page loop of `expand`**: by induction on the iterations left, the pages up to the new end
have frames. -/
theorem KeptPages.expandLoop (hkept : KeptPages G inv) (hinv : inv k) (hpages : PageInv e f k)
    (hexpand : G.expand size k0) (hstart : k0.heap.startAddress = 0xC0081000)
    (htop : k0.heap.startAddress + expandedSize size k0 = 0x1000 * e') (hle : e ≤ e')
    (hhi : e' ≤ 0xCFFFF) (hit : 0xC0081000 + it = 0x1000 * e) (hn : e' < e + n)
    (hframes : f + (e' - e) ≤ 16384)
    (hok : TablesOk G (Kernel.alloc fuel) (expandedSize size k0) n it k)
    (hloop : Kernel.expandLoop (Kernel.alloc fuel) (expandedSize size k0) n it k = .ok k') :
    inv k' ∧ PageInv e' (f + (e' - e)) k' ∧
      k'.heap.endAddress = k.heap.endAddress := by
  induction n generalizing it e f k with
  | zero => omega
  | succ n ih =>
      rw [Kernel.expandLoop] at hloop
      rw [TablesOk] at hok
      rw [hstart] at htop
      by_cases hlt : it < expandedSize size k0
      · rw [if_pos hlt] at hloop
        obtain ⟨htables, hrest⟩ := hok hlt
        simp only [bind_eq_ok] at hloop
        obtain ⟨⟨page, k1⟩, hget, k2, hframe, hloop⟩ := hloop
        have haddr : add32 k.heap.startAddress it = 0x1000 * e := by
          rw [hpages.start, ← hit]
          exact add32_eq (by omega)
        have hrest' := hrest page k1 k2 hget hframe
        rw [haddr] at hget htables
        have hserved : k.table (e / 1024) = 0 → ServedAtOnce G 0x1000 1 k := by
          intro hnone
          refine htables ?_ hpages.kheap
          rw [lookupPage_eq_zero_iff, show 0x1000 * e / 0x1000 = e by omega]
          exact hnone
        obtain ⟨hinv1, hpages1, rfl, htable1, hstart1,
            hend1⟩ := hkept.getPage hinv hpages hexpand hstart
          (by rw [hstart]; omega) hserved hget
        have hpages2 := hpages1.allocFrame (by omega) (by omega) htable1 hframe
        have hdir2 : k2.directory = k1.directory := by
          unfold Kernel.allocFrameAt at hframe
          simp only [bind_eq_ok, Except.ok.injEq] at hframe
          obtain ⟨r, -, rfl⟩ := hframe
          rfl
        obtain ⟨hmem2, hheap2⟩ := allocFrameAt_eq hframe
        have hnext : add32 it 0x1000 = it + 0x1000 := add32_eq (by omega)
        rw [hnext] at hloop hrest'
        obtain ⟨hinv', hpages', hend'⟩ := ih (hkept.congr _ _ hinv1 hmem2 hheap2 hdir2) hpages2
          (by omega) (by omega) (by omega) (by omega) hrest' hloop
        refine ⟨hinv', ?_, hend'.trans ?_⟩
        · rwa [show f + 1 + (e' - (e + 1)) = f + (e' - e) by omega] at hpages'
        · rw [hheap2]
          exact hend1
      · rw [if_neg hlt] at hloop
        obtain rfl := Except.ok.inj hloop
        obtain rfl : e = e' := by omega
        rw [Nat.sub_self, Nat.add_zero]
        exact ⟨hinv, hpages, rfl⟩

/-- **An expansion** within the guards. -/
theorem KeptPages.expand (hkept : KeptPages G inv) (hinv : inv k) (hpages : PagesInv k)
    (hgrows : sub32 k.heap.endAddress k.heap.startAddress < expandedSize size k)
    (hfits : k.heap.startAddress + expandedSize size k < 4294967296) (hspace : G.expand size k)
    (htables : TablesOk G (Kernel.alloc fuel) (expandedSize size k)
      (expandedSize size k / 0x1000 + 1) (sub32 k.heap.endAddress k.heap.startAddress) k)
    (hk1 : Kernel.expand (Kernel.alloc fuel)
      (add32 (sub32 k.heap.endAddress k.heap.startAddress) (size + 20)) k = .ok k') :
    ∃ k2, inv k2 ∧ k2.heap.endAddress = k.heap.endAddress ∧
      k2.heap.startAddress = k.heap.startAddress ∧
      k' = withEnd (k.heap.startAddress + expandedSize size k) k2 ∧ PagesInv k' := by
  obtain ⟨halign, f, hpages⟩ := hpages
  obtain ⟨hmore, hmax, k2, hloop, hk'⟩ := expand_eq hk1
  have hstart := hpages.start
  have hlo := hpages.lo
  have hhi := hpages.hi
  have hlen : sub32 k.heap.endAddress k.heap.startAddress = k.heap.endAddress - 0xC0081000 := by
    rw [hstart]
    exact sub32_eq (by omega) (by omega)
  have hround : expandedSize size k % 4096 = 0 := by
    refine nextPage_mod ?_ (add32_lt _ _)
    omega
  have hnew : Kernel.nextPage (add32 (sub32 k.heap.endAddress k.heap.startAddress) (size + 20)) =
      expandedSize size k := rfl
  rw [hnew] at hmax hloop hk'
  rw [add32_eq hfits, hpages.max, hstart] at hmax
  have henough := hkept.enough k size hspace
  rw [hlen] at hgrows henough hloop htables
  rw [hstart] at hfits
  have hmod : (0xC0081000 : Nat) % 4096 = 0 := by decide
  -- the old end and the new one, in pages
  obtain ⟨e', he'⟩ : ∃ e', 0xC0081000 + expandedSize size k = 0x1000 * e' :=
    ⟨(0xC0081000 + expandedSize size k) / 0x1000, by omega⟩
  have hfirst : k.frames.firstFrame = f := hpages.firstFrame (by omega)
  rw [hfirst] at henough
  obtain ⟨hinv2, hpages2, hend2⟩ := hkept.expandLoop hinv hpages hspace hstart
    (by rw [hstart]; exact he') (by omega) (by omega) (by omega) (by omega) (by omega) htables hloop
  have hstart2 := hpages2.start
  rw [hstart2, add32_eq hfits] at hk'
  refine ⟨k2, hinv2, hend2, hstart2.trans hstart.symm, by rw [hk', hstart], ?_⟩
  have hend' : k'.heap.endAddress = 0x1000 * e' := by
    rw [hk', withEnd_heap]
    exact he'
  refine ⟨by omega, f + (e' - k.heap.endAddress / 0x1000), ?_⟩
  rw [hend', show 0x1000 * e' / 0x1000 = e' by omega, hk']
  exact ⟨hpages2.kheap, hpages2.start, hpages2.max, hpages2.nframes, hpages2.apart, hpages2.lo,
    hpages2.hi, hpages2.backed, hpages2.bare, hpages2.first, hpages2.used⟩

/-- **Every call of `alloc`** within the guards keeps the pages in step with the end of the heap. -/
theorem KeptPages.alloc (hkept : KeptPages G inv) (hinv : inv k) (hpages : PagesInv k)
    (hsize : size + 20 < 4294967296) (hok : AllocOk G fuel size pageAlign k)
    (halloc : Kernel.alloc fuel size pageAlign k = .ok (p, k')) :
    PagesInv k' ∧ ∃ k1 it, inv k1 ∧ Kernel.findSmallestHole (size + 20) pageAlign k1 = some it ∧
      G.carve size pageAlign it k1 ∧
      (p, k') = Kernel.carveBlock it size (size + 20) pageAlign k1 := by
  induction fuel generalizing k with
  | zero => simp [Kernel.alloc] at halloc
  | succ fuel ih =>
      obtain ⟨hcarve, hexpand⟩ := hok
      have hnew : add32 size (sizeofHeader + sizeofFooter) = size + 20 := add32_eq hsize
      cases hfind : Kernel.findSmallestHole (size + 20) pageAlign k with
      | some it =>
          rw [alloc_of_find fuel hsize hfind] at halloc
          have hres := (Except.ok.inj halloc).symm
          refine ⟨?_, k, it, hinv, hfind, hcarve it hfind, hres⟩
          have hsame := samePaging_carveBlock it size (size + 20) pageAlign k
          rw [← hres] at hsame
          exact hpages.congr hsame
      | none =>
          obtain ⟨⟨hgrows, hfits⟩, hspace, htables, hrest⟩ := hexpand hfind
          rw [Kernel.alloc] at halloc
          simp only [hnew, hfind, bind_eq_ok] at halloc
          obtain ⟨k1, hk1, halloc⟩ := halloc
          obtain ⟨hgrow, hretry⟩ := hrest k1 hk1
          obtain ⟨k2, hinv2, hend2, hstart2, hk1eq, hpages1⟩ :=
            hkept.expand hinv hpages hgrows hfits hspace htables hk1
          -- the expansion adds a page at least, and more than the request
          have hmore : k2.heap.endAddress + 20 ≤ k.heap.startAddress + expandedSize size k := by
            have hge := le_nextPage (add32_lt _ _) (Nat.lt_of_le_of_lt (Nat.zero_le _) hgrows)
            have hlt := (expand_eq hk1).1
            obtain ⟨halign, f, hinvp⟩ := hpages
            have hstart := hinvp.start
            have hlo := hinvp.lo
            have hhi := hinvp.hi
            have hlen : sub32 k.heap.endAddress k.heap.startAddress =
                k.heap.endAddress - k.heap.startAddress := sub32_eq (by omega) (by omega)
            rw [hlen] at hlt hge
            unfold expandedSize
            rw [hlen]
            unfold add32 at hlt hge ⊢
            omega
          have hgrown := hkept.grow k2 _ hinv2 hmore hfits (by rw [hend2, ← hk1eq]; exact hgrow)
          rw [hstart2, hend2, ← hk1eq] at hgrown
          exact ih hgrown (hpages1.congr (samePaging_growHoles _ _ _)) hretry halloc

end Rule

end Vulcanos
