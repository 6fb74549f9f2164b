import Vulcanos.Boot
import Vulcanos.HeapPaging
import Vulcanos.Proof.PageOwners

/-!
# The address space

Where the addresses of the kernel lead: at boot, as the processor finds it through the physical
words of the directory, and in runs of the heap, as `get_page` finds it. The first is known for each
of the 2^32 addresses; of the second, that the held blocks are mapped and that no two addresses lead
to the same byte.
-/

namespace Vulcanos

open Memory Word Layout

/-- The byte of physical memory that an entry leads to, unless it is not there or not present. -/
def physicalByte (entry : Option Page) (a : Nat) : Option Nat :=
  entry.bind fun page => if page.pr = 1 then some (0x1000 * page.fr + a % 0x1000) else none

/-- The walk of the processor, from the physical words of the directory. -/
def Kernel.walk (a : Nat) (k : Kernel) : Option Nat := physicalByte (k.physicalEntry a) a

/-- The same through the entry that `get_page` returns. -/
def Kernel.translate (a : Nat) (k : Kernel) : Option Nat := physicalByte (k.entry (a / 0x1000)) a

section Byte

variable {entry : Option Page} {page : Page} {a x n f : Nat}

theorem physicalByte_eq_some :
    physicalByte entry a = some x ↔
      ∃ page, entry = some page ∧ page.pr = 1 ∧ 0x1000 * page.fr + a % 0x1000 = x := by
  unfold physicalByte
  cases entry with
  | none => simp
  | some page => by_cases hpr : page.pr = 1 <;> simp [hpr]

theorem physicalByte_framed (f : Nat) (a : Nat) :
    physicalByte (some (Frames.framed Page.zero 0 f)) a = some (0x1000 * f + a % 0x1000) := rfl

end Byte

/-! ### At boot -/

section Boot

variable {k k' : Kernel} {b n a : Nat}

/-- Where an address leads when the loops of `init_paging` are done, with `n` pages mapped to
themselves. -/
def bootMap (n a : Nat) : Option Nat :=
  if a < 0x1000 * n then some a
  else if 0xC0000000 ≤ a ∧ a < 0xC0100000 then some (0x1000 * n + (a - 0xC0000000))
  else none

theorem HeapPages.physicalByte (h : HeapPages b n 256 k) (a : Nat) :
    physicalByte (k.entry (a / 0x1000)) a = bootMap n a := by
  unfold bootMap
  by_cases hlow : a < 0x1000 * n
  · rw [if_pos hlow, h.low _ (by omega), physicalByte_framed, Nat.div_add_mod]
  · rw [if_neg hlow]
    by_cases hheap : 0xC0000000 ≤ a ∧ a < 0xC0100000
    · have hentry := h.heap (a / 0x1000 - 786432) (by omega)
      rw [Nat.add_sub_cancel' (by omega)] at hentry
      rw [if_pos hheap, hentry, physicalByte_framed]
      exact congrArg some (by omega)
    · rw [if_neg hheap, h.rest _ (by omega) (by omega)]
      split <;> rfl

/-- **The processor's map after `init_paging`.** For some number of pages that covers everything
handed out so far, every 32-bit address below leads to itself, the first megabyte of the heap to the
frames that follow, and every other address faults. -/
theorem initPaging_walk (hkheap : k.kheap = 0) (halign : k.placementAddr % 0x1000 = 0)
    (hlo : 0x100000 ≤ k.placementAddr) (hhi : k.placementAddr ≤ 0x3000000) :
    ∃ k' n, (∀ fuel, 12400 < fuel → Kernel.initPaging fuel k = .ok k') ∧
      k'.placementAddr < 0x1000 * n ∧ n ≤ 12400 ∧ ∀ a < 4294967296, k'.walk a = bootMap n a := by
  obtain ⟨n, k1, hpages, hn, hbound, hinit⟩ := initPaging_eq hkheap halign hlo hhi
  have hcount : tablesFor n ≤ 13 := by unfold tablesFor; omega
  have hplace := hpages.placement
  refine ⟨_, n, hinit, ?_, hn, fun a _ => ?_⟩
  · have hend : (unlistedHeap k1).placementAddr = k1.placementAddr + 32 := add32_eq (by
      unfold sizeofHeap
      omega)
    exact Nat.lt_of_le_of_lt (Nat.le_of_eq hend) (by omega)
  · rw [← hpages.physicalByte, ← hpages.booting.physicalEntry (by omega)]
    rfl

theorem initPaging_walk_bareKernel :
    ∃ k' n, (∀ fuel, 12400 < fuel → Kernel.initPaging fuel bareKernel = .ok k') ∧
      k'.placementAddr < 0x1000 * n ∧ n ≤ 12400 ∧ ∀ a < 4294967296, k'.walk a = bootMap n a :=
  initPaging_walk rfl rfl (by decide) (by decide)

theorem HeapPages.framesOwned (h : HeapPages b n 256 k) (hn : n ≤ 12400) : FramesOwned k := by
  have hframe : ∀ m, k.table (m / 1024) ≠ 0 → (k.pages (k.entryAddr m)).pr = 1 →
      ∃ f, (k.pages (k.entryAddr m)).fr = f ∧ f < n + 256 ∧
        (m < n ∧ f = m ∨ 786432 ≤ m ∧ m = 786432 + (f - n) ∧ n ≤ f) := by
    intro m htable hpr
    have hentry := entry_of_table htable
    by_cases hlow : m < n
    · rw [h.low m hlow] at hentry
      rw [← Option.some.inj hentry]
      exact ⟨m, rfl, by omega, Or.inl ⟨hlow, rfl⟩⟩
    · by_cases hheap : 786432 ≤ m ∧ m < 786432 + 256
      · have hpage := h.heap (m - 786432) (by omega)
        rw [Nat.add_sub_cancel' hheap.1] at hpage
        rw [hpage] at hentry
        rw [← Option.some.inj hentry]
        exact ⟨n + (m - 786432), rfl, by omega, Or.inr ⟨hheap.1, by omega, by omega⟩⟩
      · rw [h.rest m (by omega) (by omega)] at hentry
        split at hentry
        · rw [← Option.some.inj hentry] at hpr
          exact absurd hpr (by decide)
        · simp at hentry
  refine ⟨?_, ?_, ?_⟩
  · rintro x ⟨m, htable, rfl⟩ hpr
    obtain ⟨f, hfr, hlt, -⟩ := hframe m htable hpr
    omega
  · rintro x ⟨m, htable, rfl⟩ hpr
    obtain ⟨f, hfr, hlt, -⟩ := hframe m htable hpr
    rw [hfr, h.used f (by omega), decide_eq_true hlt]
  · rintro x y ⟨m, htable, rfl⟩ ⟨m', htable', rfl⟩ hpr hpr' heq
    obtain ⟨f, hfr, -, hcase⟩ := hframe m htable hpr
    obtain ⟨f', hfr', -, hcase'⟩ := hframe m' htable' hpr'
    rw [hfr, hfr'] at heq
    rw [show m = m' by omega]

end Boot

/-! ### In runs of the heap -/

/-- The held blocks are mapped, every address leads into the physical memory, to a frame that is
marked as used, and no two addresses lead to the same byte. -/
structure HeapRun.AddressSpace (s : HeapRun) : Prop where
  held : ∀ u ∈ s.live, ∀ a, u.1 ≤ a → a < u.1 + u.2 → (s.kernel.translate a).isSome
  used : ∀ a x, s.kernel.translate a = some x →
    x < Frames.physicalMemSize ∧ s.kernel.frames.used (x / 0x1000) = true
  apart : ∀ a a' x, s.kernel.translate a = some x → s.kernel.translate a' = some x → a = a'

section Run

variable {s s' : HeapRun} {c : Call}

/-- Freeing without a contraction, storing and every request keep the owners of the frames. -/
theorem FramesInv.step (h : FramesInv s.kernel)
    (hstay : ∀ p, c = .free p → ¬ Contracts (sub32 p sizeofHeader) s.kernel)
    (hstep : c.step s = .ok s') : FramesInv s'.kernel := by
  cases c with
  | alloc fuel size pageAlign =>
      simp only [Call.step, bind_eq_ok, Except.ok.injEq] at hstep
      obtain ⟨⟨p, k⟩, halloc, rfl⟩ := hstep
      exact framesInv_keeps.alloc h halloc
  | free p =>
      simp only [Call.step, bind_eq_ok, Except.ok.injEq] at hstep
      obtain ⟨k, hfree, rfl⟩ := hstep
      have hsame := free_samePaging hfree (hstay p rfl)
      exact h.congr hsame.directory hsame.pages hsame.frames
  | store a v =>
      obtain rfl := Except.ok.inj hstep
      exact h.congr rfl rfl rfl

theorem Booted.framesInv (h : Booted s) : FramesInv s.kernel := by
  obtain ⟨b, n, k, hpages, hn, -, heq⟩ := h.eq
  rw [heq]
  exact FramesInv.congr (k := k) ⟨hpages.booting.nframes, fun _ => hpages.framesOwned hn⟩
    rfl rfl rfl

theorem HeldHeap.sub32_header {p : Nat} (h : HeldHeap s.live s.kernel)
    (hlive : (Call.free p).Legal s) : sub32 p sizeofHeader = p - 12 := by
  obtain ⟨cs, hinv, -⟩ := h
  obtain ⟨head, b, rfl, hmem⟩ := hinv.block_of_live hlive
  have hbounds := hinv.wellFormed.block_bounds hmem
  have hlow := hinv.wellFormed.start_ge
  have hlt := hinv.wellFormed.end_lt
  have hmin : 20 ≤ b := by
    obtain ⟨left, right, rfl, -⟩ := mem_blocks_iff.mp hmem
    exact hinv.wellFormed.minSize ⟨b, false⟩ (by simp)
  simp only at hbounds hlow hlt
  exact sub32_eq (by unfold sizeofHeader; omega) (by omega)

/-- The pages of the heap, its blocks and the owners of the frames together. -/
theorem HeldHeap.addressSpace (hpages : PagesInv s.kernel) (hheld : HeldHeap s.live s.kernel)
    (hframes : FramesInv s.kernel) (hleft : s.kernel.frames.firstFrame < 16384) :
    s.AddressSpace := by
  obtain ⟨halign, f, hinv⟩ := hpages
  obtain ⟨cs, hheap, -⟩ := hheld
  have hnframes := hinv.nframes
  have hclear : s.kernel.frames.used s.kernel.frames.firstFrame = false := by
    have hfirst := Frames.firstFrame_spec s.kernel.frames
    rw [hnframes] at hfirst
    exact hfirst.clear (Nat.lt_trans hleft (by decide))
  have howned := hframes.2 ⟨_, Nat.lt_trans hleft (by decide), hclear⟩
  -- what an address leads to is in a frame of its entry
  have hentry : ∀ a x, s.kernel.translate a = some x → s.kernel.table (a / 0x1000 / 1024) ≠ 0 ∧
      (s.kernel.pages (s.kernel.entryAddr (a / 0x1000))).pr = 1 ∧
      0x1000 * (s.kernel.pages (s.kernel.entryAddr (a / 0x1000))).fr + a % 0x1000 = x := by
    intro a x hx
    obtain ⟨page, hpage, hpr, hbyte⟩ := physicalByte_eq_some.mp hx
    have htable : s.kernel.table (a / 0x1000 / 1024) ≠ 0 := by
      intro hzero
      rw [entry_eq_none_iff.mpr hzero] at hpage
      simp at hpage
    rw [entry_of_table htable] at hpage
    rw [Option.some.inj hpage]
    exact ⟨htable, hpr, hbyte⟩
  refine ⟨fun u hu a hlo hhi => ?_, fun a x hx => ?_, fun a a' x hx hx' => ?_⟩
  · have hbounds := hheap.liveApart.2 u hu
    rw [hinv.start] at hbounds
    simp only at hbounds
    obtain ⟨page, hpage, hpr, -⟩ := hinv.backed (a / 0x1000) (by omega) (by omega)
    rw [Kernel.translate, physicalByte_eq_some.mpr ⟨page, hpage, hpr, rfl⟩]
    rfl
  · obtain ⟨htable, hpr, hbyte⟩ := hentry a x hx
    have hlt := howned.lt _ ⟨_, htable, rfl⟩ hpr
    have hused := howned.used _ ⟨_, htable, rfl⟩ hpr
    rw [show x / 0x1000 = (s.kernel.pages (s.kernel.entryAddr (a / 0x1000))).fr by omega]
    refine ⟨?_, hused⟩
    unfold Frames.physicalMemSize
    omega
  · obtain ⟨htable, hpr, hbyte⟩ := hentry a x hx
    obtain ⟨htable', hpr', hbyte'⟩ := hentry a' x hx'
    have haddr := howned.inj _ _ ⟨_, htable, rfl⟩ ⟨_, htable', rfl⟩ hpr hpr' (by omega)
    have hpage := hinv.apart.entryAddr_inj htable htable' haddr
    omega

/-- **In every run within the guards**, as long as the bitmap has a frame left, the held blocks are
mapped and no physical byte is behind two addresses. -/
theorem addressSpace_of_run (hbooted : Booted s)
    (hrun : Run.Reaches Call.pagedStep (Call.Good pagingGuards) s s')
    (hleft : s'.kernel.frames.firstFrame < 16384) : s'.AddressSpace := by
  obtain ⟨hpages, hheld, hframes⟩ := hrun.invariant
    (fun t => PagesInv t.kernel ∧ HeldHeap t.live t.kernel ∧ FramesInv t.kernel)
    ⟨hbooted.pagesInv, hbooted.heldHeap, hbooted.framesInv⟩ fun c t u hinv hgood hstep => by
      obtain ⟨hpages', hheld'⟩ := hinv.2.1.step hinv.1 hgood hstep
      refine ⟨hpages', hheld', hinv.2.2.step (fun p hp => ?_) (pagedStep_eq hstep)⟩
      subst hp
      rw [hinv.2.1.sub32_header hgood.1]
      exact hinv.2.1.stays hinv.1 hgood hstep
  exact hheld.addressSpace hpages hframes hleft

end Run

theorem addressSpace_of_run_expandingCalls : ∃ s s' : HeapRun, Booted s ∧
    Run.Reaches Call.pagedStep (Call.Good pagingGuards) s s' ∧
      s'.kernel.heap.endAddress = 0xC0101000 ∧ s'.live.length = 2 ∧ s'.AddressSpace := by
  obtain ⟨s, s', hbooted, hrun, hcheck⟩ := exists_imageRun (Call.Good pagingGuards) expandingCalls
    (fun t => decide (t.kernel.heap.endAddress = 0xC0101000 ∧ t.live.length = 2 ∧
      t.kernel.frames.firstFrame < 16384)) (by decide +kernel)
  obtain ⟨hend, hlive, hleft⟩ := of_decide_eq_true hcheck
  exact ⟨s, s', hbooted, hrun, hend, hlive, addressSpace_of_run hbooted hrun hleft⟩

end Vulcanos
