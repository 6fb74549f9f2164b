import Vulcanos.HeapSafety
import Vulcanos.Proof.InitPaging

/-!
# The kernel that `init_paging` leaves

The frame bitmap gets a byte for each section, where the frame operations read and write a word, so
only the frames of the first 64 megabytes have their word in it. `init_paging` itself stays below:
it returns, and what it has handed out is mapped to itself.
-/

namespace Vulcanos

open Memory Word

/-! ### The frame bitmap -/

/-- The address of the word that `first_frame`, `set_frame` and `clear_frame` use for frame `f`. -/
def Kernel.frameWord (f : Nat) (k : Kernel) : Nat :=
  k.frameAllocationsAddr + 4 * Frames.frameSection f

/-- The word of frame `f` lies inside the bytes that were allocated for the bitmap, `memset` has
cleared it, and it is apart from the directory and from all that is handed out later. `k1` is the
kernel with the bitmap, `k2` the kernel with the directory. -/
def FrameWordOk (k1 k2 : Kernel) (f : Nat) : Prop :=
  (k1.frameAllocationsAddr ≤ k1.frameWord f ∧ k1.frameWord f + 4 ≤ k1.placementAddr) ∧
    k1.frames.frameAllocations (Frames.frameSection f) = 0 ∧
    k1.frameWord f + 4 ≤ k2.kernelDirectory ∧ k2.kernelDirectory ≤ k2.placementAddr

section FrameWord

variable {k k1 k2 : Kernel} {f : Nat}

theorem setup_layout (hkheap : k.kheap = 0) (hge : 0x1000 ≤ k.placementAddr)
    (hlt : k.placementAddr + 0x4000 < 4294967296) (hframes : Kernel.setupFrames k = .ok k1)
    (hdir : Kernel.setupDirectory k1 = .ok k2) :
    k1.frameAllocationsAddr = k.placementAddr ∧ k1.placementAddr = k.placementAddr + 2048 ∧
      k1.frames.nframes = 65536 ∧ (∀ sec < 512, k1.frames.frameAllocations sec = 0) ∧
      k2.kernelDirectory = ((k.placementAddr + 2048) / 4096 + 1) * 4096 ∧
      k2.placementAddr = k2.kernelDirectory + 0x2000 := by
  rw [setupFrames_eq hkheap (by omega)] at hframes
  have hk1 := (Except.ok.inj hframes).symm
  have hplace : k1.placementAddr = k.placementAddr + 2048 := by rw [hk1]
  have hkheap1 : k1.kheap = 0 := by
    rw [hk1]
    exact hkheap
  rw [setupDirectory_eq hkheap1 (by omega) (by omega), hplace] at hdir
  have hk2 := (Except.ok.inj hdir).symm
  refine ⟨by rw [hk1], hplace, by rw [hk1], fun sec hsec => ?_, by rw [hk2], by rw [hk2]⟩
  rw [hk1]
  exact read32_memset_zero _ (by omega) (by omega)

/-- **The word of a frame is its own** exactly for the frames below 16384. -/
theorem frameWordOk_iff (hkheap : k.kheap = 0) (hge : 0x1000 ≤ k.placementAddr)
    (hlt : k.placementAddr + 0x4000 < 4294967296) (hframes : Kernel.setupFrames k = .ok k1)
    (hdir : Kernel.setupDirectory k1 = .ok k2) : FrameWordOk k1 k2 f ↔ f < 16384 := by
  obtain ⟨haddr, hplace, -, hzero, hdirectory, hend⟩ := setup_layout hkheap hge hlt hframes hdir
  unfold FrameWordOk Kernel.frameWord Frames.frameSection Frames.sectionSize
  rw [haddr, hplace, hend]
  constructor
  · rintro ⟨⟨-, hinside⟩, -⟩
    omega
  · intro hf
    exact ⟨⟨by omega, by omega⟩, hzero _ (by omega), by omega, by omega⟩

end FrameWord

theorem frameWordOk_iff_bareKernel :
    ∃ k1 k2, Kernel.setupFrames bareKernel = .ok k1 ∧ Kernel.setupDirectory k1 = .ok k2 ∧
      (FrameWordOk k1 k2 16383 ↔ 16383 < 16384) := by
  have hplace : bareKernel.placementAddr = 0x200000 := rfl
  obtain ⟨k1, k2, hframes, hdir, -⟩ := setup_bare (k := bareKernel) rfl (by rw [hplace])
    (by rw [hplace]; decide) (by rw [hplace]; decide)
  exact ⟨k1, k2, hframes, hdir, frameWordOk_iff rfl (by rw [hplace]; decide)
      (by rw [hplace]; decide)
    hframes hdir⟩

/-- The word of frame 32768 is the first of the page directory. -/
theorem not_frameWordOk : ¬ ∀ k k1 k2 f, k.kheap = 0 → Kernel.setupFrames k = .ok k1 →
    Kernel.setupDirectory k1 = .ok k2 → f < k1.frames.nframes →
      FrameWordOk k1 k2 f ∧ k1.frameWord f ≠ k2.kernelDirectory := by
  intro hall
  have hplace : bareKernel.placementAddr = 0x200000 := rfl
  obtain ⟨k1, k2, hframes, hdir, -⟩ := setup_bare (k := bareKernel) rfl (by rw [hplace])
    (by rw [hplace]; decide) (by rw [hplace]; decide)
  obtain ⟨haddr, -, hnframes, -, hdirectory, -⟩ := setup_layout rfl (by rw [hplace]; decide)
    (by rw [hplace]; decide) hframes hdir
  obtain ⟨-, hapart⟩ := hall _ _ _ 32768 rfl hframes hdir (by rw [hnframes]; decide)
  refine hapart ?_
  unfold Kernel.frameWord
  rw [haddr, hdirectory, hplace]
  rfl

/-! ### Identity mapping and the heap's pages -/

/-- The entry that the processor finds for an address through the physical words of the directory.
-/
def Kernel.physicalEntry (a : Nat) (k : Kernel) : Option Page :=
  let w := k.directory.pageTablesPhysical (a / 0x1000 / 1024)
  if w &&& 1 = 0 then none
  else some (k.pages ((w &&& 0xFFFFF000) + 4 * (a / 0x1000 % 1024)))

/-- The entry is present and has this frame. -/
def MapsTo (entry : Option Page) (f : Nat) : Prop := ∃ page, entry = some page ∧ page.pr = 1 ∧
    page.fr = f

/-- Everything that the bump allocator has handed out is mapped to itself, and the heap's pages are
present on frames of their own. -/
structure BootMapped (k : Kernel) : Prop where
  kheap : k.kheap ≠ 0
  identity : ∀ a < k.placementAddr, MapsTo (k.entry (a / 0x1000)) (a / 0x1000) ∧
    MapsTo (k.physicalEntry a) (a / 0x1000)
  handedOut : k.frameAllocationsAddr + 2048 ≤ k.placementAddr ∧
    k.kernelDirectory + 0x2000 ≤ k.placementAddr ∧ k.kheap + sizeofHeap ≤ k.placementAddr ∧
    ∀ t, k.table t ≠ 0 → k.table t + 0x1000 ≤ k.placementAddr
  heap : ∃ frame : Nat → Nat, Set.InjOn frame (Set.Iio 256) ∧
    ∀ i < 256, MapsTo (k.entry (0xC0000 + i)) (frame i) ∧
      MapsTo (k.physicalEntry (0xC0000000 + 0x1000 * i)) (frame i) ∧
      ∀ a < 0x100000000, MapsTo (k.entry (a / 0x1000)) (a / 0x1000) → frame i ≠ a / 0x1000

section Boot

variable {k k' : Kernel} {b n : Nat}

theorem Booting.physicalEntry (h : Booting k) (hlt : k.placementAddr < 0x4000000) (a : Nat) :
    k.physicalEntry a = k.entry (a / 0x1000) := by
  have hphys := h.physical (a / 0x1000 / 1024)
  unfold Kernel.physicalEntry
  by_cases hnone : k.table (a / 0x1000 / 1024) = 0
  · rw [entry_eq_none_iff.mpr hnone, hphys, if_pos hnone]
    rfl
  · obtain ⟨halign, hbelow⟩ := h.tables _ hnone
    rw [if_neg hnone] at hphys
    -- the flags are in the low bits, which the table's address leaves free
    have hsum : k.table (a / 0x1000 / 1024) ||| 7 = k.table (a / 0x1000 / 1024) + 7 := by
      have hshift := Nat.shiftLeft_add_eq_or_of_lt (show 7 < 2 ^ 12 by decide)
        (k.table (a / 0x1000 / 1024) / 4096)
      rw [Nat.shiftLeft_eq, Nat.div_mul_cancel (Nat.dvd_of_mod_eq_zero halign)] at hshift
      exact hshift.symm
    have hpresent : (k.table (a / 0x1000 / 1024) + 7) &&& 1 ≠ 0 := by
      rw [Nat.and_one_is_mod]
      omega
    rw [entry_of_table hnone, hphys, hsum]
    simp only
    rw [if_neg hpresent, and_highMask (by omega)]
    unfold Kernel.entryAddr
    rw [show (k.table (a / 0x1000 / 1024) + 7) / 4096 * 4096 = k.table (a / 0x1000 / 1024) by omega]

theorem mapsTo_framed (isWrite f : Nat) : MapsTo (some (Frames.framed Page.zero isWrite f)) f :=
  ⟨_, rfl, rfl, rfl⟩

theorem HeapPages.identity_lt (h : HeapPages b n 256 k) (hn : n ≤ 12400) {m : Nat}
    (hmap : MapsTo (k.entry m) m) : m < n := by
  by_contra hge
  obtain ⟨page, hpage, hpr, hfr⟩ := hmap
  by_cases hheap : m < 786432 ∨ 786432 + 256 ≤ m
  · have hrest := h.rest m (by omega) hheap
    rw [hpage] at hrest
    split at hrest
    · -- a page that no loop has reached is not present
      rw [Option.some.inj hrest] at hpr
      exact absurd hpr (by decide)
    · simp at hrest
  · have hframe := h.heap (m - 786432) (by omega)
    rw [show 786432 + (m - 786432) = m by omega, hpage] at hframe
    rw [Option.some.inj hframe] at hfr
    simp only [Frames.framed] at hfr
    omega

/-- What the loops leave is mapped as it should be, and `create_heap` takes no new page. -/
theorem HeapPages.bootMapped (h : HeapPages b n 256 k) (hn : n ≤ 12400)
    (hbound : k.placementAddr + 0x1000 ≤ 0x1000 * n) :
    BootMapped { Kernel.insertHole 0xC0081000 (unlistedHeap k) with kheap := k.placementAddr } := by
  have hcount : tablesFor n ≤ 13 := by unfold tablesFor; omega
  have hplace := h.placement
  have hpage := h.booting.placement
  have hend : (unlistedHeap k).placementAddr = k.placementAddr + 32 := add32_eq (by
    unfold sizeofHeap
    omega)
  obtain ⟨k', hk'⟩ : ∃ k' : Kernel, k' =
      { Kernel.insertHole 0xC0081000 (unlistedHeap k) with kheap := k.placementAddr } := ⟨_, rfl⟩
  have hplace' : k'.placementAddr = k.placementAddr + 32 := by
    rw [hk']
    exact hend
  have hentry : ∀ m, k'.entry m = k.entry m := fun m => entry_congr (by rw [hk']; rfl)
      (by rw [hk']; rfl)
  have hphysical : ∀ a, k'.physicalEntry a = k.entry (a / 0x1000) := by
    intro a
    rw [← h.booting.physicalEntry (by omega), hk']
    rfl
  rw [← hk']
  refine ⟨?_, fun a ha => ?_, ⟨?_, ?_, ?_, fun t ht => ?_⟩, fun i => n + i, ?_, fun i hi => ?_⟩
  · rw [hk']
    exact Nat.ne_of_gt (Nat.lt_of_lt_of_le (by decide) hpage.1)
  · rw [hplace'] at ha
    rw [hphysical, hentry, h.low _ (by omega)]
    exact ⟨mapsTo_framed 0 _, mapsTo_framed 0 _⟩
  · rw [hplace', hk']
    exact h.booting.bitmap.trans (Nat.le_add_right _ _)
  · rw [hplace', hk']
    exact h.booting.directory.trans (Nat.le_add_right _ _)
  · rw [hplace', hk']
    exact Nat.le_refl _
  · have htable : k'.table t = k.table t := by rw [hk']; rfl
    rw [hplace', htable]
    rw [htable] at ht
    exact (h.booting.tables t ht).2.trans (Nat.le_add_right _ _)
  · exact fun i _ j _ heq => Nat.add_left_cancel heq
  · have hframe := h.heap i hi
    refine ⟨?_, ?_, fun a _ hmap heq => ?_⟩
    · rw [hentry, hframe]
      exact mapsTo_framed 0 _
    · rw [hphysical, show (0xC0000000 + 0x1000 * i) / 0x1000 = 786432 + i by omega, hframe]
      exact mapsTo_framed 0 _
    · rw [hentry] at hmap
      have hlt := h.identity_lt hn hmap
      have hframe' : n + i = a / 0x1000 := heq
      omega

/-- **`init_paging` returns**, whatever number of iterations above 12400 its loops are allowed, and
what it leaves is mapped as it should be. -/
theorem initPaging_bootMapped (hkheap : k.kheap = 0) (halign : k.placementAddr % 0x1000 = 0)
    (hlo : 0x100000 ≤ k.placementAddr) (hhi : k.placementAddr ≤ 0x3000000) :
    ∃ k', (∀ fuel, 12400 < fuel → Kernel.initPaging fuel k = .ok k') ∧ BootMapped k' := by
  obtain ⟨n, k1, hpages, hn, hbound, hinit⟩ := initPaging_eq hkheap halign hlo hhi
  exact ⟨_, hinit, hpages.bootMapped hn hbound⟩

end Boot

theorem initPaging_bootMapped_bareKernel :
    ∃ k', (∀ fuel, 12400 < fuel → Kernel.initPaging fuel bareKernel = .ok k') ∧ BootMapped k' :=
  initPaging_bootMapped rfl rfl (by decide) (by decide)

end Vulcanos
