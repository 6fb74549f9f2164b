import Vulcanos.Kernel.Paging
import Vulcanos.Proof.HeapRun
import Vulcanos.Proof.PageMap

/-!
# `init_paging` from start to end

The bound of the identity loop moves: each page table the loop makes is taken from `placement_addr`.
What the loops keep is stated over the page map, with the number of pages mapped so far. The first
free frame is that number, so the pages of the identity loop get the frames of their own numbers.
-/

namespace Vulcanos

open Memory Word

/-! ### Page loops -/

/-- **A page loop** whose body keeps an invariant and whose condition fails after at most `last`
pages returns, and leaves the invariant with the condition false. -/
theorem pageLoop_spec (bound : Kernel → Nat) (body : Nat → Kernel → Except Stop Kernel)
    (start last : Nat) (inv : Nat → Kernel → Prop)
    (hstep : ∀ n k, inv n k → start + 0x1000 * n < bound k → n < last ∧
      start + 0x1000 * n + 0x1000 < 4294967296 ∧
        ∃ k', body (start + 0x1000 * n) k = .ok k' ∧ inv (n + 1) k')
    {n : Nat} {k : Kernel} (hinit : inv n k) (hle : n ≤ last) :
    ∃ n' k', n' ≤ last ∧ inv n' k' ∧ bound k' ≤ start + 0x1000 * n' ∧
      ∀ fuel, last < fuel + n → Kernel.pageLoop bound body fuel
          (start + 0x1000 * n) k = .ok k' := by
  obtain ⟨d, hd⟩ : ∃ d, d = last - n := ⟨_, rfl⟩
  induction d generalizing n k with
  | zero =>
      have hexit : bound k ≤ start + 0x1000 * n := by
        by_contra hlt
        have hmore := (hstep n k hinit (Nat.lt_of_not_le hlt)).1
        omega
      refine ⟨n, k, hle, hinit, hexit, fun fuel hfuel => ?_⟩
      obtain ⟨fuel, rfl⟩ := Nat.exists_eq_succ_of_ne_zero (show fuel ≠ 0 by omega)
      rw [Kernel.pageLoop, if_neg (Nat.not_lt.mpr hexit)]
  | succ d ih =>
      by_cases hexit : bound k ≤ start + 0x1000 * n
      · refine ⟨n, k, hle, hinit, hexit, fun fuel hfuel => ?_⟩
        obtain ⟨fuel, rfl⟩ := Nat.exists_eq_succ_of_ne_zero (show fuel ≠ 0 by omega)
        rw [Kernel.pageLoop, if_neg (Nat.not_lt.mpr hexit)]
      · obtain ⟨hlt, hwrap, k1, hbody, hinv⟩ := hstep n k hinit (Nat.lt_of_not_le hexit)
        obtain ⟨n', k', hle', hinv', hexit', hloop⟩ := ih hinv (by omega) (by omega)
        refine ⟨n', k', hle', hinv', hexit', fun fuel hfuel => ?_⟩
        obtain ⟨fuel, rfl⟩ := Nat.exists_eq_succ_of_ne_zero (show fuel ≠ 0 by omega)
        have hnext : add32 (start + 0x1000 * n) Frames.frameSize = start + 0x1000 * (n + 1) := by
          exact (add32_eq hwrap).trans (by omega)
        rw [Kernel.pageLoop, if_pos (Nat.lt_of_not_le hexit), hbody, ok_bind, hnext]
        exact hloop fuel (by omega)

/-! ### Pages while there is no heap -/

/-- The kernel before `kheap` is set: the tables come from the bump allocator, page-aligned, and the
directory has each under both addresses. -/
structure Booting (k : Kernel) : Prop where
  kheap : k.kheap = 0
  nframes : k.frames.nframes = 65536
  apart : TablesApart k
  tables : ∀ t, k.table t ≠ 0 → k.table t % 0x1000 = 0 ∧ k.table t + 0x1000 ≤ k.placementAddr
  physical : ∀ t, k.directory.pageTablesPhysical t = if k.table t = 0 then 0 else k.table t ||| 7
  placement : 0x1000 ≤ k.placementAddr ∧ k.placementAddr % 0x1000 = 0
  bitmap : k.frameAllocationsAddr + 2048 ≤ k.placementAddr
  directory : k.kernelDirectory + 0x2000 ≤ k.placementAddr

/-- `k'` is `k` with a table for the `n`-th page, made if there was none. -/
structure HasTable (k : Kernel) (n : Nat) (k' : Kernel) : Prop where
  booting : Booting k'
  table : ∀ t, k'.table t = 0 ↔ k.table t = 0 ∧ t ≠ n / 1024
  entry : ∀ m, k'.entry m =
    if k.table (n / 1024) = 0 ∧ m / 1024 = n / 1024 then some Page.zero else k.entry m
  placement : k'.placementAddr =
    if k.table (n / 1024) = 0 then k.placementAddr + 0x2000 else k.placementAddr
  frames : k'.frames = k.frames

/-- `k'` is `k` with frame `f` given to the `n`-th page. -/
structure MapsPage (k : Kernel) (n f : Nat) (k' : Kernel) : Prop where
  booting : Booting k'
  table : ∀ t, k'.table t = 0 ↔ k.table t = 0 ∧ t ≠ n / 1024
  entry : ∀ m, k'.entry m = if m = n then some (Frames.framed Page.zero 0 f)
    else if k.table (n / 1024) = 0 ∧ m / 1024 = n / 1024 then some Page.zero else k.entry m
  placement : k'.placementAddr =
    if k.table (n / 1024) = 0 then k.placementAddr + 0x2000 else k.placementAddr
  used : ∀ g, k'.frames.used g = (decide (g = f) || k.frames.used g)

section Pages

variable {k k' : Kernel} {n f : Nat}

theorem nextPage_eq {x : Nat} (hge : 4096 ≤ x) (hlt : x + 4096 < 4294967296) :
    Kernel.nextPage x = (x / 4096 + 1) * 4096 := by
  have hne : x &&& 0xFFFFF000 ≠ 0 := fun hzero => by
    rw [and_highMask_eq_zero_iff (by omega)] at hzero
    omega
  unfold Kernel.nextPage
  rw [if_pos hne, and_highMask (by omega), add32_eq (by omega)]
  omega

theorem kmallocInt_of_no_heap (alloc : Kernel.Allocator) (sz : Nat) (phys : Bool)
    (hkheap : k.kheap = 0) (hge : 4096 ≤ k.placementAddr)
    (hlt : k.placementAddr + 4096 + sz < 4294967296) :
    Kernel.kmallocInt alloc sz 1 phys k =
      .ok ((k.placementAddr / 4096 + 1) * 4096,
        if phys then some ((k.placementAddr / 4096 + 1) * 4096) else none,
        { k with placementAddr := (k.placementAddr / 4096 + 1) * 4096 + sz }) := by
  have hnext := nextPage_eq hge (by omega)
  have hadd : add32 ((k.placementAddr / 4096 + 1) * 4096) sz =
      (k.placementAddr / 4096 + 1) * 4096 + sz := add32_eq (by omega)
  unfold Kernel.kmallocInt
  rw [if_neg (not_not.mpr hkheap)]
  simp only [if_true, hnext, hadd]

theorem kmallocInt_plain (alloc : Kernel.Allocator) (sz : Nat) (phys : Bool) (hkheap : k.kheap = 0)
    (hlt : k.placementAddr + sz < 4294967296) :
    Kernel.kmallocInt alloc sz 0 phys k =
      .ok (k.placementAddr, if phys then some k.placementAddr else none,
        { k with placementAddr := k.placementAddr + sz }) := by
  unfold Kernel.kmallocInt
  rw [if_neg (not_not.mpr hkheap)]
  simp only [zero_ne_one, if_false, add32_eq hlt]

theorem Booting.tableFits (h : Booting k) (hlt : k.placementAddr + 0x2000 < 4294967296) :
    TableFits (k.placementAddr + 0x1000)
      { k with placementAddr := k.placementAddr + 0x2000 } := by
  refine ⟨by omega, fun t ht => Or.inl ?_⟩
  exact (h.tables t ht).2.trans (Nat.le_add_right _ _)

theorem Booting.installTable {kp : Kernel} (t : Nat) (h : Booting k)
    (hlt : k.placementAddr + 0x2000 < 4294967296)
    (hkp : kp = { k with placementAddr := k.placementAddr + 0x2000 }) :
    Booting
      (Kernel.installTable t (k.placementAddr + 0x1000) (k.placementAddr + 0x1000) kp) := by
  have halign := h.placement.2
  have hfits := h.tableFits hlt
  rw [← hkp] at hfits
  have hapart : TablesApart kp := h.apart.congr (by rw [hkp])
  have hkptable : ∀ u, kp.table u = k.table u := fun u => by rw [hkp]; rfl
  have htable := fun u => table_installTable t u (k.placementAddr + 0x1000)
    (k.placementAddr + 0x1000) kp
  have hplace : (Kernel.installTable t (k.placementAddr + 0x1000) (k.placementAddr + 0x1000)
      kp).placementAddr = k.placementAddr + 0x2000 := by
    rw [hkp]
    rfl
  refine ⟨?_, ?_, hfits.apart hapart, ?_, ?_, ?_, ?_, ?_⟩
  · rw [hkp]
    exact h.kheap
  · rw [hkp]
    exact h.nframes
  · intro u hu
    rw [htable] at hu ⊢
    rw [hplace]
    by_cases heq : u = t
    · rw [if_pos heq]
      omega
    · rw [if_neg heq, hkptable] at hu ⊢
      have hold := h.tables u hu
      omega
  · intro u
    rw [htable]
    have hphys : (Kernel.installTable t (k.placementAddr + 0x1000) (k.placementAddr + 0x1000)
        kp).directory.pageTablesPhysical u =
        if u = t then (k.placementAddr + 0x1000) ||| 7
        else k.directory.pageTablesPhysical u := by
      rw [hkp]
      exact Function.update_apply _ _ _ _
    rw [hphys]
    split
    · rw [if_neg (by omega)]
    · rw [hkptable]
      exact h.physical u
  · rw [hplace]
    omega
  · rw [hplace, hkp]
    exact h.bitmap.trans (Nat.le_add_right _ _)
  · rw [hplace, hkp]
    exact h.directory.trans (Nat.le_add_right _ _)

/-- **`get_page`** before there is a heap. -/
theorem Booting.getPage (h : Booting k) (hlt : k.placementAddr + 0x2000 < 4294967296) :
    ∃ k', Kernel.getPage (Kernel.alloc 0) (0x1000 * n) 1 k = .ok (k'.entryAddr n, k') ∧
      HasTable k n k' := by
  have hpage : 0x1000 * n / 0x1000 = n := by omega
  by_cases htable : k.table (n / 1024) = 0
  · have hmalloc := kmallocInt_of_no_heap (Kernel.alloc 0) 0x1000 true h.kheap h.placement.1
      (by omega)
    have halign := h.placement.2
    rw [show (k.placementAddr / 4096 + 1) * 4096 = k.placementAddr + 0x1000 by omega,
      if_pos rfl, Nat.add_assoc] at hmalloc
    obtain ⟨kp, hkp⟩ : ∃ kp : Kernel, kp = { k with placementAddr := k.placementAddr + 0x2000 } :=
      ⟨_, rfl⟩
    have hfits := h.tableFits hlt
    rw [← hkp] at hfits
    have hkptable : ∀ t, kp.table t = k.table t := fun t => by rw [hkp]; rfl
    have htab := fun u => table_installTable (n / 1024) u (k.placementAddr + 0x1000)
      (k.placementAddr + 0x1000) kp
    refine ⟨Kernel.installTable (n / 1024) (k.placementAddr + 0x1000) (k.placementAddr + 0x1000) kp,
      ?_, h.installTable (n / 1024) hlt hkp, fun t => ?_, fun m => ?_, ?_, ?_⟩
    · rw [getPage_of_no_table (by rw [hpage]; exact htable), Kernel.kmallocAp, hmalloc, ok_bind]
      unfold Kernel.entryAddr
      rw [htab, if_pos (Eq.refl (n / 1024)), hpage, hkp]
      rfl
    · rw [htab, hkptable]
      split
      · rename_i heq
        simp [heq]
      · rename_i hne
        simp [hne]
    · rw [hfits.entry]
      have hkpentry : kp.entry m = k.entry m := entry_congr (by rw [hkp]) (by rw [hkp])
      simp only [htable, true_and, hkpentry]
    · rw [if_pos htable, hkp]
      rfl
    · rw [hkp]
      rfl
  · refine ⟨k, ?_, h, fun t => ?_, fun m => ?_, ?_, rfl⟩
    · rw [getPage_of_table 1 (by rw [hpage]; exact htable), hpage]
    · constructor
      · intro hzero
        exact ⟨hzero, fun heq => htable (heq ▸ hzero)⟩
      · exact fun hzero => hzero.1
    · rw [if_neg (fun hcon => htable hcon.1)]
    · rw [if_neg htable]

theorem Booting.touchPage (h : Booting k) (hlt : k.placementAddr + 0x2000 < 4294967296) :
    ∃ k', Kernel.touchPage (0x1000 * n) k = .ok k' ∧ HasTable k n k' := by
  obtain ⟨k', hget, htable⟩ := h.getPage (n := n) hlt
  refine ⟨k', ?_, htable⟩
  unfold Kernel.touchPage
  rw [hget, ok_bind]

theorem firstFrame_of_prefix {fs : Frames} (hnframes : fs.nframes = 65536) (hf : f < 65536)
    (hused : ∀ g ≤ f, fs.used g = decide (g < f)) : fs.firstFrame = f := by
  have hfirst := Frames.firstFrame_spec fs
  rw [hnframes] at hfirst
  exact hfirst.eq_of_prefix hf hused

/-- **The loop body of the other two loops**: a page without a frame gets the first one. -/
theorem Booting.mapPage (h : Booting k) (hlt : k.placementAddr + 0x2000 < 4294967296)
    (hbare : k.entry n = none ∨ k.entry n = some Page.zero) (hf : f < 65536)
    (hused : ∀ g ≤ f, k.frames.used g = decide (g < f)) :
    ∃ k', Kernel.mapPage (0x1000 * n) k = .ok k' ∧ MapsPage k n f k' := by
  obtain ⟨k1, hget, hbooting, htable, hentry, hplace, hframes⟩ := h.getPage (n := n) hlt
  have hhas : k1.table (n / 1024) ≠ 0 := fun hzero => ((htable _).mp hzero).2 rfl
  have hpage : k1.pages (k1.entryAddr n) = Page.zero := by
    have hn := hentry n
    rw [entry_of_table hhas] at hn
    split at hn
    · exact Option.some.inj hn
    · rcases hbare with hnone | hzero
      · rw [hnone] at hn
        simp at hn
      · rw [hzero] at hn
        exact Option.some.inj hn
  have hfirst : k1.frames.firstFrame = f :=
    firstFrame_of_prefix hbooting.nframes hf (by rw [hframes]; exact hused)
  have hbareAt : (k1.pages (k1.entryAddr n)).fr = 0 := by rw [hpage]; rfl
  have halloc := allocFrameAt_of_fr_eq_zero (k1.entryAddr n) 0 0 hbareAt (by rw [hfirst]; omega)
  rw [hfirst, hpage] at halloc
  obtain ⟨k2, hk2⟩ : ∃ k2 : Kernel, k2 = { k1 with
      pages := Function.update k1.pages (k1.entryAddr n) (Frames.framed Page.zero 0 f)
      frames := k1.frames.setFrame (f * Frames.frameSize) } := ⟨_, rfl⟩
  refine ⟨k2, ?_, ⟨?_, ?_, hbooting.apart.congr (by rw [hk2]), ?_, ?_, ?_, ?_, ?_⟩, fun t => ?_,
    fun m => ?_, ?_, fun g => ?_⟩
  · unfold Kernel.mapPage
    rw [hget, ok_bind, hk2]
    exact halloc
  · rw [hk2]
    exact hbooting.kheap
  · rw [hk2]
    exact hbooting.nframes
  · rw [hk2]
    exact hbooting.tables
  · rw [hk2]
    exact hbooting.physical
  · rw [hk2]
    exact hbooting.placement
  · rw [hk2]
    exact hbooting.bitmap
  · rw [hk2]
    exact hbooting.directory
  · rw [hk2]
    exact htable t
  · rw [hbooting.apart.entry_update hhas (by rw [hk2]) (by rw [hk2]) m, hentry m]
  · rw [hk2]
    exact hplace
  · rw [hk2]
    simp only
    rw [Frames.used_setFrame, Frames.frame_mul, hframes]

end Pages

/-! ### The three loops -/

section Loops

variable {k : Kernel} {n p : Nat}

/-- Before the loops: no table, and no frame used that the bitmap has room for. -/
structure Bare (p : Nat) (k : Kernel) : Prop where
  booting : Booting k
  table : ∀ t, k.table t = 0
  placement : k.placementAddr = p
  used : ∀ g < 16384, k.frames.used g = false

/-- After `n` iterations of the first loop: one table, for the heap's pages. -/
structure Touched (p n : Nat) (k : Kernel) : Prop where
  booting : Booting k
  table : ∀ t, k.table t = 0 ↔ n = 0 ∨ t ≠ 768
  entry : ∀ m, k.entry m = if n ≠ 0 ∧ m / 1024 = 768 then some Page.zero else none
  placement : k.placementAddr = if n = 0 then p else p + 0x2000
  used : ∀ g < 16384, k.frames.used g = false

theorem Bare.touched (h : Bare p k) : Touched p 0 k where
  booting := h.booting
  table := fun t => by simp [h.table t]
  entry := fun m => by
    rw [if_neg (by simp)]
    exact entry_eq_none_iff.mpr (h.table _)
  placement := h.placement
  used := h.used

theorem Touched.step (h : Touched p n k) (hn : n < 256) (hp : p < 0x4000000) :
    ∃ k', Kernel.touchPage (0x1000 * (786432 + n)) k = .ok k' ∧ Touched p (n + 1) k' := by
  have hplace := h.placement
  have hroom : k.placementAddr + 0x2000 < 4294967296 := by
    rw [hplace]
    split <;> omega
  obtain ⟨k', hbody, hhas⟩ := h.booting.touchPage (n := 786432 + n) hroom
  have hidx : (786432 + n) / 1024 = 768 := by omega
  -- the table is made in the first iteration
  have hmakes : k.table ((786432 + n) / 1024) = 0 ↔ n = 0 := by
    rw [hidx, h.table]
    simp
  refine ⟨k', hbody, hhas.booting, fun t => ?_, fun m => ?_, ?_, ?_⟩
  · rw [hhas.table, h.table, hidx]
    omega
  · rw [hhas.entry, h.entry, if_congr (and_congr hmakes Iff.rfl) rfl rfl, hidx]
    by_cases hm : m / 1024 = 768
    · by_cases hzero : n = 0 <;> simp [hm, hzero]
    · simp [hm]
  · rw [hhas.placement, hplace]
    simp only [hmakes]
    by_cases hzero : n = 0 <;> simp [hzero]
  · rw [hhas.frames]
    exact h.used

theorem Bare.touchLoop (h : Bare p k) (hp : p < 0x4000000) :
    ∃ k', Touched p 256 k' ∧ ∀ fuel, 256 < fuel →
      Kernel.pageLoop (fun _ => kheapStart + kheapInitialSize) Kernel.touchPage fuel kheapStart k =
        .ok k' := by
  have hstart : kheapStart = 0x1000 * 786432 := rfl
  have hbound : kheapStart + kheapInitialSize = 0x1000 * 786688 := rfl
  obtain ⟨n, k', hle, hinv, hexit, hloop⟩ := pageLoop_spec
    (fun _ => kheapStart + kheapInitialSize) Kernel.touchPage kheapStart 256 (Touched p)
    (fun n k htouched hlt => by
      have hn : n < 256 := by omega
      refine ⟨hn, by omega, ?_⟩
      rw [hstart, ← Nat.mul_add]
      exact htouched.step hn hp)
    h.touched (Nat.zero_le 256)
  obtain rfl : n = 256 := by omega
  exact ⟨k', hinv, fun fuel hfuel => hloop fuel (by omega)⟩

/-- The number of page tables that the first `n` pages need. -/
def tablesFor (n : Nat) : Nat := (n + 1023) / 1024

/-- After `n` iterations of the identity loop. -/
structure Identity (b n : Nat) (k : Kernel) : Prop where
  booting : Booting k
  table : ∀ t, k.table t = 0 ↔ tablesFor n ≤ t ∧ t ≠ 768
  low : ∀ m, m < n → k.entry m = some (Frames.framed Page.zero 0 m)
  high : ∀ m, n ≤ m → k.entry m =
    if m / 1024 < tablesFor n ∨ m / 1024 = 768 then some Page.zero else none
  placement : k.placementAddr = b + 0x2000 * tablesFor n
  used : ∀ g < 16384, k.frames.used g = decide (g < n)

theorem Touched.identity (h : Touched p 256 k) : Identity (p + 0x2000) 0 k where
  booting := h.booting
  table := fun t => by
    rw [h.table]
    simp [tablesFor]
  low := fun m hm => absurd hm (Nat.not_lt_zero m)
  high := fun m _ => by
    rw [h.entry]
    simp [tablesFor]
  placement := h.placement
  used := h.used

theorem Identity.step {b : Nat} (h : Identity b n k) (hn : n < 12400) (hb : b < 0x4000000) :
    ∃ k', Kernel.mapPage (0x1000 * n) k = .ok k' ∧ Identity b (n + 1) k' := by
  have hplace := h.placement
  have hcount : tablesFor n ≤ 13 := by unfold tablesFor; omega
  have hbare : k.entry n = none ∨ k.entry n = some Page.zero := by
    rw [h.high n (Nat.le_refl n)]
    split
    · exact Or.inr rfl
    · exact Or.inl rfl
  obtain ⟨k', hbody, hmaps⟩ := h.booting.mapPage (by omega) hbare (show n < 65536 by omega)
    (fun g hg => h.used g (by omega))
  -- a table is made exactly when `n` is the first page of one
  have hmakes : k.table (n / 1024) = 0 ↔ n % 1024 = 0 := by
    rw [h.table]
    unfold tablesFor
    omega
  have hsucc : tablesFor (n + 1) = if n % 1024 = 0 then tablesFor n + 1 else tablesFor n := by
    unfold tablesFor
    split <;> omega
  have hindex : tablesFor (n + 1) = n / 1024 + 1 := by
    unfold tablesFor
    omega
  refine ⟨k', hbody, hmaps.booting, fun t => ?_, fun m hm => ?_, fun m hm => ?_, ?_, fun g hg => ?_⟩
  · rw [hmaps.table, h.table, hindex]
    unfold tablesFor
    omega
  · rw [hmaps.entry]
    by_cases hmn : m = n
    · rw [if_pos hmn, hmn]
    · have hold : ¬ (k.table (n / 1024) = 0 ∧ m / 1024 = n / 1024) := by
        rw [hmakes]
        omega
      rw [if_neg hmn, if_neg hold, h.low m (by omega)]
  · have hhigh := h.high m (by omega)
    rw [hmaps.entry, if_neg (by omega), hhigh]
    simp only [hmakes, hsucc]
    by_cases hfirst : n % 1024 = 0
    · simp only [hfirst, true_and, if_true]
      unfold tablesFor
      by_cases hm' : m / 1024 = n / 1024
      · rw [if_pos hm', if_pos (by omega)]
      · rw [if_neg hm']
        exact if_congr (by omega) rfl rfl
    · simp only [hfirst, false_and, if_false]
  · rw [hmaps.placement, hplace, hsucc]
    simp only [hmakes]
    by_cases hfirst : n % 1024 = 0
    · simp only [hfirst, if_true]
      omega
    · simp only [hfirst, if_false]
  · rw [hmaps.used, h.used g hg, ← Bool.decide_or, decide_eq_decide]
    omega

/-- **The identity loop** returns, and then every page up to `placement_addr` is mapped. -/
theorem Identity.mapLoop {b : Nat} (h : Identity b 0 k) (hb : b ≤ 0x3005000) :
    ∃ n k', n ≤ 12400 ∧ Identity b n k' ∧ k'.placementAddr + 0x1000 ≤ 0x1000 * n ∧
      ∀ fuel, 12400 < fuel →
        Kernel.pageLoop (fun k => add32 k.placementAddr Frames.frameSize) Kernel.mapPage fuel 0 k =
          .ok k' := by
  have hbound : ∀ {n k}, Identity b n k → n ≤ 12400 →
      add32 k.placementAddr Frames.frameSize = b + 0x2000 * tablesFor n + 0x1000 := by
    intro n k hinv hn
    have hcount : tablesFor n ≤ 13 := by unfold tablesFor; omega
    rw [hinv.placement]
    exact add32_eq (by unfold Frames.frameSize; omega)
  obtain ⟨n, k', hle, hinv, hexit, hloop⟩ := pageLoop_spec
    (fun k => add32 k.placementAddr Frames.frameSize) Kernel.mapPage 0 12400
    (fun n k => Identity b n k ∧ n ≤ 12400)
    (fun n k ⟨hinv, hn⟩ hlt => by
      rw [hbound hinv hn] at hlt
      have hlt' : n < 12400 := by
        unfold tablesFor at hlt
        omega
      refine ⟨hlt', by omega, ?_⟩
      obtain ⟨k', hbody, hinv'⟩ := hinv.step hlt' (by omega)
      rw [Nat.zero_add]
      exact ⟨k', hbody, hinv', hlt'⟩)
    ⟨h, Nat.zero_le 12400⟩ (Nat.zero_le 12400)
  rw [hbound hinv.1 hle, ← hinv.1.placement] at hexit
  exact ⟨n, k', hle, hinv.1, by omega, fun fuel hfuel => by simpa using hloop fuel (by omega)⟩

/-- After `n` iterations of the identity loop and `j` of the last one. -/
structure HeapPages (b n j : Nat) (k : Kernel) : Prop where
  booting : Booting k
  table : ∀ t, k.table t = 0 ↔ tablesFor n ≤ t ∧ t ≠ 768
  low : ∀ m, m < n → k.entry m = some (Frames.framed Page.zero 0 m)
  heap : ∀ i < j, k.entry (786432 + i) = some (Frames.framed Page.zero 0 (n + i))
  rest : ∀ m, n ≤ m → m < 786432 ∨ 786432 + j ≤ m → k.entry m =
    if m / 1024 < tablesFor n ∨ m / 1024 = 768 then some Page.zero else none
  placement : k.placementAddr = b + 0x2000 * tablesFor n
  used : ∀ g < 16384, k.frames.used g = decide (g < n + j)

theorem Identity.heapPages {b : Nat} (h : Identity b n k) : HeapPages b n 0 k where
  booting := h.booting
  table := h.table
  low := h.low
  heap := fun i hi => absurd hi (Nat.not_lt_zero i)
  rest := fun m hm _ => h.high m hm
  placement := h.placement
  used := h.used

theorem HeapPages.step {b j : Nat} (h : HeapPages b n j k) (hj : j < 256) (hn : n ≤ 12400)
    (hb : b < 0x4000000) :
    ∃ k', Kernel.mapPage (0x1000 * (786432 + j)) k = .ok k' ∧ HeapPages b n (j + 1) k' := by
  have hplace := h.placement
  have hcount : tablesFor n ≤ 13 := by unfold tablesFor; omega
  have hbare := h.rest (786432 + j) (by omega) (by omega)
  rw [if_pos (by omega)] at hbare
  obtain ⟨k', hbody, hmaps⟩ := h.booting.mapPage (by omega) (Or.inr hbare)
    (show n + j < 65536 by omega) (fun g hg => h.used g (by omega))
  -- the table is there
  have hthere : k.table ((786432 + j) / 1024) ≠ 0 := fun hzero => by
    rw [h.table] at hzero
    omega
  have hentry : ∀ m, m ≠ 786432 + j → k'.entry m = k.entry m := by
    intro m hm
    rw [hmaps.entry, if_neg hm, if_neg (fun hcon => hthere hcon.1)]
  refine ⟨k', hbody, hmaps.booting, fun t => ?_, fun m hm => ?_, fun i hi => ?_,
      fun m hm hout => ?_,
    ?_, fun g hg => ?_⟩
  · rw [hmaps.table, h.table]
    omega
  · rw [hentry m (by omega), h.low m hm]
  · by_cases hij : i = j
    · rw [hmaps.entry, if_pos (by rw [hij]), hij]
    · rw [hentry _ (by omega), h.heap i (by omega)]
  · rw [hentry m (by omega), h.rest m hm (by omega)]
  · rw [hmaps.placement, if_neg hthere, hplace]
  · rw [hmaps.used, h.used g hg, ← Bool.decide_or, decide_eq_decide]
    omega

theorem HeapPages.mapLoop {b : Nat} (h : HeapPages b n 0 k) (hn : n ≤ 12400) (hb : b < 0x4000000) :
    ∃ k', HeapPages b n 256 k' ∧ ∀ fuel, 256 < fuel →
      Kernel.pageLoop (fun _ => kheapStart + kheapInitialSize) Kernel.mapPage fuel kheapStart k =
        .ok k' := by
  have hstart : kheapStart = 0x1000 * 786432 := rfl
  have hbound : kheapStart + kheapInitialSize = 0x1000 * 786688 := rfl
  obtain ⟨j, k', hle, hinv, hexit, hloop⟩ := pageLoop_spec
    (fun _ => kheapStart + kheapInitialSize) Kernel.mapPage kheapStart 256 (HeapPages b n)
    (fun j k hpages hlt => by
      have hj : j < 256 := by omega
      refine ⟨hj, by omega, ?_⟩
      rw [hstart, ← Nat.mul_add]
      exact hpages.step hj hn hb)
    h (Nat.zero_le 256)
  obtain rfl : j = 256 := by omega
  exact ⟨k', hinv, fun fuel hfuel => hloop fuel (by omega)⟩

end Loops

/-! ### From start to end -/

section Init

variable {k : Kernel}

theorem setupFrames_eq (hkheap : k.kheap = 0) (hplace : k.placementAddr + 2048 < 4294967296) :
    Kernel.setupFrames k = .ok { k with
      placementAddr := k.placementAddr + 2048
      mem := memset k.placementAddr 0 2048 k.mem
      frameAllocationsAddr := k.placementAddr
      frames := ⟨fun sec => read32 (memset k.placementAddr 0 2048 k.mem)
          (k.placementAddr + 4 * sec),
        65536⟩ } := by
  have hsize : 65536 / Frames.sectionSize = 2048 := rfl
  have hframes : Frames.physicalMemSize / Frames.frameSize = 65536 := rfl
  have hmalloc := kmallocInt_plain (Kernel.alloc 0) 2048 false hkheap hplace
  unfold Kernel.setupFrames Kernel.kmalloc
  simp only [hframes, hsize]
  rw [hmalloc, ok_bind]

theorem setupDirectory_eq (hkheap : k.kheap = 0) (hge : 4096 ≤ k.placementAddr)
    (hlt : k.placementAddr + 4096 + 0x2000 < 4294967296) :
    Kernel.setupDirectory k = .ok { k with
      placementAddr := (k.placementAddr / 4096 + 1) * 4096 + 0x2000
      mem := memset ((k.placementAddr / 4096 + 1) * 4096) 0 0x2000 k.mem
      kernelDirectory := (k.placementAddr / 4096 + 1) * 4096
      directory := ⟨fun _ => 0, fun _ => 0⟩ } := by
  have hmalloc := kmallocInt_of_no_heap (Kernel.alloc 0) Kernel.sizeofPageDirectory false hkheap hge
    hlt
  unfold Kernel.setupDirectory Kernel.kmallocA
  rw [hmalloc, ok_bind]
  rfl

theorem read32_memset_zero {s n a : Nat} (m : Mem) (hlo : s ≤ a) (hhi : a + 4 ≤ s + n) :
    read32 (memset s 0 n m) a = 0 := by
  unfold read32 memset
  rw [if_pos (by omega), if_pos (by omega), if_pos (by omega), if_pos (by omega)]
  rfl

theorem setup_bare (hkheap : k.kheap = 0) (halign : k.placementAddr % 0x1000 = 0)
    (hlo : 0x100000 ≤ k.placementAddr) (hhi : k.placementAddr ≤ 0x3000000) :
    ∃ k1 k2, Kernel.setupFrames k = .ok k1 ∧ Kernel.setupDirectory k1 = .ok k2 ∧
      Bare (k.placementAddr + 0x3000) k2 := by
  obtain ⟨k1, hk1⟩ : ∃ k1 : Kernel, k1 = { k with
      placementAddr := k.placementAddr + 2048
      mem := memset k.placementAddr 0 2048 k.mem
      frameAllocationsAddr := k.placementAddr
      frames := ⟨fun sec => read32 (memset k.placementAddr 0 2048 k.mem)
          (k.placementAddr + 4 * sec),
        65536⟩ } := ⟨_, rfl⟩
  have hplace1 : k1.placementAddr = k.placementAddr + 2048 := by rw [hk1]
  have hkheap1 : k1.kheap = 0 := by rw [hk1]; exact hkheap
  have hdir := setupDirectory_eq hkheap1 (by omega) (by omega)
  rw [hplace1, show ((k.placementAddr + 2048) / 4096 + 1) * 4096 =
      k.placementAddr + 0x1000 by omega,
    Nat.add_assoc] at hdir
  obtain ⟨k2, hk2⟩ : ∃ k2 : Kernel, k2 = { k1 with
      placementAddr := k.placementAddr + (0x1000 + 0x2000)
      mem := memset (k.placementAddr + 0x1000) 0 0x2000 k1.mem
      kernelDirectory := k.placementAddr + 0x1000
      directory := ⟨fun _ => 0, fun _ => 0⟩ } := ⟨_, rfl⟩
  have htable : ∀ t, k2.table t = 0 := fun t => by rw [hk2]; rfl
  have hplace2 : k2.placementAddr = k.placementAddr + 0x3000 := by rw [hk2]
  refine ⟨k1, k2, by rw [setupFrames_eq hkheap (by omega), hk1], by rw [hdir, hk2],
    ⟨?_, ?_, ?_, ?_, ?_, ?_, ?_, ?_⟩, htable, hplace2, fun g hg => ?_⟩
  · rw [hk2]
    exact hkheap1
  · rw [hk2, hk1]
  · exact fun t u _ ht => absurd (htable t) ht
  · exact fun t ht => absurd (htable t) ht
  · intro t
    rw [htable, if_pos rfl, hk2]
  · rw [hplace2]
    omega
  · have hbitmap : k2.frameAllocationsAddr = k.placementAddr := by rw [hk2, hk1]
    omega
  · have hdirectory : k2.kernelDirectory = k.placementAddr + 0x1000 := by rw [hk2]
    omega
  · -- the word of the frame is among the bytes that were cleared
    have hword : k2.frames.frameAllocations (g / 32) = 0 := by
      rw [hk2, hk1]
      exact read32_memset_zero _ (by omega) (by omega)
    unfold Frames.used Bitmap.test Frames.sectionSize
    rw [hword, Nat.zero_testBit]

/-- **`init_paging` returns**, however often its loops may run from some number on, with every page
up to `placement_addr` mapped to itself and the heap's pages to the frames that follow. -/
theorem initPaging_eq (hkheap : k.kheap = 0) (halign : k.placementAddr % 0x1000 = 0)
    (hlo : 0x100000 ≤ k.placementAddr) (hhi : k.placementAddr ≤ 0x3000000) :
    ∃ n k', HeapPages (k.placementAddr + 0x5000) n 256 k' ∧ n ≤ 12400 ∧
      k'.placementAddr + 0x1000 ≤ 0x1000 * n ∧ ∀ fuel, 12400 < fuel → Kernel.initPaging fuel k =
        .ok { Kernel.insertHole 0xC0081000 (unlistedHeap k') with kheap := k'.placementAddr } := by
  obtain ⟨k1, k2, hframes, hdir, hbare⟩ := setup_bare hkheap halign hlo hhi
  obtain ⟨k3, htouched, hloop1⟩ := hbare.touchLoop (by omega)
  have hfirst := htouched.identity
  rw [Nat.add_assoc, show 0x3000 + 0x2000 = 0x5000 by decide] at hfirst
  obtain ⟨n, k4, hn, hidentity, hbound, hloop2⟩ := hfirst.mapLoop (by omega)
  obtain ⟨k5, hpages, hloop3⟩ := hidentity.heapPages.mapLoop hn (by omega)
  refine ⟨n, k5, hpages, hn, ?_, fun fuel hfuel => ?_⟩
  · rw [hpages.placement, ← hidentity.placement]
    exact hbound
  · unfold Kernel.initPaging
    rw [hframes, ok_bind, hdir, ok_bind, hloop1 fuel (by omega), ok_bind, hloop2 fuel hfuel,
        ok_bind,
      hloop3 fuel (by omega), ok_bind, createKernelHeap_eq hpages.booting.kheap]

end Init

end Vulcanos
