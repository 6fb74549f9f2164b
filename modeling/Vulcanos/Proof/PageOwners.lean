import Vulcanos.Proof.HeapPages

/-!
# Which page a frame belongs to

`alloc` reaches the page entries in two ways only: `get_page` clears the entries of a new table, and
`alloc_frame` gives one entry a frame. What both keep, every call of `alloc` keeps, whatever the
heap looks like. One such property is that no two present entries have the same frame.
-/

namespace Vulcanos

open Word

/-! ### The rule for the page entries -/

/-- A property of the page tables and of the bitmap that a new table and a frame for a page keep. -/
structure KeepsEntries (inv : Kernel → Prop) : Prop where
  congr : ∀ k k', inv k → k'.directory = k.directory → k'.pages = k.pages →
    k'.frames = k.frames → inv k'
  table : ∀ k t tab tmp, inv k → inv (Kernel.installTable t tab tmp k)
  frame : ∀ k k' p isSuper isWrite, inv k → Kernel.allocFrameAt p isSuper isWrite k = .ok k' →
    inv k'

section Rule

variable {inv : Kernel → Prop} {k k' : Kernel} {serve : Kernel.Allocator}

theorem KeepsEntries.getPage (hkeeps : KeepsEntries inv)
    (hserve : ∀ sz align k p k', inv k → serve sz align k = .ok (p, k') → inv k')
    {address make p : Nat} (hinv : inv k)
    (hget : Kernel.getPage serve address make k = .ok (p, k')) : inv k' := by
  unfold Kernel.getPage at hget
  split at hget
  · obtain ⟨-, rfl⟩ := Prod.mk.inj (Except.ok.inj hget)
    exact hinv
  · split at hget
    · simp only [bind_eq_ok, Except.ok.injEq, Prod.mk.injEq] at hget
      obtain ⟨⟨table, tmp, k1⟩, hkmalloc, -, rfl⟩ := hget
      refine hkeeps.table _ _ _ _ ?_
      unfold Kernel.kmallocAp Kernel.kmallocInt at hkmalloc
      split at hkmalloc
      · simp only [bind_eq_ok, Except.ok.injEq, Prod.mk.injEq] at hkmalloc
        obtain ⟨⟨addr, k2⟩, hok, -, -, rfl⟩ := hkmalloc
        exact hserve _ _ _ _ _ hinv hok
      · simp only [Except.ok.injEq, Prod.mk.injEq] at hkmalloc
        obtain ⟨-, -, rfl⟩ := hkmalloc
        exact hkeeps.congr _ _ hinv rfl rfl rfl
    · obtain ⟨-, rfl⟩ := Prod.mk.inj (Except.ok.inj hget)
      exact hinv

theorem KeepsEntries.expandLoop (hkeeps : KeepsEntries inv)
    (hserve : ∀ sz align k p k', inv k → serve sz align k = .ok (p, k') → inv k')
    {newSize n it : Nat} (hinv : inv k)
    (hloop : Kernel.expandLoop serve newSize n it k = .ok k') : inv k' := by
  induction n generalizing it k with
  | zero =>
      obtain rfl := Except.ok.inj hloop
      exact hinv
  | succ n ih =>
      rw [Kernel.expandLoop] at hloop
      split at hloop
      · simp only [bind_eq_ok] at hloop
        obtain ⟨⟨page, k1⟩, hget, k2, hframe, hrest⟩ := hloop
        exact ih (hkeeps.frame _ _ _ _ _ (hkeeps.getPage hserve hinv hget) hframe) hrest
      · obtain rfl := Except.ok.inj hloop
        exact hinv

/-- **Every call of `alloc`** keeps what new tables and frames keep. -/
theorem KeepsEntries.alloc (hkeeps : KeepsEntries inv) {fuel size pageAlign p : Nat} (hinv : inv k)
    (halloc : Kernel.alloc fuel size pageAlign k = .ok (p, k')) : inv k' := by
  induction fuel generalizing size pageAlign p k k' with
  | zero => simp [Kernel.alloc] at halloc
  | succ fuel ih =>
      rw [Kernel.alloc] at halloc
      dsimp only at halloc
      split at halloc
      · rename_i it _
        have hres := (Except.ok.inj halloc).symm
        have hsame := samePaging_carveBlock it size (add32 size (sizeofHeader + sizeofFooter))
          pageAlign k
        rw [← hres] at hsame
        exact hkeeps.congr _ _ hinv hsame.directory hsame.pages hsame.frames
      · simp only [bind_eq_ok] at halloc
        obtain ⟨k1, hexpand, hretry⟩ := halloc
        obtain ⟨-, -, k2, hloop, rfl⟩ := expand_eq hexpand
        have hinv2 := hkeeps.expandLoop (fun _ _ _ _ _ hinv hok => ih hinv hok) hinv hloop
        have hinv3 := fun e => hkeeps.congr k2 (withEnd e k2) hinv2 rfl rfl rfl
        have hsame := fun e => samePaging_growHoles (sub32 k.heap.endAddress k.heap.startAddress)
          k.heap.endAddress (withEnd e k2)
        exact ih (hkeeps.congr _ _ (hinv3 _) (hsame _).directory (hsame _).pages (hsame _).frames)
          hretry

end Rule

/-! ### Every frame has one page -/

/-- The address is that of an entry in a page table. -/
def Kernel.HasEntryAt (x : Nat) (k : Kernel) : Prop :=
  ∃ n, k.table (n / 1024) ≠ 0 ∧ x = k.entryAddr n

/-- A present entry of a page table has one of the frames, which is marked as used, and no other
present entry has it. -/
structure FramesOwned (k : Kernel) : Prop where
  lt : ∀ x, k.HasEntryAt x → (k.pages x).pr = 1 → (k.pages x).fr < 65536
  used : ∀ x, k.HasEntryAt x → (k.pages x).pr = 1 → k.frames.used (k.pages x).fr = true
  inj : ∀ x y, k.HasEntryAt x → k.HasEntryAt y → (k.pages x).pr = 1 → (k.pages y).pr = 1 →
    (k.pages x).fr = (k.pages y).fr → x = y

/-- As long as there are frames left. -/
def FramesInv (k : Kernel) : Prop :=
  k.frames.nframes = 65536 ∧ ((∃ g < 65536, k.frames.used g = false) → FramesOwned k)

section Owned

variable {k k' : Kernel} {p f t tab tmp x : Nat} {page : Page}

theorem hasEntryAt_congr (hdir : k'.directory = k.directory) :
    k'.HasEntryAt x ↔ k.HasEntryAt x := by
  unfold Kernel.HasEntryAt Kernel.entryAddr Kernel.table
  rw [hdir]

theorem hasEntryAt_installTable (hx : (Kernel.installTable t tab tmp k).HasEntryAt x)
    (hpr : ((Kernel.installTable t tab tmp k).pages x).pr = 1) :
    k.HasEntryAt x ∧ (Kernel.installTable t tab tmp k).pages x = k.pages x := by
  have hout : ¬ (tab ≤ x ∧ x < tab + 0x1000) := by
    intro hin
    unfold Kernel.installTable at hpr
    simp only at hpr
    rw [if_pos hin] at hpr
    simp [Page.zero] at hpr
  obtain ⟨n, htable, haddr⟩ := hx
  unfold Kernel.entryAddr at haddr
  rw [table_installTable] at htable haddr
  split at haddr
  · exact absurd ⟨by omega, by omega⟩ hout
  · rename_i hne
    rw [if_neg hne] at htable
    exact ⟨⟨n, htable, haddr⟩, if_neg hout⟩

theorem FramesOwned.installTable (h : FramesOwned k) (t tab tmp : Nat) :
    FramesOwned (Kernel.installTable t tab tmp k) := by
  refine ⟨fun x hx hpr => ?_, fun x hx hpr => ?_, fun x y hx hy hpr hpr' hfr => ?_⟩
  · obtain ⟨hx', hsame⟩ := hasEntryAt_installTable hx hpr
    rw [hsame] at hpr ⊢
    exact h.lt x hx' hpr
  · obtain ⟨hx', hsame⟩ := hasEntryAt_installTable hx hpr
    rw [hsame] at hpr ⊢
    exact h.used x hx' hpr
  · obtain ⟨hx', hsame⟩ := hasEntryAt_installTable hx hpr
    obtain ⟨hy', hsame'⟩ := hasEntryAt_installTable hy hpr'
    rw [hsame] at hpr hfr
    rw [hsame'] at hpr' hfr
    exact h.inj x y hx' hy' hpr hpr' hfr

/-- The frame that an entry gets was not used, so no other entry has it. -/
theorem FramesOwned.allocFrame (h : FramesOwned k) (hclear : k.frames.used f = false)
    (hlt : f < 65536) (hfr : page.fr = f) (hdir : k'.directory = k.directory)
    (hpages : k'.pages = Function.update k.pages p page)
    (hused : ∀ g, k'.frames.used g = (decide (g = f) || k.frames.used g)) : FramesOwned k' := by
  have hother : ∀ x, k.HasEntryAt x → (k.pages x).pr = 1 → (k.pages x).fr ≠ f := by
    intro x hx hpr heq
    have hset := h.used x hx hpr
    rw [heq, hclear] at hset
    simp at hset
  refine ⟨fun x hx hpr => ?_, fun x hx hpr => ?_, fun x y hx hy hpr hpr' heq => ?_⟩
  · rw [hasEntryAt_congr hdir] at hx
    by_cases hxp : x = p
    · rw [hpages, hxp, Function.update_self, hfr]
      exact hlt
    · rw [hpages, Function.update_of_ne hxp] at hpr ⊢
      exact h.lt x hx hpr
  · rw [hasEntryAt_congr hdir] at hx
    rw [hused]
    by_cases hxp : x = p
    · rw [hpages, hxp, Function.update_self, hfr]
      simp
    · rw [hpages, Function.update_of_ne hxp] at hpr ⊢
      rw [h.used x hx hpr, Bool.or_true]
  · rw [hasEntryAt_congr hdir] at hx hy
    rw [hpages] at hpr hpr' heq
    by_cases hxp : x = p
    · by_cases hyp : y = p
      · rw [hxp, hyp]
      · rw [hxp, Function.update_self, Function.update_of_ne hyp, hfr] at heq
        rw [Function.update_of_ne hyp] at hpr'
        exact absurd heq.symm (hother y hy hpr')
    · rw [Function.update_of_ne hxp] at hpr heq
      by_cases hyp : y = p
      · rw [hyp, Function.update_self, hfr] at heq
        exact absurd heq (hother x hx hpr)
      · rw [Function.update_of_ne hyp] at hpr' heq
        exact h.inj x y hx hy hpr hpr' heq

theorem FramesInv.congr (h : FramesInv k) (hdir : k'.directory = k.directory)
    (hpages : k'.pages = k.pages) (hframes : k'.frames = k.frames) : FramesInv k' := by
  obtain ⟨hnframes, howned⟩ := h
  refine ⟨by rw [hframes]; exact hnframes, fun hleft => ?_⟩
  rw [hframes] at hleft
  obtain ⟨hlt, hused, hinj⟩ := howned hleft
  refine ⟨fun x hx => ?_, fun x hx => ?_, fun x y hx hy => ?_⟩
  · rw [hasEntryAt_congr hdir] at hx
    rw [hpages]
    exact hlt x hx
  · rw [hasEntryAt_congr hdir] at hx
    rw [hpages, hframes]
    exact hused x hx
  · rw [hasEntryAt_congr hdir] at hx hy
    rw [hpages]
    exact hinj x y hx hy

/-- **A frame for a page.** -/
theorem FramesInv.allocFrame {isSuper isWrite : Nat} (h : FramesInv k)
    (halloc : Kernel.allocFrameAt p isSuper isWrite k = .ok k') : FramesInv k' := by
  obtain ⟨hnframes, howned⟩ := h
  have hfirst := Frames.firstFrame_spec k.frames
  rw [hnframes] at hfirst
  by_cases hfr : (k.pages p).fr = 0
  · have hlt : k.frames.firstFrame < 2 ^ 20 := Nat.lt_of_le_of_lt hfirst.le (by decide)
    rw [allocFrameAt_of_fr_eq_zero _ _ _ hfr hlt] at halloc
    have hk' := (Except.ok.inj halloc).symm
    have hused : ∀ g, k'.frames.used g =
        (decide (g = k.frames.firstFrame) || k.frames.used g) := by
      intro g
      rw [hk']
      simp only
      rw [Frames.used_setFrame, Frames.frame_mul]
    refine ⟨by rw [hk']; exact hnframes, fun ⟨g, hg, hclear⟩ => ?_⟩
    rw [hused, Bool.or_eq_false_iff] at hclear
    -- there was a frame left before, so the one that was taken is one of them
    have hbelow : k.frames.firstFrame < 65536 := by
      by_contra hge
      have hset := hfirst.below g (Nat.lt_of_lt_of_le hg (Nat.le_of_not_lt hge))
      exact absurd (hclear.2.symm.trans hset) (by decide)
    exact (howned ⟨g, hg, hclear.2⟩).allocFrame (hfirst.clear hbelow) hbelow rfl (by rw [hk'])
      (by rw [hk']) hused
  · unfold Kernel.allocFrameAt at halloc
    rw [Frames.allocFrame_of_fr_ne_zero _ _ hfr] at halloc
    have hk' := (Except.ok.inj halloc).symm
    rw [Function.update_eq_self] at hk'
    rw [hk']
    exact ⟨hnframes, howned⟩

theorem framesInv_keeps : KeepsEntries FramesInv where
  congr := fun _ _ h hdir hpages hframes => h.congr hdir hpages hframes
  table := fun _ t tab tmp h => ⟨h.1, fun hleft => (h.2 hleft).installTable t tab tmp⟩
  frame := fun _ _ _ _ _ h halloc => h.allocFrame halloc

end Owned

end Vulcanos
