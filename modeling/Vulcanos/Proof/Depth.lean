import Vulcanos.HeapGrowth
import Vulcanos.Library.Fuel
import Vulcanos.Proof.HeapPages

/-!
# How deep `alloc` recurses

`alloc` calls itself to try again after an expansion, and for the page tables that the expansion
needs. Only the depth of these calls is bounded in the model, and the bound does not matter once it
is large enough.
-/

namespace Vulcanos

open Memory Word Fuel

section Below

variable {alloc alloc' : Kernel.Allocator}

/-- Wherever the first allocator has the depth it needs, the second one does the same. -/
def AllocBelow (alloc alloc' : Kernel.Allocator) : Prop :=
  ∀ size pageAlign k, Below Stop.outOfFuel (alloc size pageAlign k) (alloc' size pageAlign k)

theorem AllocBelow.getPage (h : AllocBelow alloc alloc') (address make : Nat) (k : Kernel) :
    Below Stop.outOfFuel (Kernel.getPage alloc address make k)
      (Kernel.getPage alloc' address make k) := by
  unfold Kernel.getPage
  split
  · exact Below.refl _
  · split
    · apply Below.bind
      · unfold Kernel.kmallocAp Kernel.kmallocInt
        split
        · exact (h _ _ k).bind fun _ => Below.refl _
        · exact Below.refl _
      · exact fun _ => Below.refl _
    · exact Below.refl _

theorem AllocBelow.expandLoop (h : AllocBelow alloc alloc') (newSize n it : Nat) (k : Kernel) :
    Below Stop.outOfFuel (Kernel.expandLoop alloc newSize n it k)
      (Kernel.expandLoop alloc' newSize n it k) := by
  induction n generalizing it k with
  | zero => exact Below.refl _
  | succ n ih =>
      rw [Kernel.expandLoop, Kernel.expandLoop]
      split
      · apply (h.getPage _ 1 k).bind
        rintro ⟨page, k1⟩
        apply (Below.refl _).bind
        exact fun k2 => ih _ k2
      · exact Below.refl _

theorem AllocBelow.expand (h : AllocBelow alloc alloc') (newSize : Nat) (k : Kernel) :
    Below Stop.outOfFuel (Kernel.expand alloc newSize k) (Kernel.expand alloc' newSize k) := by
  unfold Kernel.expand
  apply (Below.refl _).bind
  intro _
  apply (Below.refl _).bind
  intro _
  exact (h.expandLoop _ _ _ k).bind fun _ => Below.refl _

theorem allocBelow_succ (fuel : Nat) :
    AllocBelow (Kernel.alloc fuel) (Kernel.alloc (fuel + 1)) := by
  induction fuel with
  | zero => exact fun _ _ _ => Or.inl rfl
  | succ fuel ih =>
      intro size pageAlign k
      rw [Kernel.alloc, Kernel.alloc]
      split
      · exact Below.refl _
      · exact (ih.expand _ k).bind fun k1 => ih size pageAlign _

theorem allocBelow_of_le {fuel fuel' : Nat} (hle : fuel ≤ fuel') :
    AllocBelow (Kernel.alloc fuel) (Kernel.alloc fuel') := fun size pageAlign k =>
  below_of_le (r := fun fuel => Kernel.alloc fuel size pageAlign k)
    (fun fuel => allocBelow_succ fuel size pageAlign k) hle

/-- **Depth is no matter**: what `alloc` has returned it returns with more levels as well. -/
theorem alloc_of_le {fuel fuel' size pageAlign : Nat} {k : Kernel}
    (h : Kernel.alloc fuel size pageAlign k ≠ .error .outOfFuel) (hle : fuel ≤ fuel') :
    Kernel.alloc fuel' size pageAlign k = Kernel.alloc fuel size pageAlign k :=
  (allocBelow_of_le hle size pageAlign k).eq h

end Below

def Kernel.heapLen (k : Kernel) : Nat := sub32 k.heap.endAddress k.heap.startAddress

/-- What `alloc` asks `expand` for. -/
def Kernel.askedLen (size : Nat) (k : Kernel) : Nat :=
  add32 k.heapLen (add32 size (sizeofHeader + sizeofFooter))

/-! ### Requests for page tables -/

section Asks

variable {alloc : Kernel.Allocator} {newSize n it : Nat} {k k' k'' : Kernel}

/-- The page loop of `expand` asks the heap for a page table in the state `k'`. -/
def LoopAsks (alloc : Kernel.Allocator) (newSize : Nat) : Nat → Nat → Kernel → Kernel → Prop
  | 0, _, _, _ => False
  | n + 1, it, k, k' =>
      it < newSize ∧
        (Kernel.lookupPage (add32 k.heap.startAddress it) k = 0 ∧ k.kheap ≠ 0 ∧ k' = k ∨
          ∃ page k1 k2,
            Kernel.getPage alloc (add32 k.heap.startAddress it) 1 k = .ok (page, k1) ∧
            Kernel.allocFrameAt page (if k1.heap.supervisor ≠ 0 then 1 else 0)
              (if k1.heap.readonly ≠ 0 then 0 else 1) k1 = .ok k2 ∧
            LoopAsks alloc newSize n (add32 it 0x1000) k2 k')

/-- Everything but page entries and frames is as before. -/
structure SameHeap (k k' : Kernel) : Prop where
  kheap : k'.kheap = k.kheap
  heap : k'.heap = k.heap
  mem : k'.mem = k.mem
  directory : k'.directory = k.directory
  nframes : k'.frames.nframes = k.frames.nframes

theorem SameHeap.refl (k : Kernel) : SameHeap k k := ⟨rfl, rfl, rfl, rfl, rfl⟩

theorem SameHeap.trans (h : SameHeap k k') (h' : SameHeap k' k'') : SameHeap k k'' :=
  ⟨h'.kheap.trans h.kheap, h'.heap.trans h.heap, h'.mem.trans h.mem,
    h'.directory.trans h.directory, h'.nframes.trans h.nframes⟩

theorem SameHeap.lookupPage (h : SameHeap k k') (a : Nat) :
    Kernel.lookupPage a k' = Kernel.lookupPage a k := lookupPage_congr h.directory a

theorem sameHeap_allocFrameAt {page isSuper isWrite : Nat}
    (h : Kernel.allocFrameAt page isSuper isWrite k = .ok k') : SameHeap k k' := by
  unfold Kernel.allocFrameAt at h
  simp only [bind_eq_ok, Except.ok.injEq] at h
  obtain ⟨r, hr, rfl⟩ := h
  exact ⟨rfl, rfl, rfl, rfl, Frames.nframes_of_allocFrame hr⟩

theorem findSmallestHole_congr (hmem : k'.mem = k.mem) (hheap : k'.heap = k.heap)
    (size pageAlign : Nat) :
    Kernel.findSmallestHole size pageAlign k' = Kernel.findSmallestHole size pageAlign k := by
  have hfrom : ∀ n it, Kernel.findSmallestHoleFrom size pageAlign k' n it =
      Kernel.findSmallestHoleFrom size pageAlign k n it := by
    intro n
    induction n with
    | zero => exact fun _ => rfl
    | succ n ih =>
        intro it
        rw [Kernel.findSmallestHoleFrom, Kernel.findSmallestHoleFrom, hmem, hheap, ih]
  unfold Kernel.findSmallestHole
  rw [hheap]
  exact hfrom _ _

/-- `alloc_frame` never stops: a search without result does not end at the number it is compared
with. -/
theorem allocFrameAt_total (hframes : k.frames.nframes < 4294967296) (page isSuper isWrite : Nat) :
    ∃ k1, Kernel.allocFrameAt page isSuper isWrite k = .ok k1 ∧
      k1.frames.nframes = k.frames.nframes ∧ k1.heap = k.heap := by
  have hle := (Frames.firstFrame_spec k.frames).le
  have hlast : k.frames.firstFrame ≠ 0xFFFFFFFF := by
    unfold Frames.sectionSize at hle
    omega
  obtain ⟨r, hr⟩ : ∃ r, Frames.allocFrame (k.pages page) isSuper isWrite k.frames = .ok r := by
    unfold Frames.allocFrame
    split
    · exact ⟨_, rfl⟩
    · exact ⟨_, if_neg hlast⟩
  have hcall : Kernel.allocFrameAt page isSuper isWrite k =
      .ok { k with pages := Function.update k.pages page r.1, frames := r.2 } := by
    unfold Kernel.allocFrameAt
    rw [hr]
    rfl
  exact ⟨_, hcall, Frames.nframes_of_allocFrame hr, rfl⟩

theorem getPage_of_lookup {address make : Nat} (h : Kernel.lookupPage address k ≠ 0) :
    Kernel.getPage alloc address make k = .ok (Kernel.lookupPage address k, k) := by
  unfold Kernel.getPage
  exact if_pos h

/-- A page without a table is had if the request for the table comes back. -/
theorem getPage_of_error {address : Nat} (h : Kernel.lookupPage address k = 0)
    (hkheap : k.kheap ≠ 0) {e : Stop} (halloc : alloc 0x1000 1 k = .error e) :
    Kernel.getPage alloc address 1 k = .error e := by
  unfold Kernel.getPage Kernel.kmallocAp Kernel.kmallocInt
  rw [if_neg (not_not.mpr h), if_pos Nat.one_ne_zero, if_pos hkheap, show 1 % 256 = 1 from rfl,
    halloc]
  rfl

theorem assertThat_ne_outOfFuel (b : Bool) (desc : String) :
    assertThat b desc ≠ .error .outOfFuel := by
  cases b <;> simp [assertThat]

theorem allocFrameAt_ne_outOfFuel (page isSuper isWrite : Nat) (k : Kernel) :
    Kernel.allocFrameAt page isSuper isWrite k ≠ .error .outOfFuel := by
  unfold Kernel.allocFrameAt Frames.allocFrame
  split
  · simp [bind, Except.bind]
  · dsimp only
    split <;> simp [bind, Except.bind]

theorem getPage_ne_outOfFuel {address : Nat} (h : Kernel.lookupPage address k = 0 → k.kheap ≠ 0 →
    alloc 0x1000 1 k ≠ .error .outOfFuel) :
    Kernel.getPage alloc address 1 k ≠ .error .outOfFuel := by
  unfold Kernel.getPage Kernel.kmallocAp Kernel.kmallocInt
  split
  · exact ok_ne_stop _
  · rename_i hnone
    rw [if_pos Nat.one_ne_zero]
    split
    · rename_i hkheap
      refine bind_ne_stop (bind_ne_stop (h (not_not.mp hnone) hkheap) fun _ _ => ok_ne_stop _) ?_
      exact fun _ _ => ok_ne_stop _
    · exact bind_ne_stop (ok_ne_stop _) fun _ _ => ok_ne_stop _

/-- **The page loop ends** if each of its requests for a table does. -/
theorem expandLoop_ne_outOfFuel (h : ∀ k', LoopAsks alloc newSize n it k k' →
    alloc 0x1000 1 k' ≠ .error .outOfFuel) :
    Kernel.expandLoop alloc newSize n it k ≠ .error .outOfFuel := by
  induction n generalizing it k with
  | zero => exact ok_ne_stop _
  | succ n ih =>
      rw [Kernel.expandLoop]
      split
      · rename_i hit
        refine bind_ne_stop (getPage_ne_outOfFuel fun hnone hkheap =>
          h k ⟨hit, Or.inl ⟨hnone, hkheap, rfl⟩⟩) ?_
        rintro ⟨page, k1⟩ hget
        refine bind_ne_stop (allocFrameAt_ne_outOfFuel _ _ _ k1) fun k2 hframe => ?_
        exact ih fun k' hasks => h k' ⟨hit, Or.inr ⟨page, k1, k2, hget, hframe, hasks⟩⟩
      · exact ok_ne_stop _

/-- **The page loop does not end** if one of its requests for a table never does. -/
theorem LoopAsks.expandLoop_eq {fuel : Nat}
    (hasks : LoopAsks (Kernel.alloc fuel) newSize n it k k')
    (hnever : ∀ fuel', Kernel.alloc fuel' 0x1000 1 k' = .error .outOfFuel) (fuel' : Nat) :
    Kernel.expandLoop (Kernel.alloc fuel') newSize n it k = .error .outOfFuel := by
  induction n generalizing it k with
  | zero => exact absurd hasks id
  | succ n ih =>
      obtain ⟨hit, ⟨hnone, hkheap, rfl⟩ | ⟨page, k1, k2, hget, hframe, hrest⟩⟩ := hasks
      · rw [Kernel.expandLoop, if_pos hit, getPage_of_error hnone hkheap (hnever fuel')]
        rfl
      · rw [Kernel.expandLoop, if_pos hit]
        have hsame := eq_stop_or_eq
          (fun f => (allocBelow_succ f).getPage (add32 k.heap.startAddress it) 1 k)
          (by rw [hget]; exact ok_ne_stop _) fuel'
        rcases hsame with hstop | hok
        · rw [hstop]
          rfl
        · rw [hok, hget, ok_bind]
          dsimp only
          rw [hframe, ok_bind]
          exact ih hrest

/-- The first request of the page loop is made with the heap as it was, at one of the pages that
have no table. -/
theorem LoopAsks.first (hasks : LoopAsks alloc newSize n it k k') (hkheap : k.kheap ≠ 0)
    (hnew : newSize ≤ 0xFFFFF000) :
    ∃ i k0, LoopAsks alloc newSize n it k k0 ∧ SameHeap k k0 ∧ it + 0x1000 * i < newSize ∧
      Kernel.lookupPage (add32 k.heap.startAddress (it + 0x1000 * i)) k = 0 := by
  induction n generalizing it k with
  | zero => exact absurd hasks id
  | succ n ih =>
      obtain ⟨hit, hrest⟩ := hasks
      by_cases hnone : Kernel.lookupPage (add32 k.heap.startAddress it) k = 0
      · exact ⟨0, k, ⟨hit, Or.inl ⟨hnone, hkheap, rfl⟩⟩, SameHeap.refl k, hit, hnone⟩
      · rcases hrest with ⟨hnone', -⟩ | ⟨page, k1, k2, hget, hframe, hrest⟩
        · exact absurd hnone' hnone
        · rw [getPage_of_lookup hnone] at hget
          obtain ⟨rfl, rfl⟩ := Prod.mk.inj (Except.ok.inj hget)
          have hsame := sameHeap_allocFrameAt hframe
          have hnext : add32 it 0x1000 = it + 0x1000 := add32_eq (by omega)
          obtain ⟨i, k0, hasks0, hsame0, hlt, hmissing⟩ :=
            ih hrest (by rw [hsame.kheap]; exact hkheap)
          rw [hnext] at hlt hmissing
          rw [hsame.heap, hsame.lookupPage, show it + 0x1000 + 0x1000 * i =
            it + 0x1000 * (i + 1) by omega] at hmissing
          exact ⟨i + 1, k0, ⟨hit, Or.inr ⟨_, _, k2, getPage_of_lookup hnone, hframe, hasks0⟩⟩,
            hsame.trans hsame0, by omega, hmissing⟩

/-- A page loop that comes to a page without a table does not end if no request for a table does
with the heap as it is. -/
theorem expandLoop_of_missing {i : Nat} (hkheap : k.kheap ≠ 0) (hframes : k.frames.nframes = 65536)
    (hnew : newSize ≤ 0xFFFFF000) (hlt : it + 0x1000 * i < newSize) (hn : i < n)
    (hmissing : Kernel.lookupPage (add32 k.heap.startAddress (it + 0x1000 * i)) k = 0)
    (hnever : ∀ k', SameHeap k k' → alloc 0x1000 1 k' = .error .outOfFuel) :
    Kernel.expandLoop alloc newSize n it k = .error .outOfFuel := by
  induction n generalizing it k i with
  | zero => omega
  | succ n ih =>
      have hit : it < newSize := by omega
      rw [Kernel.expandLoop, if_pos hit]
      by_cases hnone : Kernel.lookupPage (add32 k.heap.startAddress it) k = 0
      · rw [getPage_of_error hnone hkheap (hnever k (SameHeap.refl k))]
        rfl
      · cases i with
        | zero => exact absurd hmissing hnone
        | succ i =>
            rw [Nat.mul_succ, Nat.add_comm (0x1000 * i), ← Nat.add_assoc] at hlt hmissing
            have hnext : add32 it 0x1000 = it + 0x1000 := add32_eq (by omega)
            obtain ⟨k2, hframe, -⟩ := allocFrameAt_total (k := k) (by rw [hframes]; decide)
              (Kernel.lookupPage (add32 k.heap.startAddress it) k)
              (if k.heap.supervisor ≠ 0 then 1 else 0) (if k.heap.readonly ≠ 0 then 0 else 1)
            have hsame := sameHeap_allocFrameAt hframe
            rw [getPage_of_lookup hnone, ok_bind]
            dsimp only
            rw [hframe, ok_bind, hnext]
            refine ih (i := i) (by rw [hsame.kheap]; exact hkheap)
              (by rw [hsame.nframes]; exact hframes) (by omega) (by omega) ?_
              fun k' hsame' => hnever k' (hsame.trans hsame')
            rw [hsame.heap, hsame.lookupPage]
            exact hmissing

end Asks

/-! ### The bounds of the heap -/

/-- The heap that `init_paging` has created, at least as long as `HEAP_MIN_SIZE`, and all of the
frames. -/
structure Spans (k : Kernel) : Prop where
  kheap : k.kheap ≠ 0
  nframes : k.frames.nframes = 65536
  start : k.heap.startAddress = 0xC0081000
  max : k.heap.maxAddress = 0xCFFFF000
  lo : 0xC0081000 + heapMinSize ≤ k.heap.endAddress
  hi : k.heap.endAddress ≤ 0xCFFFF000

/-- A request for so little that nothing wraps when the heap is expanded for it. -/
def Sized (size : Nat) : Prop := size + 20 < 0x30000000

instance (size : Nat) : Decidable (Sized size) := inferInstanceAs (Decidable (_ < _))

section Spans

variable {alloc : Kernel.Allocator} {size pageAlign newSize n it p : Nat} {k k' k1 : Kernel}

theorem Spans.heapLen_eq (h : Spans k) : k.heapLen = k.heap.endAddress - 0xC0081000 := by
  have hlo := h.lo
  have hhi := h.hi
  unfold Kernel.heapLen
  rw [h.start, sub32_eq (by omega) (by omega)]

theorem Spans.askedLen_eq (h : Spans k) (hsize : Sized size) :
    k.askedLen size = k.heapLen + (size + 20) := by
  have hlen := h.heapLen_eq
  have hhi := h.hi
  unfold Sized at hsize
  unfold Kernel.askedLen
  rw [show add32 size (sizeofHeader + sizeofFooter) = size + 20 from add32_eq (by
    unfold sizeofHeader sizeofFooter
    omega), add32_eq (by omega)]

theorem Spans.nextPage_askedLen (h : Spans k) (hsize : Sized size) :
    k.heapLen + 20 ≤ Kernel.nextPage (k.askedLen size) ∧
      Kernel.nextPage (k.askedLen size) ≤ 0x3FF7E000 := by
  have hlen := h.heapLen_eq
  have hlo := h.lo
  have hhi := h.hi
  unfold heapMinSize at hlo
  rw [h.askedLen_eq hsize]
  unfold Sized at hsize
  rw [nextPage_eq (by omega) (by omega)]
  omega

theorem Spans.congr (h : Spans k) (hsame : SamePaging k k') : Spans k' where
  kheap := by rw [hsame.kheap]; exact h.kheap
  nframes := by rw [hsame.frames]; exact h.nframes
  start := hsame.start.trans h.start
  max := hsame.max.trans h.max
  lo := by rw [hsame.endAddr]; exact h.lo
  hi := by rw [hsame.endAddr]; exact h.hi

theorem Spans.sameHeap (h : Spans k) (hsame : SameHeap k k') : Spans k' where
  kheap := by rw [hsame.kheap]; exact h.kheap
  nframes := hsame.nframes.trans h.nframes
  start := by rw [hsame.heap]; exact h.start
  max := by rw [hsame.heap]; exact h.max
  lo := by rw [hsame.heap]; exact h.lo
  hi := by rw [hsame.heap]; exact h.hi

/-- The allocator keeps the bounds when a page table is asked for. -/
def KeepsSpans (alloc : Kernel.Allocator) : Prop :=
  ∀ k p k', Spans k → alloc 0x1000 1 k = .ok (p, k') → Spans k'

theorem Spans.getPage (h : Spans k) (hkeeps : KeepsSpans alloc) {address page : Nat}
    (hget : Kernel.getPage alloc address 1 k = .ok (page, k')) : Spans k' := by
  unfold Kernel.getPage Kernel.kmallocAp Kernel.kmallocInt at hget
  split at hget
  · obtain ⟨-, rfl⟩ := Prod.mk.inj (Except.ok.inj hget)
    exact h
  · rw [if_pos Nat.one_ne_zero, if_pos h.kheap, show 1 % 256 = 1 from rfl] at hget
    cases halloc : alloc 0x1000 1 k with
    | error e =>
        rw [halloc] at hget
        cases hget
    | ok r =>
        rw [halloc] at hget
        obtain ⟨-, rfl⟩ := Prod.mk.inj (Except.ok.inj hget)
        have h1 := hkeeps k r.1 r.2 h halloc
        exact ⟨h1.kheap, h1.nframes, h1.start, h1.max, h1.lo, h1.hi⟩

theorem Spans.expandLoop (h : Spans k) (hkeeps : KeepsSpans alloc)
    (hloop : Kernel.expandLoop alloc newSize n it k = .ok k') : Spans k' := by
  induction n generalizing it k with
  | zero =>
      obtain rfl := Except.ok.inj hloop
      exact h
  | succ n ih =>
      rw [Kernel.expandLoop] at hloop
      split at hloop
      · simp only [bind_eq_ok] at hloop
        obtain ⟨⟨page, k1⟩, hget, k2, hframe, hrest⟩ := hloop
        exact ih ((h.getPage hkeeps hget).sameHeap (sameHeap_allocFrameAt hframe)) hrest
      · obtain rfl := Except.ok.inj hloop
        exact h

/-- The states in which page tables are asked for have the bounds. -/
theorem Spans.loopAsks (h : Spans k) (hkeeps : KeepsSpans alloc)
    (hasks : LoopAsks alloc newSize n it k k') : Spans k' := by
  induction n generalizing it k with
  | zero => exact absurd hasks id
  | succ n ih =>
      obtain ⟨-, ⟨-, -, rfl⟩ | ⟨page, k1, k2, hget, hframe, hrest⟩⟩ := hasks
      · exact h
      · exact ih ((h.getPage hkeeps hget).sameHeap (sameHeap_allocFrameAt hframe)) hrest

theorem Spans.expand (h : Spans k) (hkeeps : KeepsSpans alloc) (hsize : Sized size)
    (hexpand : Kernel.expand alloc (k.askedLen size) k = .ok k1) : Spans k1 := by
  obtain ⟨-, hmax, k2, hloop, rfl⟩ := expand_eq hexpand
  obtain ⟨hlonger, hshort⟩ := h.nextPage_askedLen hsize
  have hlen := h.heapLen_eq
  have hlo := h.lo
  have h2 := h.expandLoop hkeeps hloop
  have hend : add32 k2.heap.startAddress (Kernel.nextPage (k.askedLen size)) =
      0xC0081000 + Kernel.nextPage (k.askedLen size) := by
    rw [h2.start]
    exact add32_eq (by omega)
  rw [h.start, h.max, add32_eq (by omega)] at hmax
  refine ⟨h2.kheap, h2.nframes, h2.start, h2.max, ?_, ?_⟩
  · rw [withEnd_heap]
    dsimp only
    omega
  · rw [withEnd_heap]
    dsimp only
    omega

/-- **`alloc` keeps the bounds**, however deep it goes. -/
theorem Spans.of_alloc {fuel : Nat} (h : Spans k) (hsize : Sized size)
    (halloc : Kernel.alloc fuel size pageAlign k = .ok (p, k')) : Spans k' := by
  induction fuel generalizing size pageAlign k p k' with
  | zero => cases halloc
  | succ fuel ih =>
      rw [Kernel.alloc] at halloc
      cases hfind : Kernel.findSmallestHole (add32 size (sizeofHeader + sizeofFooter)) pageAlign k
        with
      | some it =>
          rw [hfind] at halloc
          have hsame := samePaging_carveBlock it size (add32 size (sizeofHeader + sizeofFooter))
            pageAlign k
          rw [Except.ok.inj halloc] at hsame
          exact h.congr hsame
      | none =>
          rw [hfind] at halloc
          simp only [bind_eq_ok] at halloc
          obtain ⟨k1, hexpand, hagain⟩ := halloc
          have hkeeps : KeepsSpans (Kernel.alloc fuel) := fun k0 q k0' h0 hok =>
            ih h0 (by decide) hok
          have h1 := h.expand hkeeps hsize hexpand
          exact ih (h1.congr (samePaging_growHoles _ _ k1)) hsize hagain

theorem keepsSpans_alloc (fuel : Nat) : KeepsSpans (Kernel.alloc fuel) := fun _ _ _ h hok =>
  h.of_alloc (by decide) hok

theorem sameHeap_contractLoop (newSize m it : Nat) (k : Kernel) :
    SameHeap k (Kernel.contractLoop newSize m it k) := by
  induction m generalizing it k with
  | zero => exact SameHeap.refl k
  | succ m ih =>
      rw [Kernel.contractLoop]
      split
      · have hfirst : SameHeap k
            (Kernel.freeFrameAt (Kernel.lookupPage (add32 k.heap.startAddress it) k) k) :=
          ⟨rfl, rfl, rfl, rfl, Frames.nframes_freeFrame _ _⟩
        exact hfirst.trans (ih _ _)
      · exact SameHeap.refl k

theorem Spans.withEnd (h : Spans k) {newEnd : Nat} (hlo : 0xC0081000 + heapMinSize ≤ newEnd)
    (hhi : newEnd ≤ 0xCFFFF000) : Spans (withEnd newEnd k) :=
  ⟨h.kheap, h.nframes, h.start, h.max, hlo, hhi⟩

theorem Spans.contract (h : Spans k) {newLen : Nat}
    (hcontract : Kernel.contract newSize k = .ok (newLen, k')) : Spans k' := by
  have hlen := h.heapLen_eq
  have hlo := h.lo
  have hhi := h.hi
  have hless : newSize < k.heapLen := by
    unfold Kernel.contract at hcontract
    simp only [bind_eq_ok, assertThat_eq_ok, decide_eq_true_eq] at hcontract
    exact hcontract.choose_spec.1
  rw [contract_ok newSize hless] at hcontract
  obtain ⟨-, rfl⟩ := Prod.mk.inj (Except.ok.inj hcontract)
  have hge := contractSize_ge newSize
  have hle : Kernel.contractSize newSize ≤ k.heapLen := contractSize_le hless (by omega)
  rw [h.start, add32_eq (by omega)]
  exact (h.sameHeap (sameHeap_contractLoop _ _ _ k)).withEnd (by omega) (by omega)

/-- **`free` keeps the bounds.** -/
theorem Spans.free (h : Spans k) (hfree : Kernel.free p k = .ok k') : Spans k' := by
  unfold Kernel.free at hfree
  split at hfree
  · obtain rfl := Except.ok.inj hfree
    exact h
  · simp only [bind_eq_ok, Except.ok.injEq] at hfree
    obtain ⟨-, -, -, -, f, hright, f', hcontract, rfl⟩ := hfree
    have hmerged : merged (sub32 p sizeofHeader) k = .ok f := hright
    have h1 : Spans f.kernel := h.congr (samePaging_merged hmerged)
    have h2 : Spans f'.kernel := by
      by_cases hfoot : add32 f.foot sizeofFooter = f.kernel.heap.endAddress
      · obtain ⟨newLen, k2, hshrink, hsame⟩ := contractHeap_paging hcontract hfoot
        exact (h1.contract hshrink).congr hsame
      · unfold Kernel.contractHeap at hcontract
        dsimp only at hcontract
        rw [if_neg hfoot] at hcontract
        obtain rfl := Except.ok.inj hcontract
        exact h1
    split
    · exact h2.congr (samePaging_insertHole _ _)
    · exact h2

end Spans

end Vulcanos
