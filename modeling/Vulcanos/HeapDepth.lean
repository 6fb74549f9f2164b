import Vulcanos.HeapAlign
import Vulcanos.HeapPaging
import Vulcanos.Proof.Depth

/-!
# `alloc` comes to an end

An expansion may need page tables, and asks the heap it is about to enlarge for them. Where a hole
serves such a request, or the heap can be enlarged for it without a further table, a call of `alloc`
ends: every retry finds the heap longer than the one before. A request for a table that would itself
have to wait for a table starts over with the same `end_address`.
-/

namespace Vulcanos

open Memory Word Layout Fuel

section Requests

/-! ### Chains of calls -/

variable (size pageAlign : Nat) (k k' : Kernel)

/-- `alloc` finds no hole, and comes to the page loop of `expand`. -/
structure Expands : Prop where
  full : Kernel.findSmallestHole (add32 size (sizeofHeader + sizeofFooter)) pageAlign k = none
  more : k.heapLen < k.askedLen size
  room : add32 k.heap.startAddress (Kernel.nextPage (k.askedLen size)) ≤ k.heap.maxAddress

/-- The first expansion of `alloc` asks for a page table in the state `k'`. -/
def Asks : Prop :=
  Expands size pageAlign k ∧ ∃ fuel,
    LoopAsks (Kernel.alloc fuel) (Kernel.nextPage (k.askedLen size))
      (Kernel.nextPage (k.askedLen size) / 0x1000 + 1) k.heapLen k k'

/-- Behind its first expansion `alloc` tries again in the state `k'`. -/
def Retries : Prop :=
  Kernel.findSmallestHole (add32 size (sizeofHeader + sizeofFooter)) pageAlign k = none ∧
    ∃ fuel k1, Kernel.expand (Kernel.alloc fuel) (k.askedLen size) k = .ok k1 ∧
      k' = Kernel.growHoles k.heapLen k.heap.endAddress k1

/-- In the course of a call a page table is asked for in the state `k'`: by the first expansion of
the call, by a request for a page table that it makes, or when it tries again. -/
inductive TableAsked (k' : Kernel) : Nat → Nat → Kernel → Prop where
  | here {size pageAlign : Nat} {k : Kernel} : Asks size pageAlign k k' →
      TableAsked k' size pageAlign k
  | nested {size pageAlign : Nat} {k k1 : Kernel} : Asks size pageAlign k k1 →
      TableAsked k' 0x1000 1 k1 → TableAsked k' size pageAlign k
  | again {size pageAlign : Nat} {k k1 : Kernel} : Retries size pageAlign k k1 →
      TableAsked k' size pageAlign k1 → TableAsked k' size pageAlign k

/-- No hole is large enough for a page table, and one of the pages by which the heap would be
enlarged for it has no table either. -/
structure Starved : Prop where
  kheap : k.kheap ≠ 0
  expands : Expands 0x1000 1 k
  missing : ∃ i, k.heapLen + 0x1000 * i < Kernel.nextPage (k.askedLen 0x1000) ∧
    Kernel.lookupPage (add32 k.heap.startAddress (k.heapLen + 0x1000 * i)) k = 0

end Requests

section Answers

variable {k k' k1 : Kernel} {size pageAlign newSize n it address : Nat}

theorem getPage_served {G : Guards} (hserved : Kernel.lookupPage address k = 0 → k.kheap ≠ 0 →
    ServedAtOnce G 0x1000 1 k) :
    ∃ page k1, Kernel.getPage (Kernel.alloc 1) address 1 k = .ok (page, k1) ∧
      k1.frames = k.frames ∧ k1.heap.index.array = k.heap.index.array := by
  unfold Kernel.getPage Kernel.kmallocAp Kernel.kmallocInt
  by_cases hpresent : Kernel.lookupPage address k ≠ 0
  · rw [if_pos hpresent]
    exact ⟨_, _, rfl, rfl, rfl⟩
  · rw [if_neg hpresent, if_pos Nat.one_ne_zero]
    by_cases hkheap : k.kheap ≠ 0
    · obtain ⟨it, hfind, -⟩ := hserved (not_not.mp hpresent) hkheap
      rw [if_pos hkheap, show 1 % 256 = 1 from rfl, alloc_of_find 0 (by decide) hfind]
      have hframes := (samePaging_carveBlock it 0x1000 (0x1000 + 20) 1 k).frames
      have harray := carveBlock_array it 0x1000 (0x1000 + 20) 1 k
      generalize Kernel.carveBlock it 0x1000 (0x1000 + 20) 1 k = r at hframes harray ⊢
      exact ⟨_, _, rfl, hframes, harray⟩
    · rw [if_neg hkheap]
      refine ⟨_, _, rfl, ?_, ?_⟩ <;> dsimp only [Kernel.installTable]

theorem heapLen_expand {alloc : Kernel.Allocator} (h : Kernel.expand alloc newSize k = .ok k1)
    (hsize : newSize < 4294967296) : k1.heapLen = Kernel.nextPage newSize := by
  obtain ⟨-, -, k2, -, rfl⟩ := expand_eq h
  have hlt : Kernel.nextPage newSize < 4294967296 := by
    unfold Kernel.nextPage
    split
    · exact add32_lt _ _
    · exact hsize
  unfold Kernel.heapLen
  rw [withEnd_heap]
  dsimp only
  unfold add32 sub32
  omega

theorem heapLen_growHoles (oldLen oldEnd : Nat) (k : Kernel) :
    (Kernel.growHoles oldLen oldEnd k).heapLen = k.heapLen := by
  have hsame := samePaging_growHoles oldLen oldEnd k
  unfold Kernel.heapLen
  rw [hsame.start, hsame.endAddr]

theorem SameHeap.askedLen (h : SameHeap k k') (size : Nat) :
    k'.heapLen = k.heapLen ∧ k'.askedLen size = k.askedLen size := by
  unfold Kernel.askedLen Kernel.heapLen
  rw [h.heap]
  exact ⟨rfl, rfl⟩

theorem Expands.sameHeap (h : Expands size pageAlign k) (hsame : SameHeap k k') :
    Expands size pageAlign k' := by
  obtain ⟨hlen, hasked⟩ := hsame.askedLen size
  refine ⟨?_, ?_, ?_⟩
  · rw [findSmallestHole_congr hsame.mem hsame.heap]
    exact h.full
  · rw [hlen, hasked]
    exact h.more
  · rw [hasked, hsame.heap]
    exact h.room

theorem Starved.sameHeap (h : Starved k) (hsame : SameHeap k k') : Starved k' := by
  obtain ⟨hlen, hasked⟩ := hsame.askedLen 0x1000
  obtain ⟨i, hlt, hnone⟩ := h.missing
  refine ⟨by rw [hsame.kheap]; exact h.kheap, h.expands.sameHeap hsame, i, ?_, ?_⟩
  · rw [hlen, hasked]
    exact hlt
  · rw [hlen, hsame.heap, hsame.lookupPage]
    exact hnone

/-! ### Calls that do not end -/

theorem Expands.expand_eq (h : Expands size pageAlign k) (alloc : Kernel.Allocator) :
    Kernel.expand alloc (k.askedLen size) k =
      (Kernel.expandLoop alloc (Kernel.nextPage (k.askedLen size))
        (Kernel.nextPage (k.askedLen size) / 0x1000 + 1) k.heapLen k >>= fun k1 =>
          .ok (withEnd (add32 k1.heap.startAddress (Kernel.nextPage (k.askedLen size))) k1)) := by
  have hmore : sub32 k.heap.endAddress k.heap.startAddress < k.askedLen size := h.more
  unfold Kernel.expand
  dsimp only
  rw [assertThat_of _ hmore, ok_bind, assertThat_of _ h.room, ok_bind]
  rfl

theorem Expands.alloc_succ (h : Expands size pageAlign k) (fuel : Nat) :
    Kernel.alloc (fuel + 1) size pageAlign k =
      (Kernel.expand (Kernel.alloc fuel) (k.askedLen size) k >>= fun k1 =>
        Kernel.alloc fuel size pageAlign (Kernel.growHoles k.heapLen k.heap.endAddress k1)) := by
  rw [Kernel.alloc]
  simp only [h.full]
  rfl

/-- **No end**: the request for the table waits for itself. -/
theorem Starved.alloc_table (h : Starved k) (hspans : Spans k) (fuel : Nat) :
    Kernel.alloc fuel 0x1000 1 k = .error .outOfFuel := by
  induction fuel generalizing k with
  | zero => rfl
  | succ fuel ih =>
      obtain ⟨i, hlt, hnone⟩ := h.missing
      have hnew := (hspans.nextPage_askedLen (show 0x1000 + 20 < 0x30000000 by decide)).2
      rw [h.expands.alloc_succ, h.expands.expand_eq, expandLoop_of_missing h.kheap hspans.nframes
        (hnew.trans (by decide)) hlt (by omega) hnone
        fun k' hsame => ih (h.sameHeap hsame) (hspans.sameHeap hsame)]
      rfl

theorem TableAsked.never (h : TableAsked k' size pageAlign k)
    (hnever : ∀ fuel, Kernel.alloc fuel 0x1000 1 k' = .error .outOfFuel) (fuel : Nat) :
    Kernel.alloc fuel size pageAlign k = .error .outOfFuel := by
  have hasks : ∀ {size pageAlign : Nat} {k k1 : Kernel}, Asks size pageAlign k k1 →
      (∀ fuel, Kernel.alloc fuel 0x1000 1 k1 = .error .outOfFuel) → ∀ fuel,
      Kernel.alloc fuel size pageAlign k = .error .outOfFuel := by
    rintro size pageAlign k k1 ⟨hexpands, f, hloop⟩ hnever fuel
    cases fuel with
    | zero => rfl
    | succ fuel =>
        rw [hexpands.alloc_succ, hexpands.expand_eq, hloop.expandLoop_eq hnever fuel]
        rfl
  induction h generalizing fuel with
  | here h => exact hasks h hnever fuel
  | nested h _ ih => exact hasks h ih fuel
  | again h _ ih =>
      obtain ⟨hfind, f, k1, hexpand, rfl⟩ := h
      cases fuel with
      | zero => rfl
      | succ fuel =>
          rw [Kernel.alloc]
          simp only [hfind]
          have hsame := eq_stop_or_eq (fun f => (allocBelow_succ f).expand _ _)
            (by rw [hexpand]; exact ok_ne_stop _) fuel
          rcases hsame with hstop | hok
          · exact congrArg (· >>= _) hstop
          · exact (congrArg (· >>= _) (hok.trans hexpand)).trans (ih fuel)

/-! ### Calls that end -/

theorem Spans.retry (h : Spans k) (hsize : Sized size) {fuel : Nat}
    (hexpand : Kernel.expand (Kernel.alloc fuel) (k.askedLen size) k = .ok k1) :
    Spans (Kernel.growHoles k.heapLen k.heap.endAddress k1) ∧
      k.heapLen < (Kernel.growHoles k.heapLen k.heap.endAddress k1).heapLen := by
  have h1 := h.expand (keepsSpans_alloc fuel) hsize hexpand
  have hlonger := (h.nextPage_askedLen hsize).1
  refine ⟨h1.congr (samePaging_growHoles _ _ k1), ?_⟩
  rw [heapLen_growHoles, heapLen_expand hexpand (add32_lt _ _)]
  omega

theorem Asks.spans (h : Asks size pageAlign k k') (hspans : Spans k) : Spans k' := by
  obtain ⟨-, fuel, hloop⟩ := h
  exact hspans.loopAsks (keepsSpans_alloc fuel) hloop

theorem TableAsked.spans (h : TableAsked k' size pageAlign k) (hspans : Spans k)
    (hsize : Sized size) : Spans k' := by
  induction h with
  | here h => exact h.spans hspans
  | nested h _ ih => exact ih (h.spans hspans) (by decide)
  | again h _ ih =>
      obtain ⟨-, fuel, k1, hexpand, rfl⟩ := h
      exact ih (hspans.retry hsize hexpand).1 hsize

/-- An attempt ends if its requests for page tables do, and the next attempt. -/
theorem alloc_succ_ne_outOfFuel {fuel : Nat}
    (htable : ∀ k', Asks size pageAlign k k' → Kernel.alloc fuel 0x1000 1 k' ≠ .error .outOfFuel)
    (hagain : ∀ k1, Kernel.expand (Kernel.alloc fuel) (k.askedLen size) k = .ok k1 →
      Retries size pageAlign k (Kernel.growHoles k.heapLen k.heap.endAddress k1) →
      Kernel.alloc fuel size pageAlign (Kernel.growHoles k.heapLen k.heap.endAddress k1) ≠
        .error .outOfFuel) :
    Kernel.alloc (fuel + 1) size pageAlign k ≠ .error .outOfFuel := by
  rw [Kernel.alloc]
  cases hfind : Kernel.findSmallestHole (add32 size (sizeofHeader + sizeofFooter)) pageAlign k with
  | some it => exact ok_ne_stop _
  | none =>
      have hexpand : Kernel.expand (Kernel.alloc fuel) (k.askedLen size) k ≠
          .error .outOfFuel := by
        unfold Kernel.expand
        refine bind_ne_stop (assertThat_ne_outOfFuel _ _) fun _ hmore => ?_
        refine bind_ne_stop (assertThat_ne_outOfFuel _ _) fun _ hroom => ?_
        rw [assertThat_eq_ok, decide_eq_true_eq] at hmore hroom
        refine bind_ne_stop (expandLoop_ne_outOfFuel fun k' hasks => ?_) fun _ _ => ok_ne_stop _
        exact htable k' ⟨⟨hfind, hmore, hroom⟩, fuel, hasks⟩
      refine bind_ne_stop hexpand fun k1 hk1 => ?_
      exact hagain k1 hk1 ⟨hfind, fuel, k1, hk1, rfl⟩

/-- **A request for a page table ends** where none that it makes is starved: it makes none. -/
theorem table_ne_outOfFuel (m : Nat) (hm : 4294967296 ≤ k.heapLen + m) (h : Spans k)
    (hnone : ∀ k', TableAsked k' 0x1000 1 k → ¬ Starved k') :
    Kernel.alloc (m + 1) 0x1000 1 k ≠ .error .outOfFuel := by
  have hsize : Sized 0x1000 := by decide
  induction m generalizing k with
  | zero =>
      have hlt : k.heapLen < 4294967296 := sub32_lt _ _
      omega
  | succ m ih =>
      refine alloc_succ_ne_outOfFuel (fun k' hasks => ?_) fun k1 hk1 hretries => ?_
      · -- the first page without a table would be waited for in a starved state
        obtain ⟨hexpands, fuel, hloop⟩ := hasks
        have hnew := (h.nextPage_askedLen hsize).2
        obtain ⟨i, k0, hfirst, hsame, hlt, hmissing⟩ :=
          hloop.first h.kheap (hnew.trans (by decide))
        have hstarved : Starved k := ⟨h.kheap, hexpands, i, hlt, hmissing⟩
        exact absurd (hstarved.sameHeap hsame) (hnone k0 (.here ⟨hexpands, fuel, hfirst⟩))
      · obtain ⟨hspans, hlonger⟩ := h.retry hsize hk1
        exact ih (by omega) hspans fun k' hasked => hnone k' (.again hretries hasked)

/-- **Every call ends** in which no page table is asked for in a starved state. -/
theorem alloc_ne_outOfFuel (m : Nat) (hm : 4294967296 ≤ k.heapLen + m) (h : Spans k)
    (hsize : Sized size) (hnone : ∀ k', TableAsked k' size pageAlign k → ¬ Starved k') :
    Kernel.alloc (4294967297 + m + 1) size pageAlign k ≠ .error .outOfFuel := by
  induction m generalizing k with
  | zero =>
      have hlt : k.heapLen < 4294967296 := sub32_lt _ _
      omega
  | succ m ih =>
      refine alloc_succ_ne_outOfFuel (fun k' hasks => ?_) fun k1 hk1 hretries => ?_
      · have htable := table_ne_outOfFuel 4294967296 (Nat.le_add_left _ _) (hasks.spans h)
          fun k'' hasked => hnone k'' (.nested hasks hasked)
        rw [alloc_of_le htable (by omega)]
        exact htable
      · obtain ⟨hspans, hlonger⟩ := h.retry hsize hk1
        exact ih (by omega) hspans fun k' hasked => hnone k' (.again hretries hasked)

/-- A call ends exactly when it asks for no page table in a starved state. -/
theorem Spans.alloc_ends_iff (h : Spans k) (hsize : Sized size) :
    (∃ fuel, Kernel.alloc fuel size pageAlign k ≠ .error .outOfFuel) ↔
      ∀ k', TableAsked k' size pageAlign k → ¬ Starved k' := by
  constructor
  · rintro ⟨fuel, hends⟩ k' hasked hstarved
    exact hends (hasked.never (hstarved.alloc_table (hasked.spans h hsize)) fuel)
  · intro hnone
    exact ⟨_, alloc_ne_outOfFuel 4294967296 (Nat.le_add_left _ _) h hsize hnone⟩

theorem findSmallestHole_of_empty (hempty : k.heap.index.size = 0) :
    Kernel.findSmallestHole size pageAlign k = none := by
  unfold Kernel.findSmallestHole
  rw [hempty]
  rfl

theorem free_ne_outOfFuel (p : Nat) (k : Kernel) :
    Kernel.free p k ≠ .error .outOfFuel := by
  have hright : ∀ f, Kernel.rightUnify f ≠ .error .outOfFuel := by
    intro f
    unfold Kernel.rightUnify
    dsimp only
    split
    · exact bind_ne_stop (assertThat_ne_outOfFuel _ _) fun _ _ => ok_ne_stop _
    · exact ok_ne_stop _
  have hcontract : ∀ testHead f, Kernel.contractHeap testHead f ≠ .error .outOfFuel := by
    intro testHead f
    unfold Kernel.contractHeap
    dsimp only
    split
    · refine bind_ne_stop ?_ fun r _ => ?_
      · unfold Kernel.contract
        exact bind_ne_stop (assertThat_ne_outOfFuel _ _) fun _ _ => ok_ne_stop _
      · split <;> exact ok_ne_stop _
    · exact ok_ne_stop _
  unfold Kernel.free
  split
  · exact ok_ne_stop _
  · refine bind_ne_stop (assertThat_ne_outOfFuel _ _) fun _ _ => ?_
    refine bind_ne_stop (assertThat_ne_outOfFuel _ _) fun _ _ => ?_
    refine bind_ne_stop (hright _) fun f _ => ?_
    exact bind_ne_stop (hcontract _ f) fun _ _ => ok_ne_stop _

end Answers


/-! ### Runs -/

namespace Call

/-- No request wraps. -/
def Bounded : Call → Prop
  | alloc _ size _ => Sized size
  | _ => True

/-- The call returns or stops, if its nested calls may go deep enough. -/
def Ends : Call → HeapRun → Prop
  | alloc _ size pageAlign, s =>
      ∃ fuel, (alloc fuel size pageAlign).step s ≠ .error .outOfFuel
  | free p, s => (free p).step s ≠ .error .outOfFuel
  | store a v, s => (store a v).step s ≠ .error .outOfFuel

/-- The call asks for a page table in a starved state. -/
def Starves : Call → HeapRun → Prop
  | alloc _ size pageAlign, s => ∃ k', TableAsked k' size pageAlign s.kernel ∧ Starved k'
  | _, _ => False

end Call

section Runs

variable {s s' : HeapRun} {c : Call}

theorem Booted.spans (h : Booted s) : Spans s.kernel := by
  obtain ⟨hstart, hend, hmax⟩ := h.start
  obtain ⟨f, -, hpages⟩ := h.pageInv
  refine ⟨hpages.kheap, hpages.nframes, hstart, hmax, ?_, ?_⟩
  · rw [hend]
    decide
  · rw [hend]
    decide

/-- **One call** keeps the bounds of the heap. -/
theorem Spans.step (h : Spans s.kernel) (hbounded : c.Bounded) (hstep : c.step s = .ok s') :
    Spans s'.kernel := by
  cases c with
  | alloc fuel size pageAlign =>
      simp only [Call.step, bind_eq_ok, Except.ok.injEq] at hstep
      obtain ⟨⟨p, k⟩, halloc, rfl⟩ := hstep
      exact h.of_alloc hbounded halloc
  | free p =>
      simp only [Call.step, bind_eq_ok, Except.ok.injEq] at hstep
      obtain ⟨k, hfree, rfl⟩ := hstep
      exact h.free hfree
  | store a v =>
      obtain rfl := Except.ok.inj hstep
      exact h.congr (samePaging_mem s.kernel _)

theorem Spans.ends_iff (h : Spans s.kernel) (hbounded : c.Bounded) :
    c.Ends s ↔ ¬ c.Starves s := by
  cases c with
  | alloc fuel size pageAlign =>
      have hstep : ∀ fuel, (Call.alloc fuel size pageAlign).step s ≠ .error .outOfFuel ↔
          Kernel.alloc fuel size pageAlign s.kernel ≠ .error .outOfFuel := by
        intro fuel
        rw [Call.step]
        cases Kernel.alloc fuel size pageAlign s.kernel with
        | error e => simp [bind, Except.bind]
        | ok r => simp [bind, Except.bind]
      unfold Call.Ends Call.Starves
      simp only [hstep, h.alloc_ends_iff hbounded, not_exists, not_and]
  | free p =>
      exact iff_of_true (bind_ne_stop (free_ne_outOfFuel p s.kernel) fun _ _ => ok_ne_stop _) id
  | store a v => exact iff_of_true (ok_ne_stop _) id

/-- **Runs.** In every state that a run from `init_paging` reaches, a call ends exactly when it asks
for no page table in a starved state. -/
theorem ends_of_run : ∀ s s', Booted s →
    Run.Reaches Call.step (fun c t => c.Legal t ∧ c.Bounded) s s' →
    ∀ c : Call, c.Bounded → (c.Ends s' ↔ ¬ c.Starves s') := by
  intro s s' hbooted hrun c hbounded
  have hspans : Spans s'.kernel := hrun.invariant (fun t => Spans t.kernel) hbooted.spans
    fun _ _ _ hspans hguard hstep => hspans.step hguard.2 hstep
  exact hspans.ends_iff hbounded

end Runs

/-! ### A run into it -/

section Boundary

variable {k k' : Kernel} {e f j it n : Nat} {alloc : Kernel.Allocator}

theorem PageInv.expandLoop (alloc : Kernel.Allocator) (h : PageInv e f k)
    (hit : 0xC0081000 + it = 0x1000 * e)
    (htop : e + j ≤ 0xC0400) (hframes : f + j ≤ 16384) (hn : j < n) :
    ∃ k', Kernel.expandLoop alloc (it + 0x1000 * j) n it k = .ok k' ∧ PageInv (e + j) (f + j) k' ∧
      k'.mem = k.mem ∧ k'.heap = k.heap ∧ k'.directory = k.directory := by
  induction n generalizing it e f j k with
  | zero => omega
  | succ n ih =>
      rw [Kernel.expandLoop]
      cases j with
      | zero => exact ⟨k, if_neg (Nat.lt_irrefl _), h, rfl, rfl, rfl⟩
      | succ j =>
          have hlo := h.lo
          have htable : k.table (e / 1024) ≠ 0 := by
            rw [show e / 1024 = 768 by omega]
            exact h.table_ne_zero
          have hpage : 0x1000 * e / 0x1000 = e := by omega
          have hbare : k.pages (k.entryAddr e) = Page.zero := by
            rcases h.bare e (Nat.le_refl e) (by omega) with hnone | hzero
            · exact absurd (entry_eq_none_iff.mp hnone) htable
            · rw [entry_of_table htable] at hzero
              exact Option.some.inj hzero
          have hfirst : k.frames.firstFrame = f :=
            firstFrame_of_prefix h.nframes (by omega) fun g hg => h.used g (by omega)
          rw [if_pos (by omega), h.start, add32_eq (by omega), hit,
            getPage_of_table 1 (by rw [hpage]; exact htable), hpage, ok_bind]
          dsimp only
          generalize (if k.heap.supervisor ≠ 0 then 1 else 0) = isSuper
          generalize (if k.heap.readonly ≠ 0 then 0 else 1) = isWrite
          have hframe := allocFrameAt_of_fr_eq_zero (k.entryAddr e) isSuper isWrite
            (by rw [hbare]; rfl) (by rw [hfirst]; omega)
          obtain ⟨k1, hk1⟩ : ∃ k1, Kernel.allocFrameAt (k.entryAddr e) isSuper isWrite k = .ok k1 :=
            ⟨_, hframe⟩
          have hinv1 := h.allocFrame (by omega) (by omega) htable hk1
          obtain ⟨hmem1, hheap1⟩ := allocFrameAt_eq hk1
          have hdir1 := allocFrameAt_directory hk1
          obtain ⟨k2, hloop, hinv2, hmem2, hheap2, hdir2⟩ :=
            ih hinv1 (show 0xC0081000 + (it + 0x1000) = 0x1000 * (e + 1) by omega)
              (show e + 1 + j ≤ 0xC0400 by omega) (by omega) (by omega)
          rw [hk1, ok_bind, add32_eq (by omega),
            show it + 0x1000 * (j + 1) = it + 0x1000 + 0x1000 * j by omega]
          refine ⟨k2, hloop, ?_, hmem2.trans hmem1, hheap2.trans hheap1, hdir2.trans hdir1⟩
          rwa [show e + (j + 1) = e + 1 + j by omega, show f + (j + 1) = f + 1 + j by omega]

theorem carveBlock_all {it size n : Nat}
    (hgap : sub32 (headerSize k.mem (k.heap.index.lookup it k.mem)) n < 20) :
    (Kernel.carveBlock it size n 0 k).2.heap =
      { k.heap with index := { k.heap.index with size := k.heap.index.size - 1 } } := by
  rw [carveBlock_plain_eq rfl rfl, if_pos hgap, if_pos hgap]
  generalize headerSize k.mem (k.heap.index.lookup it k.mem) = s
  generalize add32 size _ = size'
  generalize k.heap.index.lookup it k.mem = a
  have hrest : ¬ sub32 s s > 0 := by
    unfold sub32
    omega
  unfold Kernel.writeBlock
  simp only [if_neg hrest]
  rw [removeHole_heap]

/-- A request that takes all of the only hole, which is the last chunk. -/
theorem WellFormed.alloc_all {left : List Chunk} {s size : Nat}
    (h : WellFormed k (left ++ [⟨s, true⟩])) (hleft : ∀ c ∈ left, c.hole = false)
    (hfits : size + 20 ≤ s) (hgap : s < size + 40) :
    ∃ p k', Kernel.alloc 1 size 0 k = .ok (p, k') ∧ WellFormed k' (left ++ [⟨s, false⟩]) ∧
      SamePaging k k' ∧
      k'.heap.index = { k.heap.index with size := k.heap.index.size - 1 } := by
  have htiles := h.tiles
  have hlt := h.end_lt
  simp only [total_append, total_cons, total_nil] at htiles
  obtain ⟨it, hfind⟩ := h.exists_find hfits
  obtain ⟨hit, hholeFits, -⟩ := findSmallestHole_spec hfind
  have halloc := alloc_of_find 0 (by omega) hfind
  rw [holeFits_plain, decide_eq_true_eq] at hholeFits
  obtain ⟨t, ht⟩ : ∃ t, t = headerSize k.mem (k.heap.index.lookup it k.mem) := ⟨_, rfl⟩
  obtain ⟨left', front, right, b, hcs, -, hfront, hb, -, hcarved⟩ :=
    carveBlock_spec h hit rfl ht (by rwa [ht]) fun hplain => absurd rfl hplain
  rw [if_pos rfl] at hfront
  subst hfront
  -- the hole that was found is the last chunk
  have hright : right = [] := by
    rcases List.eq_nil_or_concat right with hnil | ⟨r, c, rfl⟩
    · exact hnil
    · rw [List.concat_eq_append, ← List.append_assoc] at hcs
      obtain ⟨hinit, -⟩ := List.append_inj' hcs rfl
      have hhole := hleft ⟨t, true⟩ (by rw [hinit]; simp)
      simp at hhole
  subst hright
  rw [List.append_nil] at hcs
  obtain ⟨rfl, hlast⟩ := List.append_inj' hcs rfl
  obtain rfl : s = t := by simpa using hlast
  have hheap := @carveBlock_all k it size (size + 20) (by
    rw [← ht, sub32_eq hfits (by omega)]
    omega)
  obtain ⟨⟨p, k'⟩, hres⟩ : ∃ r, r = Kernel.carveBlock it size (size + 20) 0 k := ⟨_, rfl⟩
  have hsame := samePaging_carveBlock it size (size + 20) 0 k
  rw [← hres] at halloc hheap hcarved hsame
  refine ⟨p, k', halloc, ?_, hsame, by rw [hheap]⟩
  have hwf := hcarved.wellFormed
  have hroom := hcarved.room
  simp only [List.nil_append, List.append_nil, total_nil, Nat.sub_zero, Nat.zero_add] at hwf hroom
  unfold blockChunks at hwf
  split at hwf
  · rename_i hall
    rwa [hall]
  · -- what is left is too small for a chunk
    rw [show left ++ [⟨b, false⟩, ⟨s - b, true⟩] = (left ++ [⟨b, false⟩]) ++ ⟨s - b, true⟩ :: [] by
      simp] at hwf
    have hmin := hwf.chunkAt.minSize
    simp only at hmin
    omega

theorem PageInv.moveEnd (h : PageInv e f k) {newEnd : Nat} : PageInv e f (withEnd newEnd k) :=
  ⟨h.kheap, h.start, h.max, h.nframes, h.apart, h.lo, h.hi, h.backed, h.bare, h.first, h.used⟩

theorem PageInv.expand (alloc : Kernel.Allocator) (h : PageInv 0xC0100 f k)
    (hend : k.heap.endAddress = 0xC0100000)
    (hf : f + 768 ≤ 16384) :
    ∃ k', Kernel.expand alloc (add32 (sub32 k.heap.endAddress k.heap.startAddress) 0x2FFFFF) k =
        .ok (withEnd 0xC0400000 k') ∧ PageInv 0xC0400 (f + 768) k' ∧ k'.mem = k.mem ∧
      k'.heap = k.heap ∧ k'.directory = k.directory := by
  obtain ⟨k', hloop, hinv, hmem, hheap, hdir⟩ :=
    h.expandLoop alloc (show 0xC0081000 + 0x7F000 = 0x1000 * 0xC0100 from rfl)
      (show 0xC0100 + 768 ≤ 0xC0400 by decide) hf (show 768 < 0x380 by decide)
  refine ⟨k', ?_, hinv, hmem, hheap, hdir⟩
  have hround : Kernel.nextPage 0x37EFFF = 0x37F000 := by decide
  have hasked : add32 (sub32 0xC0100000 0xC0081000) 0x2FFFFF = 0x37EFFF := by decide
  unfold Kernel.expand
  rw [hend, h.start, h.max, hasked]
  dsimp only
  rw [hround, assertThat_of _ (by decide), ok_bind, assertThat_of _ (by decide), ok_bind]
  rw [show 0x37F000 / 0x1000 + 1 = 0x380 from rfl, show sub32 0xC0100000 0xC0081000 = 0x7F000 from
    rfl, show 0x37F000 = 0x7F000 + 0x1000 * 768 from rfl, hloop, ok_bind]
  have hnew : add32 k'.heap.startAddress (0x7F000 + 0x1000 * 768) = 0xC0400000 := by
    rw [hinv.start]
    decide
  rw [hnew]
  rfl

end Boundary

def FramesRemain (k : Kernel) : Prop := ∃ g < k.frames.nframes, k.frames.used g = false

/-- A request for all that the first page table can add to a heap without holes. -/
theorem PageInv.alloc_rest {k : Kernel} {f : Nat} (h : PageInv 0xC0100 f k)
    (hwf : WellFormed k [⟨0x7F000, false⟩]) (hend : k.heap.endAddress = 0xC0100000)
    (hf : f + 768 ≤ 16384) (hindex : k.heap.index = ⟨kheapStart, 0, heapIndexSize⟩) :
    ∃ p k', Kernel.alloc 2 0x2FFFEB 0 k = .ok (p, k') ∧ PageInv 0xC0400 (f + 768) k' ∧
      k'.heap.endAddress = 0xC0400000 ∧ k'.heap.index.size = 0 ∧ k'.directory = k.directory := by
  have hempty : k.heap.index.size = 0 := by rw [hindex]
  have hnew : add32 0x2FFFEB (sizeofHeader + sizeofFooter) = 0x2FFFFF := by decide
  obtain ⟨k1, hexpand, hpages, hmem, hheap, hdir⟩ :=
    h.expand (Kernel.alloc 1) hend hf
  have hwf1 : WellFormed k1 [⟨0x7F000, false⟩] :=
    ((Serves.refl hwf).congr hmem hheap).wellFormed
  have hempty1 : k1.heap.index.size = 0 := by rw [hheap, hempty]
  have hroom1 : IndexRoom k1 := by
    unfold IndexRoom
    rw [hheap, hindex, h.start]
    decide
  -- the new space is a hole of its own
  obtain ⟨left, last, hcs, hlast, hgrown, -, -, -, -, hstart2, hend2⟩ :=
    growHoles_empty hwf1 (show k1.heap.endAddress + 20 ≤ 0xC0400000 by rw [hheap, hend]; decide)
      (by decide) hempty1 hroom1
  obtain rfl : last = [] := by
    rcases hlast with hlast | ⟨s, rfl⟩
    · exact hlast
    · have hmem := congrArg (fun l => (⟨s, true⟩ : Chunk) ∈ l) hcs
      simp at hmem
  rw [List.append_nil] at hcs
  subst hcs
  have hsame2 := samePaging_growHoles (sub32 k1.heap.endAddress k1.heap.startAddress)
    k1.heap.endAddress (withEnd 0xC0400000 k1)
  obtain ⟨k2, hk2⟩ : ∃ k2, k2 = Kernel.growHoles (sub32 k1.heap.endAddress k1.heap.startAddress)
    k1.heap.endAddress (withEnd 0xC0400000 k1) := ⟨_, rfl⟩
  rw [← hk2] at hgrown hend2 hsame2
  have hsize : 0xC0400000 - (k1.heap.startAddress + total Chunk.size [⟨0x7F000, false⟩]) =
      0x300000 := by
    rw [hpages.start]
    rfl
  rw [hsize] at hgrown
  have hone : k2.heap.index.size = 1 := by
    have hlength := hgrown.index.length_eq
    rwa [OrderedArray.length_entries] at hlength
  have hpages2 : PageInv 0xC0400 (f + 768) k2 := hpages.moveEnd.congr hsame2
  obtain ⟨p, k3, halloc, -, hsame3, hindex3⟩ :=
    hgrown.alloc_all (by simp) (show 0x2FFFEB + 20 ≤ 0x300000 by decide) (by decide)
  refine ⟨p, k3, ?_, hpages2.congr hsame3, hsame3.endAddr.trans hend2, ?_, ?_⟩
  · rw [Kernel.alloc]
    simp only [hnew, findSmallestHole_of_empty hempty]
    rw [hexpand, ok_bind, ← hheap, ← hk2]
    exact halloc
  · rw [hindex3, hone]
  · rw [hsame3.directory, hsame2.directory]
    exact hdir

/-- A heap without holes that ends where its first page table does: a small request asks for the
next table in a starved state. -/
theorem Spans.starved_of_empty {k : Kernel} {size : Nat} (h : Spans k) (hsize : size ≤ 0x1000)
    (hempty : k.heap.index.size = 0) (hend : k.heap.endAddress = 0xC0400000)
    (hnone : Kernel.lookupPage 0xC0400000 k = 0) :
    TableAsked k size 0 k ∧ Starved k := by
  have hlen : k.heapLen = 0x37F000 := by rw [h.heapLen_eq, hend]
  have hexpands : ∀ size pageAlign, size ≤ 0x1000 → Expands size pageAlign k := by
    intro size pageAlign hsize
    have hsized : Sized size := show size + 20 < 0x30000000 by omega
    have hasked := h.askedLen_eq hsized
    refine ⟨findSmallestHole_of_empty hempty, by omega, ?_⟩
    rw [hasked, hlen, nextPage_eq (by omega) (by omega), h.start, h.max, add32_eq (by omega)]
    omega
  have hfirst : Kernel.lookupPage (add32 k.heap.startAddress k.heapLen) k = 0 := by
    rw [h.start, hlen]
    exact hnone
  have hlonger : ∀ size, size ≤ 0x1000 → k.heapLen < Kernel.nextPage (k.askedLen size) := by
    intro size hsize
    have hlt := (h.nextPage_askedLen (show size + 20 < 0x30000000 by omega)).1
    omega
  refine ⟨.here ⟨hexpands size 0 hsize, 0, hlonger size hsize, Or.inl ⟨hfirst, h.kheap, rfl⟩⟩,
    h.kheap, hexpands 0x1000 1 (Nat.le_refl _), 0, hlonger 0x1000 (Nat.le_refl _), hfirst⟩

/-- Two requests after `init_paging`, one for all of the heap and one for all that the first page
table can add to it. -/
theorem Booted.exists_starved {s : HeapRun} (h : Booted s) :
    ∃ s1 s2, Run.Reaches Call.step (fun c t => c.Legal t ∧ c.Bounded) s s1 ∧
      (Call.alloc 2 0x2FFFEB 0).step s1 = .ok s2 ∧ s1.kernel.heap.endAddress = 0xC0100000 ∧
      s2.kernel.heap.endAddress = 0xC0400000 ∧ s2.kernel.heap.index.size = 0 ∧
      Kernel.lookupPage 0xC0400000 s2.kernel = 0 ∧ FramesRemain s2.kernel := by
  obtain ⟨hstart, hend, hmax⟩ := h.start
  obtain ⟨f, hf, hpages⟩ := h.pageInv
  have hnone := h.table_eq_zero (show 768 < 769 by decide)
  have hindex := h.index
  have hwf : WellFormed s.kernel ([] ++ [⟨0x7F000, true⟩]) := h.fresh.inv.wellFormed
  obtain ⟨p1, k1, halloc1, hwf1, hsame1, hindex1⟩ :=
    hwf.alloc_all (by simp) (show 520172 + 20 ≤ 0x7F000 by decide) (by decide)
  rw [hindex] at hindex1
  obtain ⟨p2, k2, halloc2, hpages2, hend2, hempty2, hdir2⟩ :=
    (hpages.congr hsame1).alloc_rest hwf1 (hsame1.endAddr.trans hend) (by omega) hindex1
  have hstep1 : (Call.alloc 1 520172 0).step s = .ok ⟨k1, (p1, 520172) :: s.live⟩ := by
    rw [Call.step, halloc1, ok_bind]
  have hstep2 : (Call.alloc 2 0x2FFFEB 0).step ⟨k1, (p1, 520172) :: s.live⟩ =
      .ok ⟨k2, (p2, 0x2FFFEB) :: (p1, 520172) :: s.live⟩ := by
    rw [Call.step, halloc2, ok_bind]
  refine ⟨_, _, Run.Reaches.refl.step _ ⟨?_, ?_⟩ hstep1, hstep2, hsame1.endAddr.trans hend, hend2,
    hempty2, ?_, f + 768, ?_, ?_⟩
  · exact show 520172 + 20 < 4294967296 by decide
  · exact show 520172 + 20 < 0x30000000 by decide
  · rw [lookupPage_eq_zero_iff]
    have htable : k2.table 769 = s.kernel.table 769 := by
      unfold Kernel.table
      rw [hdir2, hsame1.directory]
    exact htable.trans hnone
  · rw [hpages2.nframes]
    omega
  · rw [hpages2.used _ (by omega)]
    exact decide_eq_false (Nat.lt_irrefl _)

theorem exists_booted : ∃ s, Booted s := by
  obtain ⟨n, k, -, -, -, hinit⟩ := initPaging_eq (k := bareKernel) rfl rfl (by decide) (by decide)
  exact ⟨⟨_, []⟩, bareKernel, 12401, rfl, rfl, by decide, by decide, hinit 12401 (by decide), rfl⟩

/-- The heap is expanded up to the end of its first page table, and 8 bytes more never come. -/
theorem ends_of_run_alloc : ∃ s s1 s2, Booted s ∧
    Run.Reaches Call.step (fun c t => c.Legal t ∧ c.Bounded) s s1 ∧
    (Call.alloc 2 0x2FFFEB 0).step s1 = .ok s2 ∧ ¬ (Call.alloc 2 0x2FFFEB 0).Starves s1 ∧
    ¬ (Call.alloc 0 8 0).Ends s2 := by
  obtain ⟨s, hbooted⟩ := exists_booted
  obtain ⟨s1, s2, hrun, hstep, -, hend, hempty, hnone, -⟩ := hbooted.exists_starved
  have hbounded : (Call.alloc 2 0x2FFFEB 0).Bounded := show 0x2FFFEB + 20 < 0x30000000 by decide
  have hrun2 : Run.Reaches Call.step (fun c t => c.Legal t ∧ c.Bounded) s s2 :=
    hrun.step (.alloc 2 0x2FFFEB 0) ⟨show 0x2FFFEB + 20 < 4294967296 by decide, hbounded⟩ hstep
  have hspans : Spans s2.kernel := hrun2.invariant (fun t => Spans t.kernel) hbooted.spans
    fun _ _ _ hspans hguard hstep => hspans.step hguard.2 hstep
  refine ⟨s, s1, s2, hbooted, hrun, hstep, ?_, ?_⟩
  · refine (ends_of_run s s1 hbooted hrun _ hbounded).mp ⟨2, ?_⟩
    rw [hstep]
    exact ok_ne_stop _
  · refine mt (ends_of_run s s2 hbooted hrun2 (.alloc 0 8 0)
      (show 8 + 20 < 0x30000000 by decide)).mp ?_
    exact fun hends => hends ⟨_, hspans.starved_of_empty (by decide) hempty hend hnone⟩

/-- A request for 8 bytes that never ends. -/
theorem not_ends_of_run : ¬ ∀ s s', Booted s → Run.Reaches Call.step Call.Legal s s' →
    ∀ fuel size pageAlign, grownEnd size s'.kernel ≤ s'.kernel.heap.maxAddress →
      FramesRemain s'.kernel → (Call.alloc fuel size pageAlign).Ends s' := by
  intro hall
  obtain ⟨s, hbooted⟩ := exists_booted
  obtain ⟨s1, s2, hrun, hstep, -, hend, hempty, hnone, hframes⟩ := hbooted.exists_starved
  have hlegal : (Call.alloc 2 0x2FFFEB 0).Legal s1 := show 0x2FFFEB + 20 < 4294967296 by decide
  have hbounded : (Call.alloc 2 0x2FFFEB 0).Bounded := show 0x2FFFEB + 20 < 0x30000000 by decide
  have hrun2 := hrun.step _ ⟨hlegal, hbounded⟩ hstep
  have hspans : Spans s2.kernel := hrun2.invariant (fun t => Spans t.kernel) hbooted.spans
    fun _ _ _ hspans hguard hstep => hspans.step hguard.2 hstep
  refine absurd (hall s s2 hbooted (hrun2.mono fun _ _ h => h.1) 0 8 0 ?_ hframes) ?_
  · unfold grownEnd
    rw [hspans.start, hend, hspans.max]
    decide
  · refine mt (hspans.ends_iff (c := .alloc 0 8 0)
      (show 8 + 20 < 0x30000000 by decide)).mp fun hends => ?_
    exact hends ⟨_, hspans.starved_of_empty (by decide) hempty hend hnone⟩

end Vulcanos
