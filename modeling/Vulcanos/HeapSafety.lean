import Vulcanos.Proof.HeapRun

/-!
# The heap under correct use

Three properties that a heap has in every run of correct calls within the guards, and runs of
correct calls that leave the guards and lose each of them: the blocks that are held lie apart and
inside the heap, `free` returns, and the index lists the holes of the heap and nothing else.
-/

namespace Vulcanos

open Memory Word Layout

/-! ### The runs in the examples -/

/-- A kernel as it is before `create_heap`: memory zero, the page table of the heap's first four
megabytes made, no frame taken. -/
def bareKernel : Kernel where
  mem := fun _ => 0
  placementAddr := 0x200000
  kheap := 0
  heap := ⟨⟨0, 0, 0⟩, 0, 0, 0, 0, 0⟩
  kernelDirectory := 0x101000
  directory := ⟨fun i => if i = 768 then 0x180000 else 0, fun i => if i = 768 then 0x180007 else 0⟩
  pages := fun _ => Page.zero
  frameAllocationsAddr := 0x100000
  frames := ⟨fun _ => 0, 65536⟩

/-- The heap that `create_heap` makes on it. -/
def bareStart : HeapRun where
  kernel := { Kernel.insertHole 0xC0081000 (unlistedHeap bareKernel) with kheap := 0x200000 }
  live := []

theorem fresh_bareStart : Fresh bareStart := ⟨bareKernel, rfl, createKernelHeap_eq rfl, rfl⟩

/-! ### Held blocks lie apart -/

/-- The blocks that are held, as byte ranges, are pairwise disjoint and inside the heap. -/
def HeapRun.LiveApart (s : HeapRun) : Prop :=
  (s.live.Pairwise fun u v => u.1 + u.2 ≤ v.1 ∨ v.1 + v.2 ≤ u.1) ∧
    ∀ u ∈ s.live, s.kernel.heap.startAddress ≤ u.1 ∧ u.1 + u.2 ≤ s.kernel.heap.endAddress

instance (s : HeapRun) : Decidable s.LiveApart := by
  unfold HeapRun.LiveApart
  infer_instance

/-- None of the words next to the heap looks like the start of a header or a footer. -/
def HeapRun.QuietEnds (s : HeapRun) : Prop :=
  read32 s.kernel.mem (s.kernel.heap.startAddress - 8) ≠ heapMagic ∧
    read32 s.kernel.mem (s.kernel.heap.startAddress - 4) ≠ heapMagic ∧
    read32 s.kernel.mem s.kernel.heap.endAddress ≠ heapMagic

instance (s : HeapRun) : Decidable s.QuietEnds := by
  unfold HeapRun.QuietEnds
  infer_instance

section LiveApart

variable {s s' : HeapRun} {cs : List Chunk}

theorem HeapInv.liveApart (h : HeapInv s cs) : s.LiveApart := by
  refine ⟨?_, fun u hu => ?_⟩
  · refine (List.pairwise_map.mp h.nodup).imp_of_mem fun {u v} hu hv hne => ?_
    obtain ⟨x, b, hx, hb, hmem⟩ := h.live u hu
    obtain ⟨y, d, hy, hd, hmem'⟩ := h.live v hv
    rcases apart_of_mem_blocks hmem hmem' with heq | hapart
    · obtain ⟨rfl, -⟩ := Prod.mk.inj heq
      omega
    · omega
  · obtain ⟨x, b, hx, hb, hmem⟩ := h.live u hu
    obtain ⟨left, right, rfl, hxaddr⟩ := mem_blocks_iff.mp hmem
    have hle := h.wellFormed.chunk_end_le
    simp only at hle
    omega

/-- **In every run within the guards** the held blocks lie apart. -/
theorem liveApart_of_run (hfresh : Fresh s)
    (hrun : Run.Reaches Call.step (Call.Good heapGuards) s s') : s'.LiveApart := by
  obtain ⟨cs, hinv⟩ := hfresh.run hrun
  exact hinv.liveApart

end LiveApart

/-- Requests of both kinds, a store, and two frees, the second next to the hole that the first left.
-/
def steadyCalls : List Call :=
  [.alloc 1 8 0, .alloc 1 0x1000 1, .alloc 1 100 0, .alloc 1 8 0, .store 0xC008100C 255,
    .free 0xC008100C, .alloc 1 4 0]

theorem liveApart_of_run_steadyCalls :
    ∃ s', Run.Reaches Call.step (Call.Good heapGuards) bareStart s' ∧ s'.live.length = 4 ∧
      s'.LiveApart := by
  obtain ⟨t, hrun, hlive⟩ := Run.exists_reaches_of_runAll
    (show (Run.runAll Call.step (Call.Good heapGuards) steadyCalls bareStart).any
      (fun t => decide (t.live.length = 4)) = true by decide +kernel)
  exact ⟨t, hrun, of_decide_eq_true hlive, liveApart_of_run fresh_bareStart hrun⟩

/-- An expansion while the hole with the highest address is in the middle of the heap: the second
block ends the heap, the first is freed, and the third request grows the hole it leaves. -/
def overlappingCalls : List Call :=
  [.alloc 1 80 0, .alloc 1 (0x7F000 - 100 - 20) 0, .free 0xC008100C, .alloc 2 200 0]

theorem not_liveApart_of_legal : ¬ ∀ s s', Fresh s →
    Run.Reaches Call.step (fun c t => c.Legal t ∧ t.QuietEnds) s s' → s'.LiveApart := by
  intro hall
  obtain ⟨t, hrun, hapart⟩ := Run.exists_reaches_of_runAll
    (show (Run.runAll Call.step (fun c t => c.Legal t ∧ t.QuietEnds) overlappingCalls bareStart).any
      (fun t => decide ¬ t.LiveApart) = true by decide +kernel)
  exact of_decide_eq_true hapart (hall _ _ fresh_bareStart hrun)

/-! ### `free` returns -/

section Free

variable {s s' : HeapRun} {p : Nat}

/-- **After every run within the guards** freeing a held block within them fails no assertion. -/
theorem free_returns_of_run (hfresh : Fresh s)
    (hrun : Run.Reaches Call.step (Call.Good heapGuards) s s') (hlive : ∃ u ∈ s'.live, u.1 = p)
    (hok : FreeOk (p - 12) s'.kernel) : ∃ k, Kernel.free p s'.kernel = .ok k := by
  obtain ⟨cs, hinv⟩ := hfresh.run hrun
  obtain ⟨head, b, rfl, hmem⟩ := hinv.block_of_live hlive
  obtain ⟨k, -, hfree, -⟩ := hinv.free_returns hmem hok
  exact ⟨k, hfree⟩

theorem free_returns_of_run_steadyCalls :
    ∃ s' k, Run.Reaches Call.step (Call.Good heapGuards) bareStart s' ∧
      Kernel.free 0xC008100C s'.kernel = .ok k := by
  obtain ⟨t, hrun, hcheck⟩ := Run.exists_reaches_of_runAll
    (show (Run.runAll Call.step (Call.Good heapGuards) steadyCalls bareStart).any
      (fun t => decide ((∃ u ∈ t.live, u.1 = 0xC008100C) ∧ FreeOk (0xC008100C - 12) t.kernel))
        = true by decide +kernel)
  obtain ⟨hlive, hok⟩ := of_decide_eq_true hcheck
  obtain ⟨k, hfree⟩ := free_returns_of_run fresh_bareStart hrun hlive hok
  exact ⟨t, k, hrun, hfree⟩

end Free

/-- A merge through a stale footer. The second block becomes a hole, the first takes it in and
leaves its footer, and the third follows that footer into the middle of the hole: its own header is
in no index when the block cut from the hole is freed next to it. -/
def staleCalls : List Call :=
  [.alloc 1 8 0, .alloc 1 8 0, .alloc 1 8 0, .free 0xC0081028, .free 0xC008100C, .free 0xC0081044]

def lostCalls : List Call := staleCalls ++ [.alloc 1 36 0]

def failsAssertion (p : Nat) (desc : String) (k : Kernel) : Bool :=
  match Kernel.free p k with
  | .ok _ => false
  | .error e => e == .panicAssert desc

theorem not_free_returns_of_legal : ¬ ∀ s s' p, Fresh s →
    Run.Reaches Call.step (fun c t => c.Legal t ∧ c.Plain) s s' → (∃ u ∈ s'.live, u.1 = p) →
      ¬ failsAssertion p "it < heap->index.size" s'.kernel := by
  intro hall
  obtain ⟨t, hrun, hcheck⟩ := Run.exists_reaches_of_runAll
    (show (Run.runAll Call.step (fun c t => c.Legal t ∧ c.Plain) lostCalls bareStart).any
      (fun t => decide ((∃ u ∈ t.live, u.1 = 0xC008100C) ∧
        failsAssertion 0xC008100C "it < heap->index.size" t.kernel)) = true by decide +kernel)
  obtain ⟨hlive, hfails⟩ := of_decide_eq_true hcheck
  exact hall _ _ _ fresh_bareStart hrun hlive hfails

/-! ### The index lists the holes -/

/-- Walk the chunks from `a` on by header size: the headers met, when the walk ends at `endAddr`. -/
def walk (m : Mem) (endAddr : Nat) : Nat → Nat → Option (List Nat)
  | 0, _ => none
  | n + 1, a =>
      if a < endAddr then (walk m endAddr n (a + headerSize m a)).map (a :: ·)
      else if a = endAddr then some [] else none

/-- The walk from `start_address` to `end_address`. -/
def Kernel.chunkHeads (k : Kernel) : Option (List Nat) :=
  walk k.mem k.heap.endAddress (k.heap.endAddress - k.heap.startAddress + 1) k.heap.startAddress

/-- The walk over the chunks reaches `end_address` exactly, and the index lists the chunks with
`is_hole = 1`, each once, and nothing else; held blocks are chunks that it does not list. -/
def HeapRun.IndexExact (s : HeapRun) : Prop :=
  ∃ heads, s.kernel.chunkHeads = some heads ∧
    (s.kernel.heap.index.entries s.kernel.mem).Nodup ∧
    (∀ x, x ∈ s.kernel.heap.index.entries s.kernel.mem ↔
      x ∈ heads ∧ headerIsHole s.kernel.mem x = 1) ∧
    ∀ u ∈ s.live, u.1 - 12 ∈ heads ∧ headerIsHole s.kernel.mem (u.1 - 12) = 0

section Index

variable {s s' : HeapRun} {cs : List Chunk} {m : Mem} {a endAddr n : Nat}

theorem walk_eq (hchunks : ChunksAt m a cs) (hend : a + total Chunk.size cs = endAddr)
    (hn : cs.length < n) : walk m endAddr n a = some ((layout Chunk.size a cs).map Prod.fst) := by
  induction cs generalizing a n with
  | nil =>
      obtain ⟨n, rfl⟩ := Nat.exists_eq_succ_of_ne_zero
        (Nat.ne_of_gt (Nat.lt_of_le_of_lt (Nat.zero_le _) hn))
      rw [total_nil] at hend
      rw [walk, if_neg (by omega), if_pos (by omega)]
      rfl
  | cons c cs ih =>
      obtain ⟨n, rfl⟩ := Nat.exists_eq_succ_of_ne_zero
        (Nat.ne_of_gt (Nat.lt_of_le_of_lt (Nat.zero_le _) hn))
      obtain ⟨hchunk, hrest⟩ := chunksAt_cons.mp hchunks
      have hmin := hchunk.minSize
      rw [total_cons] at hend
      rw [List.length_cons] at hn
      rw [walk, if_pos (by omega), hchunk.header.size, ih hrest (by omega) (by omega)]
      rfl

theorem HeapInv.indexExact (h : HeapInv s cs) : s.IndexExact := by
  have hwf := h.wellFormed
  have htiles := hwf.tiles
  have hlength : cs.length ≤ total Chunk.size cs := by
    have hcard := List.length_le_sum_of_one_le (cs.map Chunk.size) (by
      intro i hi
      obtain ⟨c, hc, rfl⟩ := List.mem_map.mp hi
      have := hwf.minSize c hc
      omega)
    rwa [List.length_map] at hcard
  refine ⟨_, walk_eq hwf.chunksAt htiles (by omega), ?_, ?_, ?_⟩
  · rw [hwf.index.nodup_iff]
    exact nodup_holes hwf.minSize
  · intro x
    rw [hwf.index.mem_iff, holes]
    simp only [List.mem_map, List.mem_filter]
    constructor
    · rintro ⟨u, ⟨hu, hhole⟩, rfl⟩
      refine ⟨⟨u, hu, rfl⟩, ?_⟩
      rw [(hwf.chunksAt u hu).header.isHole, hhole]
      rfl
    · rintro ⟨⟨u, hu, rfl⟩, hhole⟩
      rw [(hwf.chunksAt u hu).header.isHole] at hhole
      refine ⟨u, ⟨hu, ?_⟩, rfl⟩
      cases hflag : u.2.hole with
      | true => rfl
      | false => simp [hflag] at hhole
  · intro u hu
    obtain ⟨head, b, hp, -, hmem⟩ := h.live u hu
    obtain ⟨left, right, rfl, hhead⟩ := mem_blocks_iff.mp hmem
    rw [hp, Nat.add_sub_cancel]
    refine ⟨List.mem_map.mpr ⟨(head, ⟨b, false⟩), ?_, rfl⟩, ?_⟩
    · exact (mem_layout_iff Chunk.size).mpr ⟨left, right, rfl, hhead⟩
    · rw [hhead]
      exact hwf.chunkAt.header.isHole

/-- **In every run within the guards** the index is exact. -/
theorem indexExact_of_run (hfresh : Fresh s)
    (hrun : Run.Reaches Call.step (Call.Good heapGuards) s s') : s'.IndexExact := by
  obtain ⟨cs, hinv⟩ := hfresh.run hrun
  exact hinv.indexExact

end Index

theorem indexExact_of_run_steadyCalls :
    ∃ s', Run.Reaches Call.step (Call.Good heapGuards) bareStart s' ∧
      s'.kernel.heap.index.size = 2 ∧ s'.IndexExact := by
  obtain ⟨t, hrun, hsize⟩ := Run.exists_reaches_of_runAll
    (show (Run.runAll Call.step (Call.Good heapGuards) steadyCalls bareStart).any
      (fun t => decide (t.kernel.heap.index.size = 2)) = true by decide +kernel)
  exact ⟨t, hrun, of_decide_eq_true hsize, indexExact_of_run fresh_bareStart hrun⟩

/-- Some chunk of the walk is a hole that the index does not list. -/
def HeapRun.losesHole (s : HeapRun) : Bool :=
  s.kernel.chunkHeads.any fun heads => heads.any fun x =>
    headerIsHole s.kernel.mem x = 1 ∧ x ∉ s.kernel.heap.index.entries s.kernel.mem

theorem not_indexExact_of_losesHole {s : HeapRun} (h : s.losesHole = true) : ¬ s.IndexExact := by
  rintro ⟨heads, hheads, -, hindex, -⟩
  unfold HeapRun.losesHole at h
  rw [hheads] at h
  obtain ⟨x, hx, hlost⟩ := List.any_eq_true.mp h
  obtain ⟨hhole, hmem⟩ := of_decide_eq_true hlost
  exact hmem ((hindex x).mpr ⟨hx, hhole⟩)

theorem not_indexExact_of_legal : ¬ ∀ s s', Fresh s →
    Run.Reaches Call.step Call.Legal s s' → s'.IndexExact := by
  intro hall
  obtain ⟨t, hrun, hlost⟩ := Run.exists_reaches_of_runAll
    (show (Run.runAll Call.step Call.Legal staleCalls bareStart).any HeapRun.losesHole = true by
      decide +kernel)
  exact not_indexExact_of_losesHole hlost (hall _ _ fresh_bareStart hrun)

end Vulcanos
