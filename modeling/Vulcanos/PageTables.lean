import Vulcanos.HeapSafety
import Vulcanos.Library.Run
import Vulcanos.Proof.HeapPages
import Vulcanos.Proof.PageMap

/-!
# Sequences of `get_page`

The directory is two arrays, the tables' virtual addresses and the words the processor reads. From a
zeroed one on, whatever sequence of pages is asked for, the two stay in step, an entry is found
again under its page's number and no other, and a new table leaves the others as they are, provided
that `kmalloc_ap` returns memory that nobody uses.
-/

namespace Vulcanos

open Run

/-- What `get_page` relies on `kmalloc_ap` for: memory for a table that overlaps none there is, the
word stored through its second argument, and that the call leaves the directory and the tables
alone. -/
structure FreshTable (phys : Nat → Nat) (k : Kernel) (table : Nat) (tmp : Option Nat)
    (k' : Kernel) : Prop where
  ne_zero : table ≠ 0
  aligned : table % 0x1000 = 0
  apart : ∀ t, k.table t ≠ 0 → k.table t + 0x1000 ≤ table ∨ table + 0x1000 ≤ k.table t
  physical : tmp = some (phys table)
  directory : k'.directory = k.directory
  entries : ∀ t, k.table t ≠ 0 → ∀ j, j < 1024 →
    k'.pages (k.table t + 4 * j) = k.pages (k.table t + 4 * j)

/-- A call of `get_page`, with the allocator it finds. -/
structure PageCall where
  alloc : Kernel.Allocator
  address : Nat
  make : Nat

/-- A call that has returned: its arguments, and the address of the entry or null. -/
structure Lookup where
  address : Nat
  make : Nat
  page : Nat
deriving Repr, DecidableEq

/-- The kernel, and the calls so far, latest first. -/
structure PageRun where
  kernel : Kernel
  log : List Lookup

namespace PageCall

def step (c : PageCall) (s : PageRun) : Except Stop PageRun := do
  let (page, k) ← Kernel.getPage c.alloc c.address c.make s.kernel
  .ok ⟨k, ⟨c.address, c.make, page⟩ :: s.log⟩

/-- An address of 32 bits, and fresh memory if the call has to make a table. -/
def Legal (phys : Nat → Nat) (c : PageCall) (s : PageRun) : Prop :=
  c.address < 4294967296 ∧
    (s.kernel.table (c.address / 0x1000 / 1024) = 0 → c.make ≠ 0 → ∀ table tmp k',
      Kernel.kmallocAp c.alloc 0x1000 s.kernel = .ok (table, tmp, k') →
        FreshTable phys s.kernel table tmp k')

end PageCall

namespace PageRun

/-- Two calls that have returned an entry have returned the same one exactly for the same page. -/
def EntriesByPage (s : PageRun) : Prop :=
  ∀ l ∈ s.log, ∀ l' ∈ s.log, l.page ≠ 0 → l'.page ≠ 0 →
    (l.page = l'.page ↔ l.address / 4096 = l'.address / 4096)

/-- A page is not found exactly as long as no call has made a table for its 4 MiB. -/
def NullIfNotMade (s : PageRun) : Prop :=
  ∀ alloc address, Kernel.getPage alloc address 0 s.kernel = .ok (0, s.kernel) ↔
    ∀ l ∈ s.log, l.make ≠ 0 → l.address / 4194304 ≠ address / 4194304

/-- The two arrays of the directory say the same. -/
def InStep (phys : Nat → Nat) (s : PageRun) : Prop :=
  ∀ t, (s.kernel.directory.pageTablesPhysical t ≠ 0 ↔
      s.kernel.directory.pageTablesVirtual t ≠ 0) ∧
    (s.kernel.directory.pageTablesVirtual t ≠ 0 →
      s.kernel.directory.pageTablesPhysical t =
        phys (s.kernel.directory.pageTablesVirtual t) ||| 7)

/-- The tables of `s` are those of `s'` with the same entries. -/
def TablesKept (s s' : PageRun) : Prop :=
  ∀ t, s.kernel.table t ≠ 0 → s'.kernel.table t = s.kernel.table t ∧ ∀ j, j < 1024 →
    s'.kernel.pages (s.kernel.table t + 4 * j) = s.kernel.pages (s.kernel.table t + 4 * j)

/-- The tables of `s'` that `s` has not are all zero. -/
def NewTablesZero (s s' : PageRun) : Prop :=
  ∀ t, s.kernel.table t = 0 → s'.kernel.table t ≠ 0 → ∀ j, j < 1024 →
    s'.kernel.pages (s'.kernel.table t + 4 * j) = Page.zero

/-- What every sequence of calls keeps. -/
structure Inv (phys : Nat → Nat) (s : PageRun) : Prop where
  apart : TablesApart s.kernel
  inStep : s.InStep phys
  page : ∀ l ∈ s.log, l.page ≠ 0 → s.kernel.table (l.address / 4096 / 1024) ≠ 0 ∧
    l.page = s.kernel.entryAddr (l.address / 4096)
  made : ∀ l ∈ s.log, l.make ≠ 0 → s.kernel.table (l.address / 4096 / 1024) ≠ 0
  asked : ∀ t, s.kernel.table t ≠ 0 → ∃ l ∈ s.log, l.make ≠ 0 ∧ l.address / 4096 / 1024 = t

end PageRun

section Calls

variable {phys : Nat → Nat} {c : PageCall} {s s' : PageRun} {k k' : Kernel} {p : Nat}

/-- What a call can do: find the entry, find no table and be content, or make one. -/
theorem getPage_cases {alloc : Kernel.Allocator} {address make : Nat}
    (h : Kernel.getPage alloc address make k = .ok (p, k')) :
    (k.table (address / 0x1000 / 1024) ≠ 0 ∧ p = k.entryAddr (address / 0x1000) ∧ k' = k) ∨
    (k.table (address / 0x1000 / 1024) = 0 ∧ make = 0 ∧ p = 0 ∧ k' = k) ∨
    (k.table (address / 0x1000 / 1024) = 0 ∧ make ≠ 0 ∧ ∃ table tmp k1,
      Kernel.kmallocAp alloc 0x1000 k = .ok (table, tmp, k1) ∧
      p = table + 4 * (address / 0x1000 % 1024) ∧
      k' = Kernel.installTable (address / 0x1000 / 1024) table (tmp.getD 0) k1) := by
  by_cases htable : k.table (address / 0x1000 / 1024) = 0
  · have hnull : ¬ Kernel.lookupPage address k ≠ 0 :=
      not_not.mpr (lookupPage_eq_zero_iff.mpr htable)
    unfold Kernel.getPage at h
    rw [if_neg hnull] at h
    by_cases hmake : make = 0
    · rw [if_neg (not_not.mpr hmake), Except.ok.injEq, Prod.mk.injEq] at h
      exact Or.inr (Or.inl ⟨htable, hmake, h.1.symm, h.2.symm⟩)
    · rw [if_pos hmake, bind_eq_ok] at h
      obtain ⟨⟨table, tmp, k1⟩, hcall, hret⟩ := h
      obtain ⟨rfl, rfl⟩ := Prod.mk.inj (Except.ok.inj hret)
      exact Or.inr (Or.inr ⟨htable, hmake, table, tmp, k1, hcall, rfl, rfl⟩)
  · rw [getPage_of_table make htable, Except.ok.injEq, Prod.mk.injEq] at h
    exact Or.inl ⟨htable, h.1.symm, h.2.symm⟩

theorem step_eq_ok : c.step s = .ok s' ↔ ∃ p k',
    Kernel.getPage c.alloc c.address c.make s.kernel = .ok (p, k') ∧
      s' = ⟨k', ⟨c.address, c.make, p⟩ :: s.log⟩ := by
  simp only [PageCall.step, bind_eq_ok, Prod.exists, Except.ok.injEq]
  exact exists_congr fun p => exists_congr fun k' => and_congr_right fun _ => eq_comm

/-! ### A new table -/

section Install

variable {t table : Nat} {tmp : Option Nat} {k1 : Kernel}

theorem FreshTable.table_eq (h : FreshTable phys k table tmp k1) (u : Nat) :
    (Kernel.installTable t table (tmp.getD 0) k1).table u = if u = t then table else k.table u := by
  rw [table_installTable]
  exact if_congr Iff.rfl rfl (congrFun (congrArg PageDirectory.pageTablesVirtual h.directory) u)

theorem FreshTable.fits (h : FreshTable phys k table tmp k1) : TableFits table k1 := by
  refine ⟨Nat.pos_of_ne_zero h.ne_zero, fun u hu => ?_⟩
  have htable : k1.table u = k.table u :=
    congrFun (congrArg PageDirectory.pageTablesVirtual h.directory) u
  rw [htable] at hu ⊢
  exact h.apart u hu

theorem FreshTable.pages_old (h : FreshTable phys k table tmp k1) {u j : Nat} (hu : k.table u ≠ 0)
    (hj : j < 1024) :
    (Kernel.installTable t table (tmp.getD 0) k1).pages (k.table u + 4 * j) =
      k.pages (k.table u + 4 * j) := by
  have hapart := h.apart u hu
  rw [← h.entries u hu j hj]
  exact if_neg (by omega)

theorem pages_new {j : Nat} (hj : j < 1024) (n : Nat) :
    (Kernel.installTable t table n k1).pages (table + 4 * j) = Page.zero :=
  if_pos (by omega)

end Install

/-! ### One call -/

theorem PageCall.Legal.tables (hlegal : c.Legal phys s) (hstep : c.step s = .ok s') :
    s.TablesKept s' ∧ s.NewTablesZero s' := by
  obtain ⟨p, k', hget, rfl⟩ := step_eq_ok.mp hstep
  rcases getPage_cases hget with ⟨-, -, rfl⟩ | ⟨-, -, -, rfl⟩ | ⟨hnone, hmake, table, tmp, k1,
    hcall, -, rfl⟩
  · exact ⟨fun _ _ => ⟨rfl, fun _ _ => rfl⟩, fun _ hzero hne => absurd hzero hne⟩
  · exact ⟨fun _ _ => ⟨rfl, fun _ _ => rfl⟩, fun _ hzero hne => absurd hzero hne⟩
  · have hfresh := hlegal.2 hnone hmake table tmp k1 hcall
    refine ⟨fun u hu => ⟨?_, fun j hj => hfresh.pages_old hu hj⟩, fun u hzero hne j hj => ?_⟩
    · have hother : u ≠ c.address / 0x1000 / 1024 := fun heq => hu (heq ▸ hnone)
      rw [hfresh.table_eq, if_neg hother]
    · rw [hfresh.table_eq] at hne ⊢
      by_cases hu : u = c.address / 0x1000 / 1024
      · rw [if_pos hu]
        exact pages_new hj _
      · rw [if_neg hu] at hne
        exact absurd hzero hne

theorem PageRun.TablesKept.entryAddr (h : s.TablesKept s') {n : Nat}
    (hn : s.kernel.table (n / 1024) ≠ 0) : s'.kernel.entryAddr n = s.kernel.entryAddr n := by
  unfold Kernel.entryAddr
  rw [(h _ hn).1]

theorem PageCall.Legal.result (hlegal : c.Legal phys s) (hstep : c.step s = .ok s') :
    ∃ p, s'.log = ⟨c.address, c.make, p⟩ :: s.log ∧
      (p ≠ 0 → s'.kernel.table (c.address / 4096 / 1024) ≠ 0 ∧
        p = s'.kernel.entryAddr (c.address / 4096)) ∧
      (c.make ≠ 0 → s'.kernel.table (c.address / 4096 / 1024) ≠ 0) ∧
      ∀ t, s.kernel.table t = 0 → s'.kernel.table t ≠ 0 →
        c.make ≠ 0 ∧ c.address / 4096 / 1024 = t := by
  obtain ⟨p, k', hget, rfl⟩ := step_eq_ok.mp hstep
  refine ⟨p, rfl, ?_⟩
  rcases getPage_cases hget with ⟨htable, hp, rfl⟩ | ⟨-, hmake, hp, rfl⟩ | ⟨hnone, hmake, table,
    tmp, k1, hcall, hp, rfl⟩
  · exact ⟨fun _ => ⟨htable, hp⟩, fun _ => htable, fun _ hzero hne => absurd hzero hne⟩
  · exact ⟨fun hne => absurd hp hne, fun hne => absurd hmake hne,
      fun _ hzero hne => absurd hzero hne⟩
  · have hfresh := hlegal.2 hnone hmake table tmp k1 hcall
    have hnew : (Kernel.installTable (c.address / 0x1000 / 1024) table (tmp.getD 0) k1).table
        (c.address / 4096 / 1024) = table := by
      rw [hfresh.table_eq, if_pos rfl]
    have hmade : (Kernel.installTable (c.address / 0x1000 / 1024) table (tmp.getD 0) k1).table
        (c.address / 4096 / 1024) ≠ 0 := by
      rw [hnew]
      exact hfresh.ne_zero
    refine ⟨fun _ => ⟨hmade, ?_⟩, fun _ => hmade, fun t hzero hne => ⟨hmake, ?_⟩⟩
    · unfold Kernel.entryAddr
      rw [hnew, hp]
    · rw [hfresh.table_eq] at hne
      by_contra hother
      exact hne (by rw [if_neg (fun heq => hother heq.symm)]; exact hzero)

theorem PageCall.Legal.tablesApart (hlegal : c.Legal phys s) (hstep : c.step s = .ok s')
    (h : TablesApart s.kernel) : TablesApart s'.kernel := by
  obtain ⟨p, k', hget, rfl⟩ := step_eq_ok.mp hstep
  rcases getPage_cases hget with ⟨-, -, rfl⟩ | ⟨-, -, -, rfl⟩ | ⟨hnone, hmake, table, tmp, k1,
    hcall, -, rfl⟩
  · exact h
  · exact h
  · have hfresh := hlegal.2 hnone hmake table tmp k1 hcall
    exact hfresh.fits.apart (h.congr hfresh.directory)

theorem PageCall.Legal.inStep (hlegal : c.Legal phys s) (hstep : c.step s = .ok s')
    (h : s.InStep phys) : s'.InStep phys := by
  obtain ⟨p, k', hget, rfl⟩ := step_eq_ok.mp hstep
  rcases getPage_cases hget with ⟨-, -, rfl⟩ | ⟨-, -, -, rfl⟩ | ⟨hnone, hmake, table, tmp, k1,
    hcall, -, rfl⟩
  · exact h
  · exact h
  · have hfresh := hlegal.2 hnone hmake table tmp k1 hcall
    intro t
    have hother := h t
    rw [← hfresh.directory] at hother
    unfold Kernel.installTable
    dsimp only
    by_cases ht : t = c.address / 0x1000 / 1024
    · subst ht
      have hor : phys table ||| 7 ≠ 0 := fun hzero =>
        absurd (Nat.or_eq_zero_iff.mp hzero).2 (by decide)
      rw [Function.update_self, Function.update_self, hfresh.physical]
      exact ⟨iff_of_true hor hfresh.ne_zero, fun _ => rfl⟩
    · rw [Function.update_of_ne ht, Function.update_of_ne ht]
      exact hother

/-- **One call keeps the invariant.** -/
theorem PageRun.Inv.step (h : s.Inv phys) (hlegal : c.Legal phys s) (hstep : c.step s = .ok s') :
    s'.Inv phys := by
  obtain ⟨hkept, -⟩ := hlegal.tables hstep
  obtain ⟨p, hlog, hpage, hmade, hasked⟩ := hlegal.result hstep
  refine ⟨hlegal.tablesApart hstep h.apart, hlegal.inStep hstep h.inStep, ?_, ?_, ?_⟩
  · rw [hlog]
    rintro l (_ | ⟨_, hl⟩) hne
    · exact hpage hne
    · obtain ⟨htable, heq⟩ := h.page l hl hne
      exact ⟨(hkept _ htable).1 ▸ htable, heq.trans (hkept.entryAddr htable).symm⟩
  · rw [hlog]
    rintro l (_ | ⟨_, hl⟩) hmake
    · exact hmade hmake
    · have htable := h.made l hl hmake
      exact (hkept _ htable).1 ▸ htable
  · intro t ht
    rw [hlog]
    by_cases hold : s.kernel.table t = 0
    · exact ⟨_, List.mem_cons_self, hasked t hold ht⟩
    · obtain ⟨l, hl, hrest⟩ := h.asked t hold
      exact ⟨l, List.mem_cons_of_mem _ hl, hrest⟩

/-! ### Whole runs -/

theorem PageRun.Inv.entriesByPage (h : s.Inv phys) : s.EntriesByPage := by
  intro l hl l' hl' hne hne'
  obtain ⟨htable, heq⟩ := h.page l hl hne
  obtain ⟨htable', heq'⟩ := h.page l' hl' hne'
  rw [heq, heq']
  exact ⟨h.apart.entryAddr_inj htable htable', fun hsame => by rw [hsame]⟩

theorem PageRun.Inv.nullIfNotMade (h : s.Inv phys) : s.NullIfNotMade := by
  intro alloc address
  have hindex : ∀ a : Nat, a / 4194304 = a / 4096 / 1024 := fun a => by omega
  constructor
  · intro hnull l hl hmake hsame
    have htable := h.made l hl hmake
    rw [← hindex, hsame, hindex] at htable
    rw [getPage_of_table 0 htable, Except.ok.injEq, Prod.mk.injEq] at hnull
    unfold Kernel.entryAddr at hnull
    omega
  · intro hnone
    have htable : s.kernel.table (address / 0x1000 / 1024) = 0 := by
      by_contra htable
      obtain ⟨l, hl, hmake, hsame⟩ := h.asked _ htable
      exact hnone l hl hmake (by rw [hindex, hindex]; exact hsame)
    have hlookup := lookupPage_eq_zero_iff.mpr htable
    unfold Kernel.getPage
    rw [if_neg (not_not.mpr hlookup), if_neg (not_not.mpr rfl)]

/-- **Every sequence of calls of `get_page`**, from a zeroed directory on. -/
theorem getPage_run (phys : Nat → Nat) (s0 s : PageRun) (hlog : s0.log = [])
    (hvirtual : ∀ t, s0.kernel.directory.pageTablesVirtual t = 0)
    (hphysical : ∀ t, s0.kernel.directory.pageTablesPhysical t = 0)
    (hrun : Reaches PageCall.step (PageCall.Legal phys) s0 s) :
    s.EntriesByPage ∧ s.NullIfNotMade ∧ s.InStep phys ∧
      ∀ (c : PageCall) (s' : PageRun), c.Legal phys s → c.step s = .ok s' →
        s.TablesKept s' ∧ s.NewTablesZero s' := by
  have hinit : s0.Inv phys := by
    refine ⟨fun t _ _ ht => absurd (hvirtual t) ht, fun t => ?_, ?_, ?_,
      fun t ht => absurd (hvirtual t) ht⟩
    · exact ⟨iff_of_false (not_not.mpr (hphysical t)) (not_not.mpr (hvirtual t)),
        fun ht => absurd (hvirtual t) ht⟩
    · rw [hlog]
      exact fun l hl => absurd hl List.not_mem_nil
    · rw [hlog]
      exact fun l hl => absurd hl List.not_mem_nil
  have hinv : s.Inv phys :=
    hrun.invariant (PageRun.Inv phys) hinit fun c t u h hlegal hstep => h.step hlegal hstep
  exact ⟨hinv.entriesByPage, hinv.nullIfNotMade, hinv.inStep,
    fun c s' hlegal hstep => hlegal.tables hstep⟩

/-! ### `kmalloc_ap` -/

/-- Before there is a heap, `kmalloc_ap` returns the page behind all it has returned, and stores the
same address for the physical one. -/
theorem FreshTable.of_placement {alloc : Kernel.Allocator} {table : Nat} {tmp : Option Nat}
    (hkheap : k.kheap = 0) (hlow : 0x1000 ≤ k.placementAddr)
    (hhigh : k.placementAddr + 0x1000 < 4294967296)
    (habove : ∀ t, k.table t ≠ 0 → k.table t + 0x1000 ≤ k.placementAddr)
    (h : Kernel.kmallocAp alloc 0x1000 k = .ok (table, tmp, k')) :
    FreshTable id k table tmp k' := by
  unfold Kernel.kmallocAp Kernel.kmallocInt at h
  rw [if_neg (not_not.mpr hkheap)] at h
  simp only [if_true, Except.ok.injEq, Prod.mk.injEq] at h
  obtain ⟨htable, rfl, rfl⟩ := h
  have hmask := Word.and_highMask (x := k.placementAddr) (by omega)
  have hnext : Kernel.nextPage k.placementAddr = k.placementAddr / 4096 * 4096 + 0x1000 := by
    unfold Kernel.nextPage
    rw [hmask, if_pos (by omega), Word.add32_eq (by omega)]
  rw [hnext] at htable ⊢
  subst htable
  exact ⟨by omega, by omega, fun t ht => Or.inl ((habove t ht).trans (by omega)), rfl, rfl,
    fun _ _ _ _ => rfl⟩

end Calls

/-- A kernel without a heap and with a zeroed directory. -/
def zeroedKernel : Kernel :=
  { bareKernel with directory := ⟨fun _ => 0, fun _ => 0⟩ }

/-- The table of the first pages of the heap is there. -/
def oneTable : Kernel :=
  Kernel.installTable 768 0x201000 0x201000 { zeroedKernel with placementAddr := 0x202000 }

def twoTables : Kernel :=
  Kernel.installTable 769 0x203000 0x203000 { oneTable with placementAddr := 0x204000 }

/-- A call before there is a heap, on a kernel whose tables are below `placement_addr`. -/
theorem legal_of_placement {c : PageCall} {s : PageRun} (haddress : c.address < 4294967296)
    (hkheap : s.kernel.kheap = 0) (hlow : 0x1000 ≤ s.kernel.placementAddr)
    (hhigh : s.kernel.placementAddr + 0x1000 < 4294967296)
    (habove : ∀ t, s.kernel.table t ≠ 0 → s.kernel.table t + 0x1000 ≤ s.kernel.placementAddr) :
    c.Legal id s :=
  ⟨haddress, fun _ _ _ _ _ h => FreshTable.of_placement hkheap hlow hhigh habove h⟩

/-- The first page of the heap twice, a page that has another table, and one that is not made. -/
theorem getPage_run_twoTables : ∃ s,
    Reaches PageCall.step (PageCall.Legal id) ⟨zeroedKernel, []⟩ s ∧
    s.log = [⟨0xC0800000, 0, 0⟩, ⟨0xC0401000, 1, 0x203004⟩, ⟨kheapStart, 1, 0x201000⟩,
      ⟨kheapStart, 1, 0x201000⟩] ∧
    s.EntriesByPage ∧ s.NullIfNotMade ∧ s.InStep id ∧
      ∀ (c : PageCall) (s' : PageRun), c.Legal id s → c.step s = .ok s' →
        s.TablesKept s' ∧ s.NewTablesZero s' := by
  have hzero : ∀ t, zeroedKernel.table t ≠ 0 → zeroedKernel.table t + 0x1000 ≤ 0x200000 :=
    fun _ ht => (ht rfl).elim
  have hone : ∀ t, oneTable.table t ≠ 0 → oneTable.table t + 0x1000 ≤ 0x202000 := by
    intro t ht
    rw [oneTable, table_installTable] at ht ⊢
    split
    · decide
    · rename_i hne
      rw [if_neg hne] at ht
      exact (ht rfl).elim
  have htwo : ∀ t, twoTables.table t ≠ 0 → twoTables.table t + 0x1000 ≤ 0x204000 := by
    intro t ht
    rw [twoTables, table_installTable] at ht ⊢
    split
    · decide
    · rename_i hne
      rw [if_neg hne] at ht
      exact (hone t ht).trans (by decide)
  have hmade : Reaches PageCall.step (PageCall.Legal id) ⟨zeroedKernel, []⟩
      ⟨oneTable, [⟨kheapStart, 1, 0x201000⟩]⟩ :=
    Reaches.refl.step ⟨Kernel.alloc 0, kheapStart, 1⟩
      (legal_of_placement (by decide) rfl (by decide) (by decide) hzero) rfl
  have hagain : Reaches PageCall.step (PageCall.Legal id) ⟨zeroedKernel, []⟩
      ⟨oneTable, [⟨kheapStart, 1, 0x201000⟩, ⟨kheapStart, 1, 0x201000⟩]⟩ :=
    hmade.step ⟨Kernel.alloc 0, kheapStart, 1⟩
      (legal_of_placement (by decide) rfl (by decide) (by decide) hone) rfl
  have hother : Reaches PageCall.step (PageCall.Legal id) ⟨zeroedKernel, []⟩
      ⟨twoTables, [⟨0xC0401000, 1, 0x203004⟩, ⟨kheapStart, 1, 0x201000⟩,
        ⟨kheapStart, 1, 0x201000⟩]⟩ :=
    hagain.step ⟨Kernel.alloc 0, 0xC0401000, 1⟩
      (legal_of_placement (by decide) rfl (by decide) (by decide) hone) rfl
  have hnull := hother.step (u := ⟨twoTables, [⟨0xC0800000, 0, 0⟩, ⟨0xC0401000, 1, 0x203004⟩,
      ⟨kheapStart, 1, 0x201000⟩, ⟨kheapStart, 1, 0x201000⟩]⟩) ⟨Kernel.alloc 0, 0xC0800000, 0⟩
    (legal_of_placement (by decide) rfl (by decide) (by decide) htwo) rfl
  exact ⟨_, hnull, rfl, getPage_run id _ _ rfl (fun _ => rfl) (fun _ => rfl) hnull⟩

end Vulcanos
