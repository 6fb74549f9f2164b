import Vulcanos.Kernel.Kheap
import Vulcanos.Proof.Frames

/-!
# The page entries as a map

The entry of a page, by the page's number instead of the address the entry is stored at. As long as
no two page tables overlap, `alloc_frame` and `free_frame` on one page leave the entries of the
others alone, and so does a new table.
-/

namespace Vulcanos

open Memory Word

namespace Kernel

/-- Where the page table with this index lies, null as zero. -/
def table (t : Nat) (k : Kernel) : Nat := k.directory.pageTablesVirtual t

/-- Where the entry of the `n`-th page is stored, if its table exists. -/
def entryAddr (n : Nat) (k : Kernel) : Nat := k.table (n / 1024) + 4 * (n % 1024)

/-- The entry of the `n`-th page, if its table exists. -/
def entry (n : Nat) (k : Kernel) : Option Page :=
  if k.table (n / 1024) = 0 then none else some (k.pages (k.entryAddr n))

end Kernel

def TablesApart (k : Kernel) : Prop :=
  ∀ t u, t ≠ u → k.table t ≠ 0 → k.table u ≠ 0 →
    k.table t + 0x1000 ≤ k.table u ∨ k.table u + 0x1000 ≤ k.table t

section Entries

variable {k k' : Kernel} {n m t tab tmp address : Nat} {page : Page}

theorem lookupPage_eq (address : Nat) (k : Kernel) : Kernel.lookupPage address k =
    if k.table (address / 0x1000 / 1024) = 0 then 0 else k.entryAddr (address / 0x1000) := by
  unfold Kernel.lookupPage Kernel.entryAddr Kernel.table
  simp only [ne_eq, ite_not]

theorem lookupPage_of_table (h : k.table (address / 0x1000 / 1024) ≠ 0) :
    Kernel.lookupPage address k = k.entryAddr (address / 0x1000) := by
  rw [lookupPage_eq, if_neg h]

theorem lookupPage_eq_zero_iff :
    Kernel.lookupPage address k = 0 ↔ k.table (address / 0x1000 / 1024) = 0 := by
  rw [lookupPage_eq]
  constructor
  · intro h
    by_contra hne
    rw [if_neg hne] at h
    unfold Kernel.entryAddr at h
    omega
  · exact fun h => if_pos h

theorem entry_of_table (h : k.table (n / 1024) ≠ 0) :
    k.entry n = some (k.pages (k.entryAddr n)) := if_neg h

theorem entry_eq_none_iff : k.entry n = none ↔ k.table (n / 1024) = 0 := by
  unfold Kernel.entry
  split <;> simp_all

theorem TablesApart.entryAddr_inj (h : TablesApart k) (hn : k.table (n / 1024) ≠ 0)
    (hm : k.table (m / 1024) ≠ 0) (heq : k.entryAddr n = k.entryAddr m) : n = m := by
  unfold Kernel.entryAddr at heq
  by_cases htables : n / 1024 = m / 1024
  · rw [htables] at heq
    omega
  · have hapart := h _ _ htables hn hm
    omega

theorem TablesApart.congr (h : TablesApart k) (hdir : k'.directory = k.directory) :
    TablesApart k' := by
  intro t u
  unfold Kernel.table
  rw [hdir]
  exact h t u

theorem entry_congr (hdir : k'.directory = k.directory) (hpages : k'.pages = k.pages) :
    k'.entry n = k.entry n := by
  unfold Kernel.entry Kernel.entryAddr Kernel.table
  rw [hdir, hpages]

theorem TablesApart.entry_update (h : TablesApart k) (hn : k.table (n / 1024) ≠ 0)
    (hdir : k'.directory = k.directory)
    (hpages : k'.pages = Function.update k.pages (k.entryAddr n) page) (m : Nat) :
    k'.entry m = if m = n then some page else k.entry m := by
  have htable : k'.table (m / 1024) = k.table (m / 1024) := by
    unfold Kernel.table
    rw [hdir]
  have haddr : k'.entryAddr m = k.entryAddr m := by
    unfold Kernel.entryAddr
    rw [htable]
  by_cases hmn : m = n
  · subst hmn
    rw [if_pos rfl, entry_of_table (by rw [htable]; exact hn), haddr, hpages, Function.update_self]
  · rw [if_neg hmn]
    by_cases hm : k.table (m / 1024) = 0
    · rw [entry_eq_none_iff.mpr hm, entry_eq_none_iff, htable, hm]
    · have hne : k.entryAddr m ≠ k.entryAddr n := fun heq => hmn (h.entryAddr_inj hm hn heq)
      rw [entry_of_table (by rw [htable]; exact hm), entry_of_table hm, haddr, hpages,
        Function.update_of_ne hne]

/-- A place for a table that overlaps none. -/
def TableFits (tab : Nat) (k : Kernel) : Prop :=
  0 < tab ∧ ∀ t, k.table t ≠ 0 → k.table t + 0x1000 ≤ tab ∨ tab + 0x1000 ≤ k.table t

theorem table_installTable (t u tab tmp : Nat) (k : Kernel) :
    (Kernel.installTable t tab tmp k).table u = if u = t then tab else k.table u := by
  unfold Kernel.table Kernel.installTable
  exact Function.update_apply _ _ _ _

theorem TableFits.apart (h : TableFits tab k) (hapart : TablesApart k) :
    TablesApart (Kernel.installTable t tab tmp k) := by
  intro u v huv hu hv
  rw [table_installTable] at hu hv ⊢
  rw [table_installTable]
  by_cases hut : u = t
  · rw [if_pos hut] at hu ⊢
    rw [if_neg (fun hvt => huv (hut.trans hvt.symm))] at hv ⊢
    exact (h.2 v hv).symm
  · rw [if_neg hut] at hu ⊢
    by_cases hvt : v = t
    · rw [if_pos hvt]
      exact h.2 u hu
    · rw [if_neg hvt] at hv ⊢
      exact hapart u v huv hu hv

/-- **A new table** gives its pages zero entries. -/
theorem TableFits.entry (h : TableFits tab k) (t tmp m : Nat) :
    (Kernel.installTable t tab tmp k).entry m =
      if m / 1024 = t then some Page.zero else k.entry m := by
  obtain ⟨hpos, hfits⟩ := h
  by_cases hmt : m / 1024 = t
  · rw [if_pos hmt, entry_of_table (by rw [table_installTable, if_pos hmt]; omega)]
    unfold Kernel.entryAddr
    rw [table_installTable, if_pos hmt]
    unfold Kernel.installTable
    simp only
    rw [if_pos (by omega)]
  · rw [if_neg hmt]
    have htable : (Kernel.installTable t tab tmp k).table (m / 1024) = k.table (m / 1024) := by
      rw [table_installTable, if_neg hmt]
    by_cases hm : k.table (m / 1024) = 0
    · rw [entry_eq_none_iff.mpr hm, entry_eq_none_iff, htable, hm]
    · have hout := hfits _ hm
      rw [entry_of_table (by rw [htable]; exact hm), entry_of_table hm]
      unfold Kernel.entryAddr
      rw [htable]
      unfold Kernel.installTable
      simp only
      rw [if_neg (by omega)]

end Entries

/-! ### `get_page` and `alloc_frame` -/

section Operations

variable {k k' : Kernel} {alloc : Kernel.Allocator} {address : Nat}

theorem getPage_of_table (make : Nat) (h : k.table (address / 0x1000 / 1024) ≠ 0) :
    Kernel.getPage alloc address make k = .ok (k.entryAddr (address / 0x1000), k) := by
  have hlookup : Kernel.lookupPage address k ≠ 0 := fun hzero => h (lookupPage_eq_zero_iff.mp hzero)
  unfold Kernel.getPage
  rw [if_pos hlookup, lookupPage_of_table h]

theorem getPage_of_no_table (h : k.table (address / 0x1000 / 1024) = 0) :
    Kernel.getPage alloc address 1 k = (do
      let (tab, tmp, k) ← Kernel.kmallocAp alloc 0x1000 k
      .ok (tab + 4 * (address / 0x1000 % 1024),
        Kernel.installTable (address / 0x1000 / 1024) tab (tmp.getD 0) k)) := by
  unfold Kernel.getPage
  rw [if_neg (not_not.mpr (lookupPage_eq_zero_iff.mpr h)), if_pos Nat.one_ne_zero]

theorem allocFrameAt_of_fr_eq_zero (addr isSuper isWrite : Nat) (h : (k.pages addr).fr = 0)
    (hfirst : k.frames.firstFrame < 2 ^ 20) :
    Kernel.allocFrameAt addr isSuper isWrite k = .ok { k with
      pages := Function.update k.pages addr
        (Frames.framed (k.pages addr) isWrite k.frames.firstFrame)
      frames := k.frames.setFrame (k.frames.firstFrame * Frames.frameSize) } := by
  unfold Kernel.allocFrameAt
  rw [Frames.allocFrame_of_fr_eq_zero isSuper isWrite h hfirst]
  rfl

end Operations

end Vulcanos
