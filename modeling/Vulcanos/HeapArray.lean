import Vulcanos.HeapStack
import Vulcanos.SortedArray

/-!
# An ordered array on the heap

`create_ordered_array` takes the storage of an array from the heap and `destroy_ordered_array` gives
it back. The calls in between stay inside this block as long as the array is never full when an item
is inserted, so the heap does not notice them.
-/

namespace Vulcanos

open Memory Layout WeakOrder

namespace OrderedArray

def standardLessthanPredicate (a b : Nat) : Bool := a < b

def create (alloc : Kernel.Allocator) (maxSize : Nat) (k : Kernel) :
    Except Stop (OrderedArray × Kernel) := do
  let (p, _, k) ← Kernel.kmalloc alloc (maxSize * 4 % 4294967296) k
  .ok (⟨p, 0, maxSize⟩, { k with mem := memset p 0 (maxSize * 4 % 4294967296) k.mem })

def destroy (a : OrderedArray) (k : Kernel) : Except Stop Kernel := Kernel.kfree a.array k

end OrderedArray

/-! ### Inside a block -/

section Block

variable {k : Kernel} {sizes : List Nat} {u : Nat × Nat} {m : Mem}

theorem Stacked.of_sameOutside (h : Stacked k sizes)
    (hu : u ∈ stackAt k.heap.startAddress sizes)
    (hsame : SameOutside u.1 (u.1 + u.2) k.mem m) : Stacked { k with mem := m } sizes := by
  suffices hgen : ∀ n, n ≤ u.2 → ∀ m, SameOutside u.1 (u.1 + n) k.mem m →
      Stacked { k with mem := m } sizes from hgen u.2 (Nat.le_refl _) m hsame
  intro n
  induction n with
  | zero =>
      intro _ m hm
      obtain rfl : m = k.mem := funext fun x => hm x (by omega)
      exact h
  | succ n ih =>
      intro hn m hm
      -- the last byte is stored behind the others
      obtain ⟨m1, hm1⟩ : ∃ m1 : Mem, m1 = fun x => if x = u.1 + n then k.mem x else m x := ⟨_, rfl⟩
      have hfirst : SameOutside u.1 (u.1 + n) k.mem m1 := by
        intro x hx
        rw [hm1]
        by_cases hat : x = u.1 + n
        · exact if_pos hat
        · exact (if_neg hat).trans (hm x (by omega))
      have hlast : write8 m1 (u.1 + n) (m (u.1 + n)).toNat = m := by
        funext x
        by_cases hat : x = u.1 + n
        · rw [hat, write8, if_pos rfl, UInt8.ofNat_toNat]
        · rw [write8_apply_of_ne hat, hm1]
          exact if_neg hat
      rw [← hlast]
      exact (ih (by omega) m1 hfirst).store hu (Nat.le_add_right _ n) (by omega)

end Block

namespace ArrayCall

section Frame

variable {lessThan : Nat → Nat → Bool} {s t : ArrayState} {cs : List ArrayCall}

/-- The array `t` is `s` with other items: in the same place, with as much room, and nothing outside
of it has changed. -/
structure Inside (s t : ArrayState) : Prop where
  array : t.1.array = s.1.array
  maxSize : t.1.maxSize = s.1.maxSize
  size_le : t.1.size ≤ t.1.maxSize
  same : SameOutside s.1.array (s.1.array + 4 * s.1.maxSize) s.2 t.2

theorem Inside.step {c : ArrayCall} (h : Inside s t) (hvalid : c.Valid t) :
    Inside s (c.step lessThan t) := by
  obtain ⟨harray, hmax, hle, hsame⟩ := h
  cases c with
  | insert item =>
      have hroom := hvalid.2
      have hinsert := OrderedArray.insert_sameOutside lessThan item t.1 t.2
      refine ⟨?_, ?_, ?_, hsame.trans (hinsert.mono (Nat.le_of_eq harray.symm) ?_)⟩
      · rw [ArrayCall.step, OrderedArray.insert_fst]
        exact harray
      · rw [ArrayCall.step, OrderedArray.insert_fst]
        exact hmax
      · rw [ArrayCall.step, OrderedArray.insert_fst]
        exact hroom
      · omega
  | remove i =>
      have hremove := OrderedArray.remove_sameOutside i t.1 t.2
      refine ⟨harray, hmax, Nat.le_trans (Nat.sub_le _ _) hle,
        hsame.trans (hremove.mono (Nat.le_of_eq harray.symm) ?_)⟩
      omega

theorem Inside.after (hle : s.1.size ≤ s.1.maxSize)
    (hvalid : Run.Along (ArrayCall.step lessThan) Valid cs s) :
    Inside s (Run.after (ArrayCall.step lessThan) cs s) :=
  Run.along_invariant (Inside s) (fun _ _ h hc => h.step hc)
    ⟨rfl, rfl, hle, SameOutside.refl _ _ _⟩ hvalid

end Frame

end ArrayCall

/-! ### From `create_ordered_array` to `destroy_ordered_array` -/

section Lifecycle

open ArrayCall OrderedArray

variable {k : Kernel} {sizes : List Nat} {maxSize : Nat} {lessThan : Nat → Nat → Bool}

theorem Stacked.createArray (h : Stacked k sizes) (hkheap : k.kheap ≠ 0) (fuel : Nat)
    (hroom : stackSize sizes + 4 * maxSize + 40 ≤ k.heap.endAddress - k.heap.startAddress) :
    ∃ k1, OrderedArray.create (Kernel.alloc (fuel + 1)) maxSize k =
        .ok (⟨k.heap.startAddress + stackSize sizes + 12, 0, maxSize⟩, k1) ∧
      Stacked k1 (4 * maxSize :: sizes) ∧ SamePaging k k1 := by
  have hlt := h.sound.end_lt
  have hbytes : maxSize * 4 % 4294967296 = 4 * maxSize := by omega
  obtain ⟨k', halloc, hstacked, hpaging⟩ := h.push fuel hroom
  have hcall : Kernel.kmalloc (Kernel.alloc (fuel + 1)) (4 * maxSize) k =
      .ok (k.heap.startAddress + stackSize sizes + 12, none, k') := by
    rw [Kernel.kmalloc, Kernel.kmallocInt, if_pos hkheap, halloc]
    rfl
  refine ⟨{ k' with
    mem := memset (k.heap.startAddress + stackSize sizes + 12) 0 (4 * maxSize) k'.mem }, ?_,
    hstacked.of_sameOutside (u := (k.heap.startAddress + stackSize sizes + 12, 4 * maxSize)) ?_ ?_,
    hpaging.trans (samePaging_mem k' _)⟩
  · rw [OrderedArray.create, hbytes, hcall]
    rfl
  · rw [hpaging.start]
    exact List.mem_cons_self
  · intro x hx
    exact if_neg (by omega)

/-- **An ordered array on the heap.** It can be created where there is room, every run of insertions
and removals that never overfills it leaves it sorted, with what was inserted and not removed, and
changes nothing outside of its block, and destroying it leaves the blocks that were there before. -/
theorem create_run_destroy (h : Stacked k sizes) (hkheap : k.kheap ≠ 0) (fuel maxSize : Nat)
    (hroom : stackSize sizes + 4 * maxSize + 40 ≤ k.heap.endAddress - k.heap.startAddress)
    (cs : List ArrayCall) (hlt : StrictWeakOn lessThan {x | ArrayCall.insert x ∈ cs}) :
    ∃ a k1, create (Kernel.alloc (fuel + 1)) maxSize k = .ok (a, k1) ∧
      a = ⟨k.heap.startAddress + stackSize sizes + 12, 0, maxSize⟩ ∧
      (Run.Along (ArrayCall.step lessThan) Valid cs (a, k1.mem) →
        Sorted lessThan (Run.after (ArrayCall.step lessThan) cs (a, k1.mem)).items ∧
        ((Run.after (ArrayCall.step lessThan) cs (a, k1.mem)).items : Multiset Nat) +
          removed lessThan cs (a, k1.mem) = inserted cs ∧
        SameOutside a.array (a.array + 4 * maxSize) k1.mem
          (Run.after (ArrayCall.step lessThan) cs (a, k1.mem)).2 ∧
        ∃ k2, (Run.after (ArrayCall.step lessThan) cs (a, k1.mem)).1.destroy
            { k1 with mem := (Run.after (ArrayCall.step lessThan) cs (a, k1.mem)).2 } = .ok k2 ∧
          Stacked k2 sizes ∧ SamePaging k k2) := by
  obtain ⟨k1, hcreate, hstacked, hpaging⟩ := h.createArray hkheap fuel hroom
  obtain ⟨a, ha⟩ : ∃ a : OrderedArray,
      a = ⟨k.heap.startAddress + stackSize sizes + 12, 0, maxSize⟩ := ⟨_, rfl⟩
  refine ⟨a, k1, ha ▸ hcreate, ha, fun hvalid => ?_⟩
  have hsize : a.size = 0 := by rw [ha]
  have hempty : ArrayState.items (a, k1.mem) = [] := by
    rw [ArrayState.items, OrderedArray.entries, hsize]
    rfl
  obtain ⟨-, hsorted⟩ := changes_along hlt (by rw [hempty]; exact List.Pairwise.nil)
    (by simp [hempty]) (fun _ hx => hx) hvalid
  have hitems := items_after hvalid
  rw [hempty, Multiset.coe_nil, Multiset.zero_add] at hitems
  have hinside := Inside.after (s := (a, k1.mem)) (by rw [hsize]; exact Nat.zero_le _) hvalid
  generalize Run.after (ArrayCall.step lessThan) cs (a, k1.mem) = t at hsorted hitems hinside
  have hsame := hinside.same
  have hmax : a.maxSize = maxSize := by rw [ha]
  have harray : a.array = k.heap.startAddress + stackSize sizes + 12 := by rw [ha]
  rw [hmax] at hsame
  refine ⟨hsorted, hitems, hsame, ?_⟩
  rw [harray] at hsame
  have hkept : Stacked { k1 with mem := t.2 } (4 * maxSize :: sizes) := by
    refine hstacked.of_sameOutside (u := (k.heap.startAddress + stackSize sizes + 12,
      4 * maxSize)) ?_ hsame
    rw [hpaging.start]
    exact List.mem_cons_self
  obtain ⟨k2, hfree, hback, hpaging2⟩ := hkept.pop
  refine ⟨k2, ?_, hback, (hpaging.trans (samePaging_mem k1 t.2)).trans hpaging2⟩
  rw [destroy, Kernel.kfree, hinside.array, harray, ← hpaging.start]
  exact hfree

/-- Three items in an array of four, compared as numbers, and the least of them taken out. -/
theorem create_run_destroy_four : ∃ a k1,
    create (Kernel.alloc 1) 4 bareStart.kernel = .ok (a, k1) ∧ a = ⟨0xC008100C, 0, 4⟩ ∧
      Sorted standardLessthanPredicate
        (Run.after (ArrayCall.step standardLessthanPredicate)
          [.insert 31, .insert 12, .insert 35, .remove 0] (a, k1.mem)).items := by
  have hstacked : Stacked bareStart.kernel [] := fresh_bareStart.stacked (by decide +kernel)
  have hlt : StrictWeakOn standardLessthanPredicate
      {x | ArrayCall.insert x ∈ [.insert 31, .insert 12, .insert 35, .remove 0]} := by
    constructor <;> simp only [standardLessthanPredicate, decide_eq_true_eq]
    · omega
    · omega
    · omega
  obtain ⟨a, k1, hcreate, ha, hrun⟩ := create_run_destroy hstacked (by decide +kernel) 0 4
    (by decide +kernel)
    [.insert 31, .insert 12, .insert 35, .remove 0] hlt
  have hvalid : Run.Along (ArrayCall.step standardLessthanPredicate) Valid
      [.insert 31, .insert 12, .insert 35, .remove 0] (a, k1.mem) := by
    simp [Run.Along, Valid, ArrayCall.step, insert_fst, ha]
  exact ⟨a, k1, hcreate, ha, (hrun hvalid).1⟩

end Lifecycle

end Vulcanos
