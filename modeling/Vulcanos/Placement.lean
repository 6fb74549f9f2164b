import Mathlib.Order.Interval.Set.Basic
import Mathlib.Data.Set.Disjoint
import Mathlib.Order.CompleteBooleanAlgebra
import Mathlib.Data.Set.Lattice
import Mathlib.Order.CompletePartialOrder
import Vulcanos.Boot

/-!
# Requests before there is a heap

While `kheap` is null every request moves `placement_addr` up and nothing is ever given back. What
the requests of a run get lies one behind the other.
-/

namespace Vulcanos

open Word

/-- A request to the bump allocator, in one of its four forms. -/
inductive Placing where
  | kmalloc (sz : Nat)
  | kmallocA (sz : Nat)
  | kmallocP (sz : Nat)
  | kmallocAp (sz : Nat)

namespace Placing

def size : Placing → Nat
  | kmalloc sz | kmallocA sz | kmallocP sz | kmallocAp sz => sz

/-- The variants that ask for a page boundary. -/
def aligned : Placing → Bool
  | kmallocA _ | kmallocAp _ => true
  | kmalloc _ | kmallocP _ => false

/-- The variants that ask for the physical address. -/
def physical : Placing → Bool
  | kmallocP _ | kmallocAp _ => true
  | kmalloc _ | kmallocA _ => false

def run (alloc : Kernel.Allocator) : Placing → Kernel → Except Stop (Nat × Option Nat × Kernel)
  | kmalloc sz, k => Kernel.kmalloc alloc sz k
  | kmallocA sz, k => Kernel.kmallocA alloc sz k
  | kmallocP sz, k => Kernel.kmallocP alloc sz k
  | kmallocAp sz, k => Kernel.kmallocAp alloc sz k

/-- Where the request is placed. -/
def start (c : Placing) (k : Kernel) : Nat :=
  if c.aligned then Kernel.nextPage k.placementAddr else k.placementAddr

/-- Neither the rounding nor the addition of the size wraps. -/
def NoWrap (c : Placing) (k : Kernel) : Prop :=
  (c.aligned → (k.placementAddr &&& 0xFFFFF000) + 0x1000 < 4294967296) ∧
    c.start k + c.size < 4294967296

instance (c : Placing) (k : Kernel) : Decidable (c.NoWrap k) := by
  unfold NoWrap
  infer_instance

end Placing

/-- A request with the address it got and the word that was stored through `phys`. -/
structure Placed where
  call : Placing
  addr : Nat
  phys : Option Nat

/-- A run of requests. -/
def placeAll (alloc : Kernel.Allocator) : List Placing → Kernel → Except Stop (List Placed × Kernel)
  | [], k => .ok ([], k)
  | c :: cs, k => do
      let (addr, phys, k) ← c.run alloc k
      let (placed, k) ← placeAll alloc cs k
      .ok (⟨c, addr, phys⟩ :: placed, k)

/-- No request of the run wraps `placement_addr`. -/
def NoneWraps (alloc : Kernel.Allocator) : List Placing → Kernel → Prop
  | [], _ => True
  | c :: cs, k => c.NoWrap k ∧
      match c.run alloc k with
      | .ok (_, _, k') => NoneWraps alloc cs k'
      | .error _ => True

section Placing

variable {alloc : Kernel.Allocator} {k : Kernel} {c : Placing} {cs : List Placing}

/-- One request takes its bytes at `start` and leaves `placement_addr` behind them. -/
theorem Placing.run_eq (hkheap : k.kheap = 0) (hwrap : c.NoWrap k) :
    c.run alloc k = .ok (c.start k, if c.physical then some (c.start k) else none,
      { k with placementAddr := c.start k + c.size }) := by
  obtain ⟨-, hsum⟩ := hwrap
  have hcall : ∀ (sz align : Nat) (phys : Bool),
      (if align = 1 then Kernel.nextPage k.placementAddr else k.placementAddr) + sz < 4294967296 →
      Kernel.kmallocInt alloc sz align phys k =
        .ok (if align = 1 then Kernel.nextPage k.placementAddr else k.placementAddr,
          if phys then some (if align = 1 then Kernel.nextPage k.placementAddr else k.placementAddr)
          else none,
          { k with placementAddr :=
              (if align = 1 then Kernel.nextPage k.placementAddr else k.placementAddr) + sz }) := by
    intro sz align phys hsum
    unfold Kernel.kmallocInt
    rw [if_neg (not_not.mpr hkheap)]
    simp only [add32_eq hsum]
  cases c with
  | kmalloc sz => exact hcall sz 0 false hsum
  | kmallocA sz => exact hcall sz 1 false hsum
  | kmallocP sz => exact hcall sz 0 true hsum
  | kmallocAp sz => exact hcall sz 1 true hsum

theorem Placing.start_spec (hge : 0x1000 ≤ k.placementAddr) (hlt : k.placementAddr < 4294967296)
    (hwrap : c.NoWrap k) :
    k.placementAddr ≤ c.start k ∧ (c.aligned → c.start k % 0x1000 = 0) := by
  unfold Placing.start
  cases haligned : c.aligned with
  | false => simp
  | true =>
      have hround := hwrap.1 haligned
      rw [and_highMask hlt] at hround
      rw [if_pos rfl, nextPage_eq hge (by omega)]
      exact ⟨by omega, fun _ => by omega⟩

/-- **What the bump allocator hands out** lies one behind the other below `placement_addr`, aligned
where it was asked for, and mapped to itself. -/
theorem placeAll_spec (alloc : Kernel.Allocator) (cs : List Placing) (k : Kernel)
    (hkheap : k.kheap = 0) (hge : 0x1000 ≤ k.placementAddr) (hlt : k.placementAddr < 4294967296)
    (hwrap : NoneWraps alloc cs k) :
    ∃ placed k', placeAll alloc cs k = .ok (placed, k') ∧ placed.map Placed.call = cs ∧
      (placed.Pairwise fun r r' => r.addr + r.call.size ≤ r'.addr ∧
        Disjoint (Set.Ico r.addr (r.addr + r.call.size))
          (Set.Ico r'.addr (r'.addr + r'.call.size))) ∧
      k.placementAddr ≤ k'.placementAddr ∧
      ∀ r ∈ placed, k.placementAddr ≤ r.addr ∧ r.addr + r.call.size ≤ k'.placementAddr ∧
        (r.call.aligned → r.addr % 0x1000 = 0) ∧
        r.phys = if r.call.physical then some r.addr else none := by
  induction cs generalizing k with
  | nil => exact ⟨[], k, rfl, rfl, List.Pairwise.nil, Nat.le_refl _, by simp⟩
  | cons c cs ih =>
      obtain ⟨hwrap, hrest⟩ := hwrap
      have hrun : c.run alloc k = _ := Placing.run_eq hkheap hwrap
      obtain ⟨hle, haligned⟩ := Placing.start_spec hge hlt hwrap
      have hsum := hwrap.2
      rw [hrun] at hrest
      obtain ⟨placed, k', hplaced, hcalls, hpairwise, hgrows, hall⟩ :=
        ih { k with placementAddr := c.start k + c.size } hkheap
          (Nat.le_trans hge (Nat.le_trans hle (Nat.le_add_right _ _))) hsum hrest
      simp only at hgrows hall
      refine ⟨⟨c, c.start k, if c.physical then some (c.start k) else none⟩ :: placed, k', ?_,
        by simp [hcalls], List.pairwise_cons.mpr ⟨fun r hr => ?_, hpairwise⟩, by omega, ?_⟩
      · simp only [placeAll, hrun, ok_bind, hplaced]
      · obtain ⟨hstart, -⟩ := hall r hr
        refine ⟨hstart, Set.disjoint_left.mpr fun x hx hx' => ?_⟩
        exact absurd (Nat.lt_of_lt_of_le hx.2 hstart) (Nat.not_lt.mpr hx'.1)
      · intro r hr
        rcases List.mem_cons.mp hr with rfl | hr
        · exact ⟨hle, hgrows, haligned, rfl⟩
        · obtain ⟨hstart, hend, hrest⟩ := hall r hr
          exact ⟨by omega, hend, hrest⟩

end Placing

theorem placeAll_spec_bareKernel :
    ∃ placed k', placeAll (Kernel.alloc 0) [.kmalloc 32, .kmallocAp 0x1000,
        .kmallocP 0] bareKernel =
        .ok (placed, k') ∧ placed.map Placed.addr = [0x200000, 0x201000, 0x202000] ∧
      0x200000 ≤ k'.placementAddr := by
  obtain ⟨placed, k', hplaced, -, -, hgrows, -⟩ :=
    placeAll_spec (Kernel.alloc 0) [.kmalloc 32, .kmallocAp 0x1000, .kmallocP 0] bareKernel rfl
      (by decide) (by decide)
      ⟨by decide, ⟨by decide, ⟨by decide, trivial⟩⟩⟩
  refine ⟨placed, k', hplaced, ?_, hgrows⟩
  have heq : (placeAll (Kernel.alloc 0) [.kmalloc 32, .kmallocAp 0x1000, .kmallocP 0]
      bareKernel).map (fun r => r.1.map Placed.addr) =
        .ok [0x200000, 0x201000, 0x202000] := by rfl
  rw [hplaced] at heq
  exact Except.ok.inj heq

end Vulcanos
