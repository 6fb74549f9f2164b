import Vulcanos.Kernel.Paging
import Vulcanos.Library.Run

/-!
# The heap and its callers

The allocator as a system: a kernel, the blocks its callers hold, and the calls they make. Between
two calls a caller may store into a block it holds, and nowhere else. The number of nested calls
that an `alloc` may make is part of the call, so that a run can give each call as many as it needs.
-/

namespace Vulcanos

open Memory

/-- A kernel and the blocks that are held: the pointers that `alloc` has returned and nobody has
freed since, with the sizes that were asked for. -/
structure HeapRun where
  kernel : Kernel
  live : List (Nat × Nat)

/-- What a caller can do. -/
inductive Call where
  | alloc (fuel size pageAlign : Nat)
  | free (p : Nat)
  | store (a v : Nat)

namespace Call

/-- One call. A call that does not return, because an assertion fails, is no step. -/
def step : Call → HeapRun → Except Stop HeapRun
  | alloc fuel size pageAlign, s => do
      let (p, k) ← Kernel.alloc fuel size pageAlign s.kernel
      .ok ⟨k, (p, size) :: s.live⟩
  | free p, s => do
      let k ← Kernel.free p s.kernel
      .ok ⟨k, s.live.filter fun u => u.1 ≠ p⟩
  | store a v, s => .ok { s with kernel := { s.kernel with mem := write8 s.kernel.mem a v } }

/-- Correct use: no request wraps, only held blocks are freed, and no store leaves the blocks. -/
def Legal : Call → HeapRun → Prop
  | alloc _ size _, _ => size + 20 < 4294967296
  | free p, s => ∃ u ∈ s.live, u.1 = p
  | store a _, s => ∃ u ∈ s.live, u.1 ≤ a ∧ a < u.1 + u.2

instance (c : Call) (s : HeapRun) : Decidable (c.Legal s) := by
  cases c <;> unfold Legal <;> infer_instance

/-- The call is not a page-aligned request. -/
def Plain : Call → Prop
  | alloc _ _ pageAlign => pageAlign = 0
  | _ => True

instance (c : Call) : Decidable c.Plain := by
  cases c <;> unfold Plain <;> infer_instance

end Call

/-- A heap that has just been created on a kernel without one, and nothing handed out. -/
def Fresh (s : HeapRun) : Prop :=
  ∃ k, k.kheap = 0 ∧ Kernel.createKernelHeap k = .ok s.kernel ∧ s.live = []

end Vulcanos
