import Vulcanos.HeapSystem
import Vulcanos.Library.Trace
import Vulcanos.Proof.Alloc
import Vulcanos.Proof.OrderedArray

/-!
# Uses of an ordered array

Which slots a call on an ordered array loads from and stores to, and which calls the heap makes on
its index: each function of `kheap.c` has the list of its calls next to it, written along the code.
The lists are traces, and every call in them is made on the array as the call before it left it.
-/

namespace Vulcanos

open Memory Word Trace

/-! ### Slots -/

namespace OrderedArray

/-- The slots that the first loop of `insert_ordered_array` loads. -/
def insertPositionSlots (lessThan : Nat → Nat → Bool) (item : Nat) (a : OrderedArray) (m : Mem) :
    Nat → Nat → List Nat
  | 0, _ => []
  | n + 1, it =>
      if it < a.size then
        it :: if lessThan (a.slot m it) item then insertPositionSlots lessThan item a m n (it + 1)
          else []
      else []

/-- The slots that the second loop of `insert_ordered_array` loads and stores. -/
def shiftUpSlots (a : OrderedArray) : Nat → Nat → List Nat
  | 0, _ => []
  | n + 1, it => if it < a.size then (it + 1) :: shiftUpSlots a n (it + 1) else []

/-- The slots that `insert_ordered_array` loads or stores. -/
def insertSlots (lessThan : Nat → Nat → Bool) (item : Nat) (a : OrderedArray) (m : Mem) :
    List Nat :=
  let it := insertPosition lessThan item a m a.size 0
  insertPositionSlots lessThan item a m a.size 0 ++
    if it = a.size then [a.size] else it :: shiftUpSlots a a.size it

/-- The slots that `remove_ordered_array` loads or stores: each round loads slot `i + 1` and stores
slot `i`. -/
def removeSlots (a : OrderedArray) : Nat → Nat → List Nat
  | 0, _ => []
  | n + 1, i => if i < a.size then (i + 1) :: i :: removeSlots a n (i + 1) else []

variable {lessThan : Nat → Nat → Bool} {item i : Nat} {a : OrderedArray} {m : Mem}

theorem lt_of_mem_insertPositionSlots {n it : Nat}
    (hi : i ∈ insertPositionSlots lessThan item a m n it) : i < a.size := by
  induction n generalizing it with
  | zero => simp [insertPositionSlots] at hi
  | succ n ih =>
      rw [insertPositionSlots] at hi
      split at hi
      · rename_i hit
        rcases List.mem_cons.mp hi with rfl | hi
        · exact hit
        · split at hi
          · exact ih hi
          · simp at hi
      · simp at hi

theorem le_of_mem_shiftUpSlots {n it : Nat} (hi : i ∈ shiftUpSlots a n it) : i ≤ a.size := by
  induction n generalizing it with
  | zero => simp [shiftUpSlots] at hi
  | succ n ih =>
      rw [shiftUpSlots] at hi
      split at hi
      · rcases List.mem_cons.mp hi with rfl | hi
        · omega
        · exact ih hi
      · simp at hi

theorem le_of_mem_insertSlots (hi : i ∈ insertSlots lessThan item a m) : i ≤ a.size := by
  obtain ⟨-, hle, -⟩ := SlotArray.position_spec lessThan item (a.slot m) a.size 0
    (Nat.zero_add a.size)
  rw [← insertPosition_eq] at hle
  rw [insertSlots, List.mem_append] at hi
  rcases hi with hi | hi
  · exact Nat.le_of_lt (lt_of_mem_insertPositionSlots hi)
  · split at hi
    · rw [List.mem_singleton.mp hi]
    · rcases List.mem_cons.mp hi with rfl | hi
      · exact hle
      · exact le_of_mem_shiftUpSlots hi

theorem mem_shiftUpSlots {n it : Nat} (hit : it < i) (hi : i ≤ a.size) (hn : i ≤ it + n) :
    i ∈ shiftUpSlots a n it := by
  induction n generalizing it with
  | zero => omega
  | succ n ih =>
      rw [shiftUpSlots, if_pos (by omega)]
      rcases Nat.eq_or_lt_of_le hit with heq | hlt
      · rw [← heq]
        exact List.mem_cons_self ..
      · exact List.mem_cons_of_mem _ (ih hlt (by omega))

theorem mem_insertSlots (hit : insertPosition lessThan item a m a.size 0 ≤ i) (hi : i ≤ a.size) :
    i ∈ insertSlots lessThan item a m := by
  apply List.mem_append_right
  split
  · rw [List.mem_singleton]
    omega
  · rcases Nat.eq_or_lt_of_le hit with heq | hlt
    · rw [← heq]
      exact List.mem_cons_self ..
    · exact List.mem_cons_of_mem _ (mem_shiftUpSlots hlt hi (by omega))

theorem mem_removeSlots {n j : Nat} (hij : j ≤ i) (hi : i ≤ a.size) (hj : j < a.size)
    (hn : a.size ≤ j + n) : i ∈ removeSlots a n j := by
  induction n generalizing j with
  | zero => omega
  | succ n ih =>
      rw [removeSlots, if_pos hj]
      by_cases hnext : i = j ∨ i = j + 1
      · rcases hnext with rfl | rfl
        · exact List.mem_cons_of_mem _ (List.mem_cons_self ..)
        · exact List.mem_cons_self ..
      · exact List.mem_cons_of_mem _
          (List.mem_cons_of_mem _ (ih (by omega) (by omega) (by omega)))

theorem slot_insert_of_not_mem (hitem : item < 4294967296)
    (hi : i ∉ insertSlots lessThan item a m) :
    a.slot (insert lessThan item a m).2 i = a.slot m i := by
  obtain ⟨-, hle, -⟩ := SlotArray.position_spec lessThan item (a.slot m) a.size 0
    (Nat.zero_add a.size)
  rw [slot_insert lessThan a m hitem]
  rw [← insertPosition_eq] at hle ⊢
  by_cases hsize : i ≤ a.size
  · have hlt : i < insertPosition lessThan item a m a.size 0 := by
      by_contra hge
      exact hi (mem_insertSlots (Nat.not_lt.mp hge) hsize)
    rw [SlotArray.insertAt_apply hle hsize, if_pos hlt]
  · rw [insertPosition_eq, ← slot_insert lessThan a m hitem]
    have hsame : SameOn (a.array + 4 * i) (a.array + 4 * i + 4) m (insert lessThan item a m).2 :=
      (insert_sameOutside lessThan item a m).sameOn (Or.inr (by omega))
    exact hsame.read32 (Nat.le_refl _) (Nat.le_refl _)

theorem slot_remove_of_not_mem {j : Nat} (hj : j < a.size)
    (hi : i ∉ removeSlots a a.size j) : a.slot (remove j a m).2 i = a.slot m i := by
  have hout : i < j ∨ a.size ≤ i := by
    by_contra hin
    exact hi (mem_removeSlots (by omega) (by omega) hj (Nat.le_add_left _ _))
  have hslot := congrFun (slot_shiftDown a a.size j m) i
  rw [SlotArray.shiftDown_apply _ _ _ (Nat.le_of_lt hj) (Nat.le_add_left _ _), if_pos hout] at hslot
  exact hslot

variable {m' : Mem}

theorem insertPosition_congr {n it : Nat}
    (h : ∀ i ∈ insertPositionSlots lessThan item a m n it, a.slot m' i = a.slot m i) :
    insertPosition lessThan item a m' n it = insertPosition lessThan item a m n it := by
  induction n generalizing it with
  | zero => rfl
  | succ n ih =>
      rw [insertPositionSlots] at h
      rw [insertPosition, insertPosition]
      by_cases hit : it < a.size
      · rw [if_pos hit] at h
        obtain ⟨hhere, hrest⟩ := List.forall_mem_cons.mp h
        rw [hhere]
        by_cases hless : lessThan (a.slot m it) item
        · rw [if_pos hless] at hrest
          rw [if_pos ⟨hit, hless⟩, if_pos ⟨hit, hless⟩]
          exact ih hrest
        · rw [if_neg (fun hboth => hless hboth.2), if_neg (fun hboth => hless hboth.2)]
      · rw [if_neg (fun hboth => hit hboth.1), if_neg (fun hboth => hit hboth.1)]

theorem slot_insert_congr (hitem : item < 4294967296)
    (h : ∀ i ∈ insertSlots lessThan item a m, a.slot m' i = a.slot m i) :
    ∀ i ∈ insertSlots lessThan item a m,
      a.slot (insert lessThan item a m').2 i = a.slot (insert lessThan item a m).2 i := by
  intro i hi
  have hposition : insertPosition lessThan item a m' a.size 0 =
      insertPosition lessThan item a m a.size 0 :=
    insertPosition_congr fun j hj => h j (List.mem_append_left _ hj)
  obtain ⟨-, hle, -⟩ := SlotArray.position_spec lessThan item (a.slot m) a.size 0
    (Nat.zero_add a.size)
  have hsize := le_of_mem_insertSlots hi
  rw [slot_insert lessThan a m hitem, slot_insert lessThan a m' hitem]
  rw [← insertPosition_eq] at hle ⊢
  rw [← insertPosition_eq, hposition, SlotArray.insertAt_apply hle hsize,
    SlotArray.insertAt_apply hle hsize]
  split
  · exact h i hi
  · split
    · rfl
    · exact h (i - 1) (mem_insertSlots (by omega) (by omega))

theorem slot_remove_congr {j : Nat} (hj : j < a.size)
    (h : ∀ i ∈ removeSlots a a.size j, a.slot m' i = a.slot m i) :
    ∀ i ∈ removeSlots a a.size j, a.slot (remove j a m').2 i = a.slot (remove j a m).2 i := by
  intro i hi
  have hslot := congrFun (slot_shiftDown a a.size j m) i
  have hslot' := congrFun (slot_shiftDown a a.size j m') i
  rw [SlotArray.shiftDown_apply _ _ _ (Nat.le_of_lt hj) (Nat.le_add_left _ _)] at hslot hslot'
  refine hslot'.trans (Eq.trans ?_ hslot.symm)
  split
  · exact h i hi
  · exact h (i + 1) (mem_removeSlots (by omega) (by omega) hj (Nat.le_add_left _ _))

end OrderedArray

/-! ### Uses -/

/-- A call on an ordered array, the comparison with the memory it reads. -/
inductive IndexCall where
  | lookup (i : Nat)
  | insert (lessThan : Nat → Nat → Bool) (item : Nat)
  | remove (i : Nat)

/-- A call, with the array and the memory it is made on. -/
structure IndexUse where
  call : IndexCall
  array : OrderedArray
  mem : Mem

namespace IndexUse

/-- The array and the memory after the call. -/
def result (u : IndexUse) : OrderedArray × Mem :=
  match u.call with
  | .lookup _ => (u.array, u.mem)
  | .insert lessThan item => OrderedArray.insert lessThan item u.array u.mem
  | .remove i => OrderedArray.remove i u.array u.mem

/-- The slots the call loads or stores. -/
def slots (u : IndexUse) : List Nat :=
  match u.call with
  | .lookup i => [i]
  | .insert lessThan item => OrderedArray.insertSlots lessThan item u.array u.mem
  | .remove i => OrderedArray.removeSlots u.array u.array.size i

/-- Only entries are looked up and removed. -/
def Valid (u : IndexUse) : Prop :=
  match u.call with
  | .lookup i => i < u.array.size
  | .insert _ _ => True
  | .remove i => i < u.array.size

instance (u : IndexUse) : Decidable u.Valid := by
  unfold Valid
  split <;> infer_instance

/-- The array is not full when an entry is inserted or removed. -/
def Fits (u : IndexUse) : Prop :=
  match u.call with
  | .lookup _ => True
  | .insert _ _ => u.array.size < u.array.maxSize
  | .remove _ => u.array.size < u.array.maxSize

instance (u : IndexUse) : Decidable u.Fits := by
  unfold Fits
  split <;> infer_instance

end IndexUse

end Vulcanos
