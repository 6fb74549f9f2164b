import Vulcanos.Kernel.OrderedArray
import Vulcanos.Library.SlotArray

/-!
# The ordered array as a list

The loops of `ordered_array.c` are the slot loops of the library, run on memory: one word a slot.
From that the heap needs three things of an insertion and of a removal: which list of items it
leaves, and which bytes it may have touched.
-/

namespace Vulcanos.OrderedArray

open Memory

variable {lessThan : Nat → Nat → Bool} {item : Nat} {a : OrderedArray} {m m' : Mem}

theorem slot_lt (a : OrderedArray) (m : Mem) (i : Nat) : a.slot m i < 4294967296 := read32_lt m _

theorem slot_setSlot (a : OrderedArray) (m : Mem) (i : Nat) (hitem : item < 4294967296) :
    a.slot (a.setSlot i item m) = Function.update (a.slot m) i item := by
  funext j
  by_cases hj : j = i
  · subst hj
    rw [Function.update_self]
    exact read32_write32_self m _ hitem
  · rw [Function.update_of_ne hj]
    exact read32_write32_of_apart (by omega)

theorem setSlot_sameOutside {lo hi : Nat} (a : OrderedArray) (i item : Nat)
    (hlo : lo ≤ a.array) (hhi : a.array + 4 * (i + 1) ≤ hi) (h : SameOutside lo hi m m') :
    SameOutside lo hi m (a.setSlot i item m') :=
  h.write32 (by omega) (by omega)

@[simp]
theorem length_entries (a : OrderedArray) (m : Mem) : (a.entries m).length = a.size :=
  SlotArray.length_entries _ _

theorem lookup_lt (i : Nat) (a : OrderedArray) (m : Mem) : a.lookup i m < 4294967296 :=
  slot_lt a m i

theorem lookup_mem {i : Nat} (h : i < a.size) : a.lookup i m ∈ a.entries m :=
  SlotArray.mem_entries h

theorem entries_split (m : Mem) {i : Nat} (h : i < a.size) :
    ∃ left right, a.entries m = left ++ a.lookup i m :: right ∧ left.length = i :=
  SlotArray.entries_split h

theorem entries_congr (h : SameOn a.array (a.array + 4 * a.size) m m') :
    a.entries m' = a.entries m := by
  apply List.map_congr_left
  intro i hi
  have hlt := List.mem_range.mp hi
  exact h.read32 (by omega) (by omega)

/-! ### Inserting -/

theorem insertPosition_eq (lessThan : Nat → Nat → Bool) (item : Nat) (a : OrderedArray) (m : Mem)
    (n it : Nat) :
    insertPosition lessThan item a m n it =
      SlotArray.position lessThan item a.size (a.slot m) n it := by
  induction n generalizing it with
  | zero => rfl
  | succ n ih =>
      rw [insertPosition, SlotArray.position, ih]

theorem slot_shiftUp (a : OrderedArray) (n it tmp : Nat) (m : Mem) (htmp : tmp < 4294967296) :
    a.slot (shiftUp a n it tmp m) = SlotArray.shiftUp a.size n it tmp (a.slot m) := by
  induction n generalizing it tmp m with
  | zero => rfl
  | succ n ih =>
      rw [shiftUp, SlotArray.shiftUp]
      split
      · rw [ih _ _ _ (slot_lt a m _), slot_setSlot a m _ htmp]
      · rfl

theorem shiftUp_sameOutside (a : OrderedArray) (n it tmp : Nat) {lo hi : Nat}
    (hlo : lo ≤ a.array) (hhi : a.array + 4 * (a.size + 1) ≤ hi) (h : SameOutside lo hi m m') :
    SameOutside lo hi m (shiftUp a n it tmp m') := by
  induction n generalizing it tmp m' with
  | zero => exact h
  | succ n ih =>
      rw [shiftUp]
      split
      · exact ih _ _ (setSlot_sameOutside a _ _ hlo (by omega) h)
      · exact h

theorem insert_fst (lessThan : Nat → Nat → Bool) (item : Nat) (a : OrderedArray) (m : Mem) :
    (insert lessThan item a m).1 = { a with size := a.size + 1 } := by
  unfold insert
  dsimp only
  split <;> rfl

theorem slot_insert (lessThan : Nat → Nat → Bool) (a : OrderedArray) (m : Mem)
    (hitem : item < 4294967296) :
    a.slot (insert lessThan item a m).2 =
      SlotArray.insertAt a.size (SlotArray.position lessThan item a.size (a.slot m) a.size 0) item
        (a.slot m) := by
  unfold insert SlotArray.insertAt
  simp only [insertPosition_eq]
  split
  · exact slot_setSlot a m _ hitem
  · rw [slot_shiftUp _ _ _ _ _ (slot_lt a m _), slot_setSlot a m _ hitem]

theorem insert_sameOutside (lessThan : Nat → Nat → Bool) (item : Nat) (a : OrderedArray)
    (m : Mem) :
    SameOutside a.array (a.array + 4 * (a.size + 1)) m (insert lessThan item a m).2 := by
  obtain ⟨-, hle, -⟩ := SlotArray.position_spec lessThan item (a.slot m) a.size 0
    (Nat.zero_add a.size)
  rw [← insertPosition_eq] at hle
  unfold insert
  dsimp only
  split
  · exact setSlot_sameOutside a _ _ (Nat.le_refl _) (Nat.le_refl _) (SameOutside.refl _ _ m)
  · exact shiftUp_sameOutside a _ _ _ (Nat.le_refl _) (Nat.le_refl _)
      (setSlot_sameOutside a _ _ (Nat.le_refl _) (by omega) (SameOutside.refl _ _ m))

/-- **What `insert_ordered_array` leaves.** The item goes between the items before it, all less than
it, and the rest, the first of which is not. -/
theorem entries_insert (lessThan : Nat → Nat → Bool) (a : OrderedArray) (m : Mem)
    (hitem : item < 4294967296) :
    ∃ left right, a.entries m = left ++ right ∧
      (insert lessThan item a m).1.entries (insert lessThan item a m).2 = left ++ item :: right ∧
      (∀ x ∈ left, lessThan x item) ∧ (∀ x ∈ right.head?, ¬ lessThan x item) := by
  obtain ⟨left, right, hsplit, hinsert, hspec⟩ :=
    SlotArray.entries_insertAt_position lessThan item a.size (a.slot m)
  refine ⟨left, right, hsplit, ?_, hspec⟩
  rw [← slot_insert lessThan a m hitem] at hinsert
  rw [insert_fst]
  exact hinsert

theorem perm_insert (lessThan : Nat → Nat → Bool) (a : OrderedArray) (m : Mem)
    (hitem : item < 4294967296) :
    ((insert lessThan item a m).1.entries (insert lessThan item a m).2).Perm
      (item :: a.entries m) := by
  obtain ⟨left, right, hsplit, hinsert, -⟩ := entries_insert lessThan a m hitem
  rw [hinsert, hsplit]
  exact List.perm_middle

/-! ### Removing -/

theorem slot_shiftDown (a : OrderedArray) (n i : Nat) (m : Mem) :
    a.slot (shiftDown a n i m) = SlotArray.shiftDown a.size n i (a.slot m) := by
  induction n generalizing i m with
  | zero => rfl
  | succ n ih =>
      rw [shiftDown, SlotArray.shiftDown]
      split
      · rw [ih, slot_setSlot a m _ (slot_lt a m _)]
      · rfl

theorem shiftDown_sameOutside (a : OrderedArray) (n i : Nat) {lo hi : Nat} (hlo : lo ≤ a.array)
    (hhi : a.array + 4 * a.size ≤ hi) (h : SameOutside lo hi m m') :
    SameOutside lo hi m (shiftDown a n i m') := by
  induction n generalizing i m' with
  | zero => exact h
  | succ n ih =>
      rw [shiftDown]
      split
      · exact ih _ (setSlot_sameOutside a _ _ hlo (by omega) h)
      · exact h

theorem remove_sameOutside (i : Nat) (a : OrderedArray) (m : Mem) :
    SameOutside a.array (a.array + 4 * a.size) m (remove i a m).2 :=
  shiftDown_sameOutside a _ _ (Nat.le_refl _) (Nat.le_refl _) (SameOutside.refl _ _ m)

/-- **What `remove_ordered_array` leaves.** -/
theorem entries_remove {i : Nat} (hi : i < a.size) :
    (remove i a m).1.entries (remove i a m).2 = (a.entries m).eraseIdx i := by
  have h := @SlotArray.entries_shiftDown _ a.size (a.slot m) i hi
  rw [← slot_shiftDown] at h
  exact h

theorem entries_remove_of_split {left right : List Nat} {x : Nat}
    (hsplit : a.entries m = left ++ x :: right) :
    (remove left.length a m).1.entries (remove left.length a m).2 = left ++ right := by
  have hlt : left.length < a.size := by
    rw [← length_entries a m, hsplit]
    simp
  rw [entries_remove hlt, hsplit, List.eraseIdx_append_of_length_le (Nat.le_refl _),
    Nat.sub_self, List.eraseIdx_cons_zero]

end Vulcanos.OrderedArray
