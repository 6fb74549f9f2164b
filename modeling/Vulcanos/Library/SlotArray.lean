import Mathlib.Algebra.Order.Group.Nat
import Mathlib.Data.List.Nodup
import Mathlib.Logic.Function.Basic

/-!
# Arrays of slots

An array is a function from slot numbers to items, of which the first `size` count. Inserting and
removing by shifting are loops over the slots; seen through `entries`, inserting splits the list of
items in two and puts the new one between the halves, and removing takes one out. Slots past the end
do not matter, though both loops pass over one.
-/

namespace Vulcanos.SlotArray

variable {α : Type}

/-- The items in the first `size` slots. -/
def entries (size : Nat) (array : Nat → α) : List α := (List.range size).map array

/-- Search for the first slot whose item is not less than `item`, giving up after `n` slots. -/
def position (lessThan : α → α → Bool) (item : α) (size : Nat) (array : Nat → α) : Nat → Nat → Nat
  | 0, it => it
  | n + 1, it =>
      if it < size ∧ lessThan (array it) item then position lessThan item size array n (it + 1)
      else it

/-- `tmp` travels up from slot `it`, one slot at a time, until the end. -/
def shiftUp (size : Nat) : Nat → Nat → α → (Nat → α) → (Nat → α)
  | 0, _, _, array => array
  | n + 1, it, tmp, array =>
      if it < size then shiftUp size n (it + 1) (array (it + 1)) (Function.update array
          (it + 1) tmp)
      else array

/-- Put an item into slot `it` and move what was there and above up by one. -/
def insertAt (size it : Nat) (item : α) (array : Nat → α) : Nat → α :=
  if it = size then Function.update array size item
  else shiftUp size size it (array it) (Function.update array it item)

/-- Every slot from `i` on takes the item of the next one, until the end. -/
def shiftDown (size : Nat) : Nat → Nat → (Nat → α) → (Nat → α)
  | 0, _, array => array
  | n + 1, i, array =>
      if i < size then shiftDown size n (i + 1) (Function.update array i (array (i + 1)))
      else array

variable {item : α} {size : Nat} {array : Nat → α}

@[simp]
theorem length_entries (size : Nat) (array : Nat → α) : (entries size array).length = size := by
  simp [entries]

@[simp]
theorem getElem_entries {i : Nat} (h : i < (entries size array).length) :
    (entries size array)[i] = array i := by
  simp [entries]

theorem mem_entries {i : Nat} (h : i < size) : array i ∈ entries size array :=
  List.mem_map.mpr ⟨i, List.mem_range.mpr h, rfl⟩

theorem entries_split {i : Nat} (hi : i < size) :
    ∃ left right, entries size array = left ++ array i :: right ∧ left.length = i := by
  have hlt : i < (entries size array).length := by simpa using hi
  refine ⟨(entries size array).take i, (entries size array).drop (i + 1), ?_, by simp; omega⟩
  have hget : (entries size array)[i] = array i := getElem_entries hlt
  rw [← hget, List.getElem_cons_drop, List.take_append_drop]

/-! ### Inserting -/

theorem position_spec (lessThan : α → α → Bool) (item : α) (array : Nat → α) (n it : Nat)
    (hn : it + n = size) :
    it ≤ position lessThan item size array n it ∧ position lessThan item size array n it ≤ size ∧
      (∀ j, it ≤ j → j < position lessThan item size array n it → lessThan (array j) item) ∧
      (position lessThan item size array n it < size →
        ¬ lessThan (array (position lessThan item size array n it)) item) := by
  induction n generalizing it with
  | zero =>
      rw [position]
      exact ⟨Nat.le_refl _, by omega, fun j _ _ => by omega, fun _ => by omega⟩
  | succ n ih =>
      rw [position]
      split
      · rename_i hless
        obtain ⟨hge, hle, hbefore, hstop⟩ := ih (it + 1) (by omega)
        refine ⟨by omega, hle, fun j hj hlt => ?_, hstop⟩
        rcases Nat.eq_or_lt_of_le hj with rfl | hj
        · exact hless.2
        · exact hbefore j hj hlt
      · rename_i hless
        exact ⟨Nat.le_refl _, by omega, fun j _ _ => by omega, fun hlt hcon => hless ⟨hlt, hcon⟩⟩

theorem shiftUp_apply (n it : Nat) (tmp : α) (array : Nat → α) (hit : it ≤ size)
    (hn : size ≤ it + n) (j : Nat) :
    shiftUp size n it tmp array j =
      if j ≤ it ∨ size < j then array j else if j = it + 1 then tmp else array (j - 1) := by
  induction n generalizing it tmp array with
  | zero =>
      rw [shiftUp, if_pos (by omega)]
  | succ n ih =>
      rw [shiftUp]
      split
      · rename_i hlt
        rw [ih (it + 1) _ _ (by omega) (by omega)]
        by_cases hj : j = it + 1
        · subst hj
          rw [if_pos (by omega), if_neg (by omega), if_pos rfl, Function.update_self]
        · by_cases hout : j ≤ it ∨ size < j
          · rw [if_pos (by omega), if_pos hout, Function.update_of_ne hj]
          · rw [if_neg (by omega), if_neg hout, if_neg hj]
            by_cases hnext : j = it + 1 + 1
            · rw [if_pos hnext, hnext, Nat.add_sub_cancel]
            · rw [if_neg hnext, Function.update_of_ne (by omega)]
      · rw [if_pos (by omega)]

theorem insertAt_apply {it j : Nat} (hit : it ≤ size) (hj : j ≤ size) :
    insertAt size it item array j =
      if j < it then array j else if j = it then item else array (j - 1) := by
  unfold insertAt
  split
  · rename_i hend
    subst hend
    by_cases hjend : j = it
    · simp [hjend]
    · rw [Function.update_of_ne hjend, if_pos (by omega)]
  · rename_i hend
    rw [shiftUp_apply _ _ _ _ hit (by omega)]
    rcases Nat.lt_trichotomy j it with hlt | heq | hgt
    · rw [if_pos (by omega), if_pos hlt, Function.update_of_ne (by omega)]
    · subst heq
      simp
    · rw [if_neg (show ¬ (j ≤ it ∨ size < j) by omega), if_neg (show ¬ j < it by omega),
        if_neg (show ¬ j = it by omega)]
      by_cases hnext : j = it + 1
      · rw [if_pos hnext, hnext, Nat.add_sub_cancel]
      · rw [if_neg hnext, Function.update_of_ne (by omega)]

/-- **Inserting at a slot** puts the item between the entries below the slot and the others. -/
theorem entries_insertAt {it : Nat} (hit : it ≤ size) :
    entries (size + 1) (insertAt size it item array) =
      (entries size array).take it ++ item :: (entries size array).drop it := by
  apply List.ext_getElem
  · simp
    omega
  · intro j hj _
    rw [length_entries] at hj
    rw [getElem_entries, insertAt_apply hit (by omega), List.getElem_append]
    simp only [List.length_take, length_entries, Nat.min_eq_left hit]
    rcases Nat.lt_trichotomy j it with hlt | heq | hgt
    · simp [hlt]
    · subst heq
      simp
    · rw [if_neg (by omega), if_neg (by omega), dif_neg (by omega), List.getElem_cons,
        dif_neg (by omega), List.getElem_drop, getElem_entries]
      congr 1
      omega

/-- **Ordered insertion.** The entries before the new item are all less than it, and the first one
after it is not. -/
theorem entries_insertAt_position (lessThan : α → α → Bool) (item : α) (size : Nat)
    (array : Nat → α) :
    ∃ left right, entries size array = left ++ right ∧
      entries (size + 1) (insertAt size (position lessThan item size array size 0) item array) =
        left ++ item :: right ∧
      (∀ x ∈ left, lessThan x item) ∧ (∀ x ∈ right.head?, ¬ lessThan x item) := by
  obtain ⟨-, hle, hbefore, hstop⟩ := position_spec lessThan item array size 0 (Nat.zero_add size)
  refine ⟨_, _, (List.take_append_drop _ _).symm, entries_insertAt hle, ?_, ?_⟩
  · intro x hx
    obtain ⟨j, hj, rfl⟩ := List.mem_take_iff_getElem.mp hx
    rw [getElem_entries]
    exact hbefore j (Nat.zero_le j) (by omega)
  · intro x hx
    rw [List.head?_drop, Option.mem_def, List.getElem?_eq_some_iff] at hx
    obtain ⟨hlt, rfl⟩ := hx
    rw [getElem_entries]
    exact hstop (by simpa using hlt)

/-! ### Removing -/

theorem shiftDown_apply (n i : Nat) (array : Nat → α) (hi : i ≤ size) (hn : size ≤ i + n)
    (j : Nat) :
    shiftDown size n i array j = if j < i ∨ size ≤ j then array j else array (j + 1) := by
  induction n generalizing i array with
  | zero => rw [shiftDown, if_pos (by omega)]
  | succ n ih =>
      rw [shiftDown]
      split
      · rw [ih (i + 1) _ (by omega) (by omega)]
        by_cases hj : j = i
        · subst hj
          rw [if_pos (by omega), if_neg (by omega), Function.update_self]
        · by_cases hout : j < i ∨ size ≤ j
          · rw [if_pos (by omega), if_pos hout, Function.update_of_ne hj]
          · rw [if_neg (by omega), if_neg hout, Function.update_of_ne (by omega)]
      · rw [if_pos (by omega)]

/-- **Removing a slot** takes its item out of the list. -/
theorem entries_shiftDown {i : Nat} (hi : i < size) :
    entries (size - 1) (shiftDown size size i array) = (entries size array).eraseIdx i := by
  have hlength : ((entries size array).eraseIdx i).length = size - 1 := by
    rw [List.length_eraseIdx, length_entries, if_pos hi]
  apply List.ext_getElem
  · rw [length_entries, hlength]
  · intro j hj hj'
    rw [hlength] at hj'
    rw [getElem_entries, List.getElem_eraseIdx]
    simp only [getElem_entries]
    rw [shiftDown_apply _ _ _ (by omega) (by omega)]
    by_cases hlt : j < i
    · simp [hlt]
    · rw [if_neg (by omega), dif_neg hlt]

end Vulcanos.SlotArray
