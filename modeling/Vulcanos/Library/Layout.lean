import Mathlib.Data.List.Nodup
import Mathlib.Algebra.Order.BigOperators.Group.List
import Mathlib.Algebra.Order.Group.Nat
import Mathlib.Algebra.GroupWithZero.Nat

/-!
# Laying items out one after another

A list of items, each of some size, placed end to end from a start address. `layout` pairs every
item with the address it begins at. An edit of the list in the middle leaves the addresses on the
left alone, and those on the right too as long as the total size does not change: that is what
`layout_append` is for.
-/

namespace Vulcanos.Layout

variable {α : Type} (size : α → Nat)

/-- The size of all items together. -/
def total (xs : List α) : Nat := (xs.map size).sum

/-- Every item with the address it begins at. -/
def layout : Nat → List α → List (Nat × α)
  | _, [] => []
  | a, x :: xs => (a, x) :: layout (a + size x) xs

@[simp]
theorem total_nil : total size [] = 0 := rfl

@[simp]
theorem total_cons (x : α) (xs : List α) : total size (x :: xs) = size x + total size xs := by
  simp [total]

@[simp]
theorem total_append (xs ys : List α) :
    total size (xs ++ ys) = total size xs + total size ys := by
  simp [total]

@[simp]
theorem layout_nil (a : Nat) : layout size a [] = [] := rfl

@[simp]
theorem layout_cons (a : Nat) (x : α) (xs : List α) :
    layout size a (x :: xs) = (a, x) :: layout size (a + size x) xs := rfl

theorem layout_append (a : Nat) (xs ys : List α) :
    layout size a (xs ++ ys) = layout size a xs ++ layout size (a + total size xs) ys := by
  induction xs generalizing a with
  | nil => simp
  | cons x xs ih => simp [ih, Nat.add_assoc]

theorem mem_layout_iff {a : Nat} {xs : List α} {u : Nat × α} :
    u ∈ layout size a xs ↔
      ∃ left right, xs = left ++ u.2 :: right ∧ u.1 = a + total size left := by
  constructor
  · intro hmem
    induction xs generalizing a with
    | nil => simp at hmem
    | cons x xs ih =>
        rw [layout_cons, List.mem_cons] at hmem
        rcases hmem with rfl | hmem
        · exact ⟨[], xs, rfl, by simp⟩
        · obtain ⟨left, right, hxs, haddr⟩ := ih hmem
          refine ⟨x :: left, right, by rw [hxs, List.cons_append], ?_⟩
          rw [haddr, total_cons, Nat.add_assoc]
  · rintro ⟨left, right, rfl, haddr⟩
    rw [layout_append, List.mem_append, layout_cons, List.mem_cons, ← haddr]
    exact Or.inr (Or.inl rfl)

variable {size}

theorem le_of_mem_layout {a : Nat} {xs : List α} {u : Nat × α} (hu : u ∈ layout size a xs) :
    a ≤ u.1 := by
  obtain ⟨left, right, -, haddr⟩ := (mem_layout_iff size).mp hu
  omega

theorem end_le_of_mem_layout {a : Nat} {xs : List α} {u : Nat × α}
    (hu : u ∈ layout size a xs) : u.1 + size u.2 ≤ a + total size xs := by
  obtain ⟨left, right, rfl, haddr⟩ := (mem_layout_iff size).mp hu
  rw [total_append, total_cons]
  omega

theorem apart_of_mem_layout {a : Nat} {xs : List α} {u v : Nat × α} (hu : u ∈ layout size a xs)
    (hv : v ∈ layout size a xs) : u = v ∨ u.1 + size u.2 ≤ v.1 ∨ v.1 + size v.2 ≤ u.1 := by
  induction xs generalizing a with
  | nil => simp at hu
  | cons x xs ih =>
      rw [layout_cons, List.mem_cons] at hu hv
      rcases hu with rfl | hu <;> rcases hv with rfl | hv
      · exact Or.inl rfl
      · exact Or.inr (Or.inl (le_of_mem_layout hv))
      · exact Or.inr (Or.inr (le_of_mem_layout hu))
      · exact ih hu hv

theorem nodup_layout_fst {a : Nat} {xs : List α} (hpos : ∀ x ∈ xs, 0 < size x) :
    ((layout size a xs).map Prod.fst).Nodup := by
  induction xs generalizing a with
  | nil => simp
  | cons x xs ih =>
      rw [layout_cons, List.map_cons, List.nodup_cons]
      refine ⟨fun hmem => ?_, ih fun y hy => hpos y (List.mem_cons_of_mem x hy)⟩
      obtain ⟨v, hv, hva⟩ := List.mem_map.mp hmem
      have hle := le_of_mem_layout hv
      have hx := hpos x List.mem_cons_self
      omega

theorem snd_mem_of_mem_layout {a : Nat} {xs : List α} {u : Nat × α}
    (hu : u ∈ layout size a xs) : u.2 ∈ xs := by
  obtain ⟨left, right, rfl, -⟩ := (mem_layout_iff size).mp hu
  simp

end Vulcanos.Layout
