import Mathlib.Data.List.Basic
import Mathlib.Data.Set.Defs

/-!
# Lists sorted by a strict weak order

A comparison that is computed, on the items that occur: it is irreflexive and transitive, and so is
being neither less nor greater. Lists are sorted when no item is less than an earlier one. Items of
equal rank stay where they are.
-/

namespace Vulcanos.WeakOrder

variable {α : Type} {lessThan : α → α → Bool} {S : Set α} {l l' left right : List α}
    {item x y z : α}

/-- `lessThan` is a strict weak order on `S`. -/
structure StrictWeakOn (lessThan : α → α → Bool) (S : Set α) : Prop where
  irrefl : ∀ x ∈ S, ¬ lessThan x x
  trans : ∀ x ∈ S, ∀ y ∈ S, ∀ z ∈ S, lessThan x y → lessThan y z → lessThan x z
  incomp : ∀ x ∈ S, ∀ y ∈ S, ∀ z ∈ S, ¬ lessThan x y → ¬ lessThan y x → ¬ lessThan y z →
    ¬ lessThan z y → ¬ lessThan x z ∧ ¬ lessThan z x

/-- Two items in a row are not out of order, so the outer ones are not either. -/
theorem StrictWeakOn.not_lt_trans (h : StrictWeakOn lessThan S) (hx : x ∈ S) (hy : y ∈ S)
    (hz : z ∈ S) (hxy : ¬ lessThan y x) (hyz : ¬ lessThan z y) : ¬ lessThan z x := by
  intro hzx
  by_cases hlt : lessThan x y
  · exact hyz (h.trans z hz x hx y hy hzx hlt)
  · by_cases hlt' : lessThan y z
    · exact hxy (h.trans y hy z hz x hx hlt' hzx)
    · exact (h.incomp x hx y hy z hz hlt hxy hlt' hyz).2 hzx

theorem StrictWeakOn.asymm (h : StrictWeakOn lessThan S) (hx : x ∈ S) (hy : y ∈ S)
    (hlt : lessThan x y) : ¬ lessThan y x :=
  fun hgt => h.irrefl x hx (h.trans x hx y hy x hx hlt hgt)

/-- No item is less than one before it. -/
def Sorted (lessThan : α → α → Bool) (l : List α) : Prop :=
  l.Pairwise fun x y => ¬ lessThan y x

theorem Sorted.sublist (h : Sorted lessThan l) (hsub : l'.Sublist l) : Sorted lessThan l' :=
  List.Pairwise.sublist hsub h

theorem Sorted.not_lt_of_head (hlt : StrictWeakOn lessThan S) (h : Sorted lessThan right)
    (hS : ∀ x ∈ right, x ∈ S) (hitem : item ∈ S)
    (hhead : ∀ x ∈ right.head?, ¬ lessThan x item) : ∀ x ∈ right, ¬ lessThan x item := by
  cases right with
  | nil => simp
  | cons y right =>
      have hy : ¬ lessThan y item := hhead y rfl
      intro x hx
      rcases List.mem_cons.mp hx with rfl | hmem
      · exact hy
      · have hyx := (List.pairwise_cons.mp h).1 x hmem
        exact hlt.not_lt_trans hitem (hS y (List.mem_cons_self ..)) (hS x hx) hy hyx

/-- **Insertion** behind the items that are less, and in front of those that are not. -/
theorem Sorted.insert (hlt : StrictWeakOn lessThan S) (h : Sorted lessThan (left ++ right))
    (hS : ∀ x ∈ left, x ∈ S) (hitem : item ∈ S) (hleft : ∀ x ∈ left, lessThan x item)
    (hright : ∀ x ∈ right, ¬ lessThan x item) : Sorted lessThan (left ++ item :: right) := by
  obtain ⟨hl, hr, hlr⟩ := List.pairwise_append.mp h
  refine List.pairwise_append.mpr ⟨hl, List.pairwise_cons.mpr ⟨hright, hr⟩, ?_⟩
  intro x hx y hy
  rcases List.mem_cons.mp hy with rfl | hy
  · exact hlt.asymm (hS x hx) hitem (hleft x hx)
  · exact hlr x hx y hy

end Vulcanos.WeakOrder
