import Mathlib.Data.List.Basic

/-!
# Lists ordered by a key that can change

An ordered array keeps its items by a key that lives elsewhere. The list stays ordered under
insertion at the first place where the item is not less than those before it, under removal, and
under a change of one item's key when the new key still fits between those around it.
-/

namespace Vulcanos.KeyOrder

variable {α : Type} {key key' : α → Nat} {l l' left right : List α} {x item gone : α}
  {n newKey : Nat}

/-- The items come in the order of their keys. -/
def Ordered (key : α → Nat) (l : List α) : Prop := l.Pairwise fun x y => key x ≤ key y

instance (key : α → Nat) (l : List α) : Decidable (Ordered key l) := by
  unfold Ordered
  infer_instance

theorem Ordered.sublist (h : Ordered key l) (hsub : l'.Sublist l) : Ordered key l' :=
  List.Pairwise.sublist hsub h

theorem Ordered.congr (h : Ordered key l) (hkey : ∀ x ∈ l, key' x = key x) : Ordered key' l := by
  refine List.Pairwise.imp_of_mem (fun {y z} hy hz hle => ?_) h
  rw [hkey y hy, hkey z hz]
  exact hle

/-- **Insertion**: behind the items that are less, in front of one that is not. -/
theorem Ordered.insert (h : Ordered key (left ++ right)) (hleft : ∀ x ∈ left, key x < key item)
    (hright : ∀ x ∈ right.head?, ¬ key x < key item) : Ordered key (left ++ item :: right) := by
  obtain ⟨hl, hr, hlr⟩ := List.pairwise_append.mp h
  refine List.pairwise_append.mpr ⟨hl, List.pairwise_cons.mpr ⟨fun z hz => ?_, hr⟩, ?_⟩
  · -- the head of the rest is the least of it
    cases right with
    | nil => simp at hz
    | cons y right =>
        have hy := hright y rfl
        rcases List.mem_cons.mp hz with rfl | hz
        · omega
        · have hle := (List.pairwise_cons.mp hr).1 z hz
          omega
  · intro y hy z hz
    rcases List.mem_cons.mp hz with rfl | hz
    · exact Nat.le_of_lt (hleft y hy)
    · exact hlr y hy z hz

/-- A new key for `x` fits where `x` is, the item `gone` aside: no item before `x` has a greater
key, and no item behind it a smaller one. -/
def FitsPlace (key : α → Nat) (x : α) (newKey : Nat) (gone : α) (l : List α) : Prop :=
  l.Pairwise fun y z =>
    (z = x → y ≠ gone → key y ≤ newKey) ∧ (y = x → z ≠ gone → newKey ≤ key z)

instance [DecidableEq α] (key : α → Nat) (x : α) (newKey : Nat) (gone : α) (l : List α) :
    Decidable (FitsPlace key x newKey gone l) := by
  unfold FitsPlace
  infer_instance

/-- **A key that changes in place**, while other items may be taken out. -/
theorem Ordered.resize (h : Ordered key l) (hfits : FitsPlace key x newKey gone l)
    (hsub : l'.Sublist l) (hgone : gone ∉ l') (hself : x ∈ l' → key' x = newKey)
    (hother : ∀ y ∈ l', y ≠ x → key' y = key y) : Ordered key' l' := by
  have hboth : l'.Pairwise fun y z => key y ≤ key z ∧
      (z = x → y ≠ gone → key y ≤ newKey) ∧ (y = x → z ≠ gone → newKey ≤ key z) :=
    (List.Pairwise.and h hfits).sublist hsub
  refine hboth.imp_of_mem fun {y z} hy hz ⟨hle, hbefore, hbehind⟩ => ?_
  have hygone : y ≠ gone := fun heq => hgone (heq ▸ hy)
  have hzgone : z ≠ gone := fun heq => hgone (heq ▸ hz)
  by_cases hyx : y = x
  · by_cases hzx : z = x
    · obtain rfl : y = z := hyx.trans hzx.symm
      exact Nat.le_refl _
    · rw [hother z hz hzx, hyx, hself (hyx ▸ hy)]
      exact hbehind hyx hzgone
  · by_cases hzx : z = x
    · rw [hother y hy hyx, hzx, hself (hzx ▸ hz)]
      exact hbefore hzx hygone
    · rw [hother y hy hyx, hother z hz hzx]
      exact hle

/-- **First fit is best fit** in an ordered list. -/
theorem Ordered.first_fit (h : Ordered key (left ++ x :: right)) (hleft : ∀ y ∈ left, ¬ n ≤ key y) :
    ∀ y ∈ left ++ x :: right, n ≤ key y → key x ≤ key y := by
  intro y hy hn
  rcases List.mem_append.mp hy with hy | hy
  · exact absurd hn (hleft y hy)
  · rcases List.mem_cons.mp hy with rfl | hy
    · exact Nat.le_refl _
    · exact (List.pairwise_cons.mp (List.pairwise_append.mp h).2.1).1 y hy

end Vulcanos.KeyOrder
