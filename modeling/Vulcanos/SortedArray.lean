import Mathlib.Data.Multiset.AddSub
import Vulcanos.Library.Run
import Vulcanos.Library.WeakOrder
import Vulcanos.Proof.OrderedArray

/-!
# Ordered arrays over runs

Insertions and removals in any order, on an array that has been placed somewhere in memory and never
gets more items than it has room for. The array holds what was inserted and not removed, sorted, and
each call moves nothing it does not have to.
-/

namespace Vulcanos

open WeakOrder

/-- A call on an ordered array. -/
inductive ArrayCall where
  | insert (item : Nat)
  | remove (i : Nat)

/-- An ordered array in memory. -/
abbrev ArrayState := OrderedArray × Memory.Mem

/-- The stored items, in slot order. -/
def ArrayState.items (s : ArrayState) : List Nat := s.1.entries s.2

namespace ArrayCall

def step (lessThan : Nat → Nat → Bool) : ArrayCall → ArrayState → ArrayState
  | insert item, s => OrderedArray.insert lessThan item s.1 s.2
  | remove i, s => OrderedArray.remove i s.1 s.2

/-- Items are words and are not inserted into a full array, and only stored items are removed. -/
def Valid : ArrayCall → ArrayState → Prop
  | insert item, s => item < 4294967296 ∧ s.1.size < s.1.maxSize
  | remove i, s => i < s.1.size

instance (c : ArrayCall) (s : ArrayState) : Decidable (c.Valid s) := by
  cases c <;> unfold Valid <;> infer_instance

/-- What a call is for: the new item goes between those less than it and the others, and the removed
one is that at position `i`. -/
def Changes (lessThan : Nat → Nat → Bool) : ArrayCall → List Nat → List Nat → Prop
  | insert item, l, l' => ∃ left right, l = left ++ right ∧ l' = left ++ item :: right ∧
      (∀ x ∈ left, lessThan x item) ∧ ∀ x ∈ right, ¬ lessThan x item
  | remove i, l, l' => ∃ left x right, l = left ++ x :: right ∧ left.length = i ∧ l' = left ++ right

/-- The items that a run inserts. -/
def inserted : List ArrayCall → Multiset Nat
  | [] => 0
  | insert item :: cs => item ::ₘ inserted cs
  | remove _ :: cs => inserted cs

/-- The items that a run removes: each is looked up right before. -/
def removed (lessThan : Nat → Nat → Bool) : List ArrayCall → ArrayState → Multiset Nat
  | [], _ => 0
  | insert item :: cs, s => removed lessThan cs ((insert item).step lessThan s)
  | remove i :: cs, s =>
      OrderedArray.lookup i s.1 s.2 ::ₘ removed lessThan cs ((remove i).step lessThan s)

variable {lessThan : Nat → Nat → Bool} {c : ArrayCall} {cs : List ArrayCall} {s : ArrayState}
  {S : Set Nat}

theorem changes_step (hlt : StrictWeakOn lessThan S) (hsorted : Sorted lessThan s.items)
    (hS : ∀ x ∈ s.items, x ∈ S) (hitem : ∀ x, c = insert x → x ∈ S) (hvalid : c.Valid s) :
    c.Changes lessThan s.items (c.step lessThan s).items := by
  cases c with
  | insert item =>
      obtain ⟨left, right, hsplit, hinsert, hleft, hright⟩ :=
        OrderedArray.entries_insert lessThan s.1 s.2 hvalid.1
      have hsplit' : s.items = left ++ right := hsplit
      rw [hsplit'] at hsorted hS
      refine ⟨left, right, hsplit, hinsert, hleft, ?_⟩
      exact Sorted.not_lt_of_head hlt (hsorted.sublist (List.sublist_append_right _ _))
        (fun x hx => hS x (List.mem_append_right _ hx)) (hitem item rfl) hright
  | remove i =>
      obtain ⟨left, right, hsplit, hlength⟩ := OrderedArray.entries_split s.2 hvalid
      subst hlength
      exact ⟨left, _, right, hsplit, rfl, OrderedArray.entries_remove_of_split hsplit⟩

/-- What is for sorted arrays of items from `S` leaves them so. -/
theorem Changes.sorted {l l' : List Nat} (hchanges : c.Changes lessThan l l')
    (hlt : StrictWeakOn lessThan S) (hsorted : Sorted lessThan l) (hS : ∀ x ∈ l, x ∈ S)
    (hitem : ∀ x, c = insert x → x ∈ S) : Sorted lessThan l' ∧ ∀ x ∈ l', x ∈ S := by
  cases c with
  | insert item =>
      obtain ⟨left, right, rfl, rfl, hleft, hright⟩ := hchanges
      refine ⟨hsorted.insert hlt (fun x hx => hS x (List.mem_append_left _ hx)) (hitem item rfl)
        hleft hright, fun x hx => ?_⟩
      rcases List.mem_append.mp hx with hx | hx
      · exact hS x (List.mem_append_left _ hx)
      · rcases List.mem_cons.mp hx with rfl | hx
        · exact hitem x rfl
        · exact hS x (List.mem_append_right _ hx)
  | remove i =>
      obtain ⟨left, x, right, rfl, -, rfl⟩ := hchanges
      have hsub : (left ++ right).Sublist (left ++ x :: right) :=
        (List.sublist_cons_self x right).append_left left
      exact ⟨hsorted.sublist hsub, fun y hy => hS y (hsub.mem hy)⟩

theorem items_insert {item : Nat} (hitem : item < 4294967296) :
    (((insert item).step lessThan s).items : Multiset Nat) = item ::ₘ (s.items : Multiset Nat) :=
  Multiset.coe_eq_coe.mpr (OrderedArray.perm_insert lessThan s.1 s.2 hitem)

theorem items_remove {i : Nat} (hi : i < s.1.size) : (s.items : Multiset Nat) =
    OrderedArray.lookup i s.1 s.2 ::ₘ (((remove i).step lessThan s).items : Multiset Nat) := by
  obtain ⟨left, right, hsplit, hlength⟩ := OrderedArray.entries_split s.2 hi
  subst hlength
  have hafter : ((remove left.length).step lessThan s).items = left ++ right :=
    OrderedArray.entries_remove_of_split hsplit
  have hbefore : s.items = left ++ OrderedArray.lookup left.length s.1 s.2 :: right := hsplit
  rw [hafter, hbefore]
  exact Multiset.coe_eq_coe.mpr List.perm_middle

theorem items_after (hvalid : Run.Along (step lessThan) Valid cs s) :
    ((Run.after (step lessThan) cs s).items : Multiset Nat) + removed lessThan cs s =
      (s.items : Multiset Nat) + inserted cs := by
  induction cs generalizing s with
  | nil => rfl
  | cons c cs ih =>
      obtain ⟨hc, hcs⟩ := hvalid
      have hrest := ih hcs
      rw [Run.after, List.foldl_cons, ← Run.after]
      cases c with
      | insert item =>
          rw [removed, inserted, hrest, items_insert hc.1, Multiset.cons_add, Multiset.add_cons]
      | remove i =>
          rw [removed, inserted, Multiset.add_cons, hrest, items_remove hc, Multiset.cons_add]

theorem changes_along (hlt : StrictWeakOn lessThan S) (hsorted : Sorted lessThan s.items)
    (hS : ∀ x ∈ s.items, x ∈ S) (hitems : ∀ x, insert x ∈ cs → x ∈ S)
    (hvalid : Run.Along (step lessThan) Valid cs s) :
    Run.Along (step lessThan) (fun c s => c.Changes lessThan s.items
        (c.step lessThan s).items) cs s ∧
      Sorted lessThan (Run.after (step lessThan) cs s).items := by
  induction cs generalizing s with
  | nil => exact ⟨trivial, hsorted⟩
  | cons c cs ih =>
      obtain ⟨hc, hcs⟩ := hvalid
      have hitem : ∀ x, c = insert x → x ∈ S := fun x hx =>
        hitems x (hx ▸ List.mem_cons_self ..)
      have hchanges := changes_step hlt hsorted hS hitem hc
      obtain ⟨hsorted', hS'⟩ := hchanges.sorted hlt hsorted hS hitem
      obtain ⟨hrest, hend⟩ := ih hsorted' hS' (fun x hx => hitems x (List.mem_cons_of_mem _ hx)) hcs
      exact ⟨⟨hchanges, hrest⟩, hend⟩

/-- **Runs of an ordered array.** However many calls have been made, the array is sorted and holds
what was inserted and not removed; and every call puts its item where it belongs, or takes one out,
and leaves the others in their order. -/
theorem along_of_place (lessThan : Nat → Nat → Bool) (addr maxSize : Nat) (m : Memory.Mem)
    (cs : List ArrayCall) (hlt : StrictWeakOn lessThan {x | insert x ∈ cs})
    (hvalid : Run.Along (step lessThan) Valid cs (OrderedArray.place addr maxSize m)) :
    Run.Along (step lessThan) (fun c s => c.Changes lessThan s.items (c.step lessThan s).items) cs
        (OrderedArray.place addr maxSize m) ∧
      Sorted lessThan (Run.after (step lessThan) cs (OrderedArray.place addr maxSize m)).items ∧
      ((Run.after (step lessThan) cs (OrderedArray.place addr maxSize m)).items : Multiset Nat) +
        removed lessThan cs (OrderedArray.place addr maxSize m) = inserted cs := by
  have hempty : ArrayState.items (OrderedArray.place addr maxSize m) = [] := rfl
  obtain ⟨halong, hsorted⟩ := changes_along hlt (by rw [hempty]; exact List.Pairwise.nil)
    (by simp [hempty]) (fun _ hx => hx) hvalid
  have hitems := items_after hvalid
  rw [hempty, Multiset.coe_nil, Multiset.zero_add] at hitems
  exact ⟨halong, hsorted, hitems⟩

end ArrayCall

/-- Items with equal keys: the comparison looks at the tens. -/
def tensLess (x y : Nat) : Bool := x / 10 < y / 10

theorem tensLess_strictWeakOn (S : Set Nat) : StrictWeakOn tensLess S := by
  constructor <;> simp only [tensLess, decide_eq_true_eq]
  · omega
  · omega
  · omega

theorem ArrayCall.along_of_place_tens : Sorted tensLess
    (Run.after (ArrayCall.step tensLess) [.insert 31, .insert 12, .insert 35, .remove 0]
      (OrderedArray.place 0x1000 4 fun _ => 0)).items :=
  (ArrayCall.along_of_place tensLess 0x1000 4 (fun _ => 0)
    [.insert 31, .insert 12, .insert 35, .remove 0] (tensLess_strictWeakOn _) (by decide)).2.1

end Vulcanos
