import Mathlib.Logic.Function.Basic
import Mathlib.Data.List.Basic
import Vulcanos.Library.Simulation

/-!
# Object stores

What a dynamic store of objects is for: a client asks for an object of some size, which comes under
a name that no object has, stores cells into it, and gives it back. A cell that is read holds what
was last stored into it. The objects of a flat memory are the ranges that a list of names and sizes
lays out in it.
-/

namespace Vulcanos.ObjectStore

variable {α β : Type}

/-- The objects there are, each with its cells. -/
abbrev Store (α β : Type) := α → Option (List β)

/-- What a client can do with objects named by `α` whose cells are `β`. -/
inductive Op (α β : Type) where
  | alloc (p : α) (size : Nat)
  | free (p : α)
  | store (p : α) (i : Nat) (v : β)

section Store

variable [DecidableEq α]

/-- One operation. The cells of a new object are arbitrary. -/
inductive Step : Op α β → Store α β → Store α β → Prop where
  | alloc {o : Store α β} {p : α} {cells : List β} (hnew : o p = none) :
      Step (.alloc p cells.length) o (Function.update o p (some cells))
  | free {o : Store α β} {p : α} (hheld : (o p).isSome) :
      Step (.free p) o (Function.update o p none)
  | store {o : Store α β} {p : α} {cells : List β} {i : Nat} {v : β} (hheld : o p = some cells)
      (hi : i < cells.length) :
      Step (.store p i v) o (Function.update o p (some (cells.set i v)))

/-- What the operations, the latest one first, last stored into a cell of the object that has the
name now. -/
def lastStored : List (Op α β) → α → Nat → Option β
  | [], _, _ => none
  | .alloc q _ :: ops, p, i => if q = p then none else lastStored ops p i
  | .free q :: ops, p, i => if q = p then none else lastStored ops p i
  | .store q j v :: ops, p, i => if q = p ∧ j = i then some v else lastStored ops p i

/-- The size that the object with the name was asked for with. -/
def heldSize : List (Op α β) → α → Option Nat
  | [], _ => none
  | .alloc q size :: ops, p => if q = p then some size else heldSize ops p
  | .free q :: ops, p => if q = p then none else heldSize ops p
  | .store _ _ _ :: ops, p => heldSize ops p

/-- The objects are those that the operations say there are, with the sizes and, where something
was stored, the cells they say. -/
structure Agrees (ops : List (Op α β)) (o : Store α β) : Prop where
  size : ∀ p, (o p).map List.length = heldSize ops p
  cell : ∀ p i v, lastStored ops p i = some v → (o p).bind (fun cells => cells[i]?) = some v

variable {ops : List (Op α β)} {op : Op α β} {o o' : Store α β}

theorem agrees_empty : Agrees [] (fun _ => none : Store α β) :=
  ⟨fun _ => rfl, fun _ _ _ h => by simp [lastStored] at h⟩

theorem Agrees.step (h : Agrees ops o) (hstep : Step op o o') : Agrees (op :: ops) o' := by
  cases hstep with
  | @alloc _ p cells hnew =>
      refine ⟨fun q => ?_, fun q i v hv => ?_⟩
      · by_cases hq : p = q
        · subst hq
          simp [heldSize]
        · rw [Function.update_of_ne (Ne.symm hq), heldSize, if_neg hq]
          exact h.size q
      · rw [lastStored] at hv
        split at hv
        · simp at hv
        · rename_i hq
          rw [Function.update_of_ne (Ne.symm hq)]
          exact h.cell q i v hv
  | @free _ p hheld =>
      refine ⟨fun q => ?_, fun q i v hv => ?_⟩
      · by_cases hq : p = q
        · subst hq
          simp [heldSize]
        · rw [Function.update_of_ne (Ne.symm hq), heldSize, if_neg hq]
          exact h.size q
      · rw [lastStored] at hv
        split at hv
        · simp at hv
        · rename_i hq
          rw [Function.update_of_ne (Ne.symm hq)]
          exact h.cell q i v hv
  | @store _ p cells i v hheld hi =>
      refine ⟨fun q => ?_, fun q j w hw => ?_⟩
      · by_cases hq : p = q
        · subst hq
          have hsize := h.size p
          rw [hheld] at hsize
          simpa [heldSize] using hsize
        · rw [Function.update_of_ne (Ne.symm hq), heldSize]
          exact h.size q
      · by_cases hq : p = q
        · subst hq
          rw [lastStored] at hw
          rw [Function.update_self, Option.bind_some]
          split at hw
          · rename_i hj
            obtain rfl := hj.2
            rw [List.getElem?_set_self hi]
            exact hw
          · rename_i hj
            have hcell := h.cell p j w hw
            rw [hheld, Option.bind_some] at hcell
            rw [List.getElem?_set_ne (fun hij => hj ⟨rfl, hij⟩)]
            exact hcell
        · rw [lastStored, if_neg (fun hj => hq hj.1)] at hw
          rw [Function.update_of_ne (Ne.symm hq)]
          exact h.cell q j w hw

/-- **What is read was stored.** After any operations from an empty store. -/
theorem agrees_of_steps (hsteps : Simulation.Steps Step (fun _ => none) ops o) : Agrees ops o :=
  hsteps.invariant Agrees agrees_empty fun _ _ _ _ h hstep => h.step hstep

theorem Agrees.getElem?_of_lastStored {cells : List β} {p : α} {i : Nat} {v : β}
    (h : Agrees ops o) (hheld : o p = some cells) (hlast : lastStored ops p i = some v) :
    cells[i]? = some v := by
  simpa [hheld] using h.cell p i v hlast

end Store

/-! ### Objects in a flat memory -/

/-- The cells of a range. -/
def cellsAt (m : Nat → β) (a n : Nat) : List β := (List.range n).map fun i => m (a + i)

/-- The objects at the ranges, given as address and size, that are held. -/
def flat (m : Nat → β) (held : List (Nat × Nat)) : Store Nat β :=
  fun p => (held.lookup p).map (cellsAt m p)

section Flat

variable {m m' : Nat → β} {held : List (Nat × Nat)} {a n p i : Nat} {v : β}

@[simp]
theorem length_cellsAt : (cellsAt m a n).length = n := by simp [cellsAt]

theorem getElem?_cellsAt (hi : i < n) : (cellsAt m a n)[i]? = some (m (a + i)) := by
  simp [cellsAt, hi]

theorem cellsAt_congr (hsame : ∀ x, a ≤ x → x < a + n → m' x = m x) :
    cellsAt m' a n = cellsAt m a n :=
  List.map_congr_left fun i hi => hsame _ (by omega) (by have := List.mem_range.mp hi; omega)

theorem cellsAt_update (hi : i < n) :
    cellsAt (Function.update m (a + i) v) a n = (cellsAt m a n).set i v := by
  refine List.ext_getElem? fun j => ?_
  rcases Nat.lt_or_ge j n with hj | hj
  · by_cases hij : i = j
    · subst hij
      rw [getElem?_cellsAt hi, List.getElem?_set_self (by simpa using hi), Function.update_self]
    · rw [getElem?_cellsAt hj, List.getElem?_set_ne hij, getElem?_cellsAt hj,
        Function.update_of_ne (by omega)]
  · rw [List.getElem?_eq_none (by simpa using hj), List.getElem?_eq_none (by simpa using hj)]

theorem lookup_cons_of_ne {u : Nat × Nat} (hne : p ≠ u.1) :
    (u :: held).lookup p = held.lookup p := by
  rw [List.lookup_cons, beq_eq_false_iff_ne.mpr hne]

theorem lookup_of_mem (hnodup : (held.map Prod.fst).Nodup) (hmem : (p, n) ∈ held) :
    held.lookup p = some n := by
  induction held with
  | nil => simp at hmem
  | cons u held ih =>
      rw [List.map_cons, List.nodup_cons] at hnodup
      rcases List.mem_cons.mp hmem with rfl | hmem
      · exact List.lookup_cons_self
      · have hne : p ≠ u.1 := by
          rintro rfl
          exact hnodup.1 (List.mem_map.mpr ⟨_, hmem, rfl⟩)
        rw [lookup_cons_of_ne hne]
        exact ih hnodup.2 hmem

theorem mem_of_lookup (h : held.lookup p = some n) : (p, n) ∈ held := by
  induction held with
  | nil => simp at h
  | cons u held ih =>
      rw [List.lookup_cons] at h
      split at h
      · rename_i heq
        obtain rfl := eq_of_beq heq
        obtain rfl := Option.some.inj h
        exact List.mem_cons_self
      · exact List.mem_cons_of_mem _ (ih h)

theorem flat_congr (hsame : ∀ u ∈ held, ∀ x, u.1 ≤ x → x < u.1 + u.2 → m' x = m x) :
    flat m' held = flat m held := by
  funext p
  unfold flat
  cases hlook : held.lookup p with
  | none => rfl
  | some n => exact congrArg some (cellsAt_congr (hsame _ (mem_of_lookup hlook)))

theorem flat_cons (m : Nat → β) (held : List (Nat × Nat)) (p n : Nat) :
    flat m ((p, n) :: held) = Function.update (flat m held) p (some (cellsAt m p n)) := by
  funext q
  unfold flat
  by_cases hq : q = p
  · subst hq
    simp [Function.update_self]
  · rw [Function.update_of_ne hq, lookup_cons_of_ne hq]

theorem lookup_filter_of_ne {q : Nat} (hne : q ≠ p) :
    (held.filter fun u => u.1 ≠ p).lookup q = held.lookup q := by
  induction held with
  | nil => rfl
  | cons u held ih =>
      by_cases hu : u.1 = p
      · rw [List.filter_cons_of_neg (by simpa using hu), ih,
          lookup_cons_of_ne (by simpa [hu] using hne)]
      · rw [List.filter_cons_of_pos (by simpa using hu), List.lookup_cons, List.lookup_cons, ih]

theorem lookup_filter_self : (held.filter fun u => u.1 ≠ p).lookup p = none := by
  cases h : (held.filter fun u => u.1 ≠ p).lookup p with
  | none => rfl
  | some n => simpa using (List.mem_filter.mp (mem_of_lookup h)).2

theorem flat_filter (m : Nat → β) (held : List (Nat × Nat)) (p : Nat) :
    flat m (held.filter fun u => u.1 ≠ p) = Function.update (flat m held) p none := by
  funext q
  by_cases hq : q = p
  · subst hq
    rw [Function.update_self, flat, lookup_filter_self]
    rfl
  · rw [Function.update_of_ne hq, flat, flat, lookup_filter_of_ne hq]

/-- A store into one of the ranges changes a cell of its object, and no other. -/
theorem flat_update (hnodup : (held.map Prod.fst).Nodup)
    (hmem : (p, n) ∈ held) (hapart : ∀ u ∈ held, u.1 ≠ p → u.1 + u.2 ≤ p ∨ p + n ≤ u.1)
    (hi : i < n) : flat (Function.update m (p + i) v) held =
      Function.update (flat m held) p (some ((cellsAt m p n).set i v)) := by
  funext q
  by_cases hq : q = p
  · subst hq
    rw [Function.update_self, flat, lookup_of_mem hnodup hmem, Option.map_some, cellsAt_update hi]
  · rw [Function.update_of_ne hq]
    unfold flat
    cases hlook : held.lookup q with
    | none => rfl
    | some n' =>
        have hother := hapart _ (mem_of_lookup hlook) hq
        refine congrArg some (cellsAt_congr fun x hlo hhi => Function.update_of_ne ?_ _ _)
        omega

end Flat

end Vulcanos.ObjectStore
