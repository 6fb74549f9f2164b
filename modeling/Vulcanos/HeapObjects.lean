import Mathlib.Data.List.Pairwise
import Vulcanos.HeapSafety
import Vulcanos.Library.ObjectStore

/-!
# The heap as a store of objects

What the allocator is for: the blocks that are held are objects of their own, whose bytes are what
their holder last stored. Every run of correct calls within the guards, with all the headers,
footers and index entries it writes and all the splitting and merging in between, is a run of an
object store in which none of these exist.
-/

namespace Vulcanos

open Memory Word Layout Simulation ObjectStore

/-- The blocks that are held as objects, with their bytes. -/
def HeapRun.objects (s : HeapRun) : Store Nat UInt8 := flat s.kernel.mem s.live

/-- What a call does to the objects. A store into no block at all, which is not correct use, stands
as a store at its own address. -/
def Call.label : Call → HeapRun → HeapRun → Op Nat UInt8
  | alloc _ size _, _, s' => .alloc ((s'.live.head?.map Prod.fst).getD 0) size
  | free p, _, _ => .free p
  | store a v, s, _ =>
      match s.live.find? fun u => decide (u.1 ≤ a ∧ a < u.1 + u.2) with
      | some u => .store u.1 (a - u.1) (UInt8.ofNat v)
      | none => .store a 0 (UInt8.ofNat v)

/-- The runs of the heap, as the operations on objects that their calls are. -/
abbrev HeapRun.Ops (G : Guards) (s : HeapRun) (ops : List (Op Nat UInt8)) (s' : HeapRun) : Prop :=
  Steps (Shown Call.step (Call.Good G) Call.label) s ops s'

section Step

variable {s s' : HeapRun} {cs cs' : List Chunk} {k : Kernel} {c : Call} {size p a v : Nat}
  {ops : List (Op Nat UInt8)}

theorem write8_eq_update (m : Mem) (a v : Nat) :
    write8 m a v = Function.update m a (UInt8.ofNat v) := by
  funext x
  simp [write8, Function.update_apply]

theorem HeapRun.LiveApart.apart (h : s.LiveApart) {u w : Nat × Nat} (hu : u ∈ s.live)
    (hw : w ∈ s.live) (hne : u.1 ≠ w.1) : u.1 + u.2 ≤ w.1 ∨ w.1 + w.2 ≤ u.1 := by
  have hsymm : Std.Symm fun x y : Nat × Nat => x.1 + x.2 ≤ y.1 ∨ y.1 + y.2 ≤ x.1 :=
    ⟨fun _ _ => Or.symm⟩
  exact h.1.forall hu hw fun heq => hne (congrArg Prod.fst heq)

/-- A request that is served is a new object, and the others keep their bytes. -/
theorem HeapInv.serve_objects {head b : Nat} {new : List (Nat × Nat)} (h : HeapInv s cs)
    (hserves : Serves s.kernel cs k cs' ((head, b) :: new)) (hb : size + 20 ≤ b) :
    Step (.alloc (head + 12) size) s.objects
      (HeapRun.objects ⟨k, (head + 12, size) :: s.live⟩) := by
  have hnodup := (h.serve hserves hb).nodup
  rw [List.map_cons, List.nodup_cons] at hnodup
  have hnew : s.objects (head + 12) = none := by
    unfold HeapRun.objects flat
    cases hlook : s.live.lookup (head + 12) with
    | none => rfl
    | some n => exact absurd (List.mem_map.mpr ⟨_, mem_of_lookup hlook, rfl⟩) hnodup.1
  have hsame : flat k.mem s.live = s.objects := by
    refine flat_congr fun u hu x hlo hhi => ?_
    obtain ⟨head', b', hp', hb', hmem'⟩ := h.live u hu
    exact hserves.same _ hmem' x (by simp only; omega) (by simp only; omega)
  have hstep : Step (.alloc (head + 12) (cellsAt k.mem (head + 12) size).length) s.objects
      (Function.update s.objects (head + 12) (some (cellsAt k.mem (head + 12) size))) :=
    .alloc hnew
  rw [length_cellsAt, ← hsame, ← flat_cons] at hstep
  rwa [← hsame]

theorem HeapInv.release_objects {head b : Nat} (h : HeapInv s cs)
    (hlive : ∃ u ∈ s.live, u.1 = head + 12) (hfrees : Frees s.kernel cs head b k cs') :
    Step (.free (head + 12)) s.objects
      (HeapRun.objects ⟨k, s.live.filter fun u => u.1 ≠ head + 12⟩) := by
  have hinv := h.release hfrees
  have hsame : flat k.mem (s.live.filter fun u => u.1 ≠ head + 12) =
      flat s.kernel.mem (s.live.filter fun u => u.1 ≠ head + 12) := by
    refine flat_congr fun u hu x hlo hhi => ?_
    obtain ⟨head', b', hp', hb', hmem'⟩ := hinv.live u hu
    simp only [hfrees.start] at hmem'
    exact hfrees.same _ hmem' x (by simp only; omega) (by simp only; omega)
  have hheld : (s.objects (head + 12)).isSome := by
    obtain ⟨u, hu, hp⟩ := hlive
    have hlook : s.live.lookup (head + 12) = some u.2 := lookup_of_mem h.nodup (by rwa [← hp])
    simp [HeapRun.objects, flat, hlook]
  have hstep := Step.free hheld
  rw [HeapRun.objects, ← flat_filter, ← hsame] at hstep
  exact hstep

theorem HeapInv.store_objects (h : HeapInv s cs) (hlegal : (Call.store a v).Legal s)
    (hs' : s' = { s with kernel := { s.kernel with mem := write8 s.kernel.mem a v } }) :
    Step ((Call.store a v).label s s') s.objects s'.objects := by
  obtain ⟨u, hu, hlo, hhi⟩ := hlegal
  cases hfind : s.live.find? fun u => decide (u.1 ≤ a ∧ a < u.1 + u.2) with
  | none => exact absurd (List.find?_eq_none.mp hfind u hu) (by simp [hlo, hhi])
  | some w =>
      have hw : w.1 ≤ a ∧ a < w.1 + w.2 := by simpa using List.find?_some hfind
      have hmem : (w.1, w.2) ∈ s.live := List.mem_of_find?_eq_some hfind
      have hi : a - w.1 < w.2 := by omega
      have hobject : s.objects w.1 = some (cellsAt s.kernel.mem w.1 w.2) := by
        simp [HeapRun.objects, flat, lookup_of_mem h.nodup hmem]
      have hafter : s'.objects = Function.update s.objects w.1
          (some ((cellsAt s.kernel.mem w.1 w.2).set (a - w.1) (UInt8.ofNat v))) := by
        rw [hs', HeapRun.objects, HeapRun.objects, write8_eq_update,
          ← flat_update h.nodup hmem (fun x hx hne => h.liveApart.apart hx hmem hne) hi,
          Nat.add_sub_cancel' hw.1]
      rw [hafter]
      simp only [Call.label, hfind]
      exact Step.store hobject (by simpa using hi)

/-- **One call** within the guards is one operation on the objects. -/
theorem HeapInv.step_objects (h : HeapInv s cs) (hgood : c.Good heapGuards s)
    (hstep : c.step s = .ok s') : Step (c.label s s') s.objects s'.objects := by
  obtain ⟨hlegal, hok⟩ := hgood
  cases c with
  | alloc fuel size pageAlign =>
      simp only [Call.step, bind_eq_ok, Except.ok.injEq] at hstep
      obtain ⟨⟨p, k⟩, halloc, rfl⟩ := hstep
      obtain ⟨cs', head, b, new, rfl, hb, hserves⟩ := alloc_serves h.wellFormed hlegal hok halloc
      exact h.serve_objects hserves hb
  | free p =>
      obtain ⟨head, b, rfl, hmem⟩ := h.block_of_live hlegal
      obtain ⟨k, cs', hfree, hfrees⟩ := h.free_returns hmem hok
      simp only [Call.step, hfree, ok_bind, Except.ok.injEq] at hstep
      subst hstep
      exact h.release_objects hlegal hfrees
  | store a v => exact h.store_objects hlegal (Except.ok.inj hstep).symm

theorem Fresh.simulated (hfresh : Fresh s) (hrun : s.Ops heapGuards ops s') :
    (∃ cs, HeapInv s' cs) ∧ Steps Step s.objects ops s'.objects :=
  hrun.simulate_of_abstraction HeapRun.objects (fun t => ∃ cs, HeapInv t cs)
    (fun _ _ _ ⟨_, hinv⟩ ⟨_, hgood, hstep, _⟩ => hinv.step hgood.1 hgood.2 hstep)
    (fun _ _ _ ⟨_, hinv⟩ ⟨_, hgood, hstep, hlabel⟩ => hlabel ▸ hinv.step_objects hgood hstep)
    ⟨_, hfresh.inv⟩

theorem Fresh.objects (hfresh : Fresh s) : s.objects = fun _ => none := by
  obtain ⟨k, -, -, hlive⟩ := hfresh
  funext p
  simp [HeapRun.objects, flat, hlive]

theorem Fresh.agrees (hfresh : Fresh s) (hrun : s.Ops heapGuards ops s') :
    Agrees ops s'.objects := by
  have hsteps := (hfresh.simulated hrun).2
  rw [hfresh.objects] at hsteps
  exact agrees_of_steps hsteps

end Step

/-! ### Runs of the heap are runs of an object store -/

section Refinement

variable {s s' : HeapRun} {ops : List (Op Nat UInt8)}

/-- **Refinement.** A run within the guards is a run of an object store, from an empty one to the
blocks that are held with the bytes that are in them. -/
theorem run_refines_objects (hfresh : Fresh s) (hrun : s.Ops heapGuards ops s') :
    Steps Step (fun _ => none) ops s'.objects := by
  rw [← hfresh.objects]
  exact (hfresh.simulated hrun).2

/-- Two blocks of eight bytes, both written, one of them twice and its neighbour freed between. -/
def writtenCalls : List Call :=
  [.alloc 1 8 0, .alloc 1 8 0, .store 0xC008100C 255, .store 0xC0081028 7, .store 0xC008102F 9,
    .alloc 1 100 0, .free 0xC008100C, .store 0xC0081028 42, .alloc 1 4 0]

theorem run_refines_objects_writtenCalls : ∃ ops s', bareStart.Ops heapGuards ops s' ∧
    ops.length = 9 ∧ Steps Step (fun _ => none) ops s'.objects := by
  obtain ⟨ops, t, hrun, hlength⟩ := exists_steps_of_shownAll
    (show (shownAll Call.step (Call.Good heapGuards) Call.label writtenCalls [] bareStart).any
      (fun r => decide (r.1.length = 9)) = true by decide +kernel)
  exact ⟨ops, t, hrun, of_decide_eq_true hlength, run_refines_objects fresh_bareStart hrun⟩

/-- **What a holder reads is what it last stored.** After any run within the guards, whatever else
was requested, freed and stored in between. -/
theorem read_eq_lastStored (hfresh : Fresh s) (hrun : s.Ops heapGuards ops s') {u : Nat × Nat}
    {i : Nat} {v : UInt8} (hu : u ∈ s'.live) (hi : i < u.2)
    (hlast : lastStored ops u.1 i = some v) : read8 s'.kernel.mem (u.1 + i) = v.toNat := by
  obtain ⟨cs, hinv⟩ := (hfresh.simulated hrun).1
  have hobject : s'.objects u.1 = some (cellsAt s'.kernel.mem u.1 u.2) := by
    simp [HeapRun.objects, flat, lookup_of_mem hinv.nodup hu]
  have hcell := (hfresh.agrees hrun).getElem?_of_lastStored hobject hlast
  rw [getElem?_cellsAt hi] at hcell
  rw [read8, Option.some.inj hcell]

theorem read_eq_lastStored_writtenCalls : ∃ ops s', bareStart.Ops heapGuards ops s' ∧
    read8 s'.kernel.mem (0xC0081028 + 0) = 42 ∧ read8 s'.kernel.mem (0xC0081028 + 7) = 9 := by
  obtain ⟨ops, t, hrun, hcheck⟩ := exists_steps_of_shownAll
    (show (shownAll Call.step (Call.Good heapGuards) Call.label writtenCalls [] bareStart).any
      (fun r => decide ((0xC0081028, 8) ∈ r.2.live ∧ lastStored r.1 0xC0081028 0 = some 42 ∧
        lastStored r.1 0xC0081028 7 = some 9)) = true by decide +kernel)
  obtain ⟨hlive, hfirst, hlast⟩ := of_decide_eq_true hcheck
  exact ⟨ops, t, hrun, read_eq_lastStored fresh_bareStart hrun hlive (by decide) hfirst,
    read_eq_lastStored fresh_bareStart hrun hlive (by decide) hlast⟩

end Refinement

end Vulcanos
