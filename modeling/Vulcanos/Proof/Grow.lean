import Vulcanos.Proof.Carve

/-!
# Adding the new space to the heap

After `expand` the bytes from the old `end_address` on have to go to a hole. `growHoles` gives them
to the hole with the highest address in the index, or makes a hole of them when the index is empty.
That is right only when the highest hole is the last chunk, which is what `LastHoleAtEnd` asks.
-/

namespace Vulcanos

open Memory Word Layout

/-- The index is empty, or it lists a hole that ends at `endAddr`. -/
def LastHoleAtEnd (endAddr : Nat) (k : Kernel) : Prop :=
  k.heap.index.size = 0 ∨
    ∃ x ∈ k.heap.index.entries k.mem, x + headerSize k.mem x = endAddr

section HighestHole

variable {k : Kernel} {n it idx : Nat} {best : Option Nat} {value : Nat}

/-- The scan of the index keeps the best entry so far or finds a higher one, and passes over no
entry higher than its answer. -/
theorem highestHole_spec (k : Kernel) (n it : Nat) (best : Option Nat) (value : Nat)
    (hbest : ∀ i, best = some i → k.heap.index.lookup i k.mem = value) :
    (Kernel.highestHole k n it best value = best ∧
        ∀ j, it ≤ j → j < it + n → k.heap.index.lookup j k.mem ≤ value) ∨
      ∃ i, Kernel.highestHole k n it best value = some i ∧ it ≤ i ∧ i < it + n ∧
        value < k.heap.index.lookup i k.mem ∧
        ∀ j, it ≤ j → j < it + n → k.heap.index.lookup j k.mem ≤ k.heap.index.lookup i k.mem := by
  induction n generalizing it best value with
  | zero => exact Or.inl ⟨rfl, fun j _ _ => by omega⟩
  | succ n ih =>
      rw [Kernel.highestHole]
      split
      · rename_i hgt
        right
        rcases ih (it + 1) (some it) (k.heap.index.lookup it k.mem) (by simp) with
          ⟨heq, hle⟩ | ⟨i, heq, hge, hlt, hval, hle⟩
        · refine ⟨it, heq, Nat.le_refl _, by omega, hgt, fun j hj hj' => ?_⟩
          rcases Nat.eq_or_lt_of_le hj with rfl | hj
          · exact Nat.le_refl _
          · exact hle j hj (by omega)
        · refine ⟨i, heq, by omega, by omega, by omega, fun j hj hj' => ?_⟩
          rcases Nat.eq_or_lt_of_le hj with rfl | hj
          · omega
          · exact hle j hj (by omega)
      · rename_i hgt
        rcases ih (it + 1) best value hbest with ⟨heq, hle⟩ | ⟨i, heq, hge, hlt, hval, hle⟩
        · refine Or.inl ⟨heq, fun j hj hj' => ?_⟩
          rcases Nat.eq_or_lt_of_le hj with rfl | hj
          · omega
          · exact hle j hj (by omega)
        · refine Or.inr ⟨i, heq, by omega, by omega, hval, fun j hj hj' => ?_⟩
          rcases Nat.eq_or_lt_of_le hj with rfl | hj
          · omega
          · exact hle j hj (by omega)

end HighestHole

section Grow

variable {k : Kernel} {cs left : List Chunk} {s newEnd : Nat}

theorem WellFormed.last_of_end (h : WellFormed k cs) {right : List Chunk} {c : Chunk}
    (hcs : cs = left ++ c :: right)
    (hend : k.heap.startAddress + total Chunk.size left + c.size = k.heap.endAddress) :
    right = [] := by
  cases right with
  | nil => rfl
  | cons d right =>
      have hd := h.minSize d (by simp [hcs])
      have htiles := h.tiles
      simp only [hcs, total_append, total_cons] at htiles
      omega

theorem WellFormed.highestHole_eq (h : WellFormed k (left ++ [⟨s, true⟩])) :
    ∃ idx, Kernel.highestHole k k.heap.index.size 0 none 0 = some idx ∧
      k.heap.index.lookup idx k.mem = k.heap.startAddress + total Chunk.size left := by
  have hmem : k.heap.startAddress + total Chunk.size left ∈ k.heap.index.entries k.mem :=
    h.index.mem_iff.mpr (mem_holes_iff.mpr ⟨left, s, [], rfl, rfl⟩)
  obtain ⟨j, hj, hjx⟩ := List.mem_map.mp hmem
  have hjlt := List.mem_range.mp hj
  have hstart := h.start_ge
  rcases highestHole_spec k k.heap.index.size 0 none 0 (by simp) with
    ⟨-, hle⟩ | ⟨i, heq, -, hlt, -, hle⟩
  · have hpos := hle j (Nat.zero_le j) (by omega)
    rw [OrderedArray.lookup, hjx] at hpos
    omega
  · refine ⟨i, heq, ?_⟩
    have hge := hle j (Nat.zero_le j) (by omega)
    rw [OrderedArray.lookup, hjx] at hge
    -- the found entry is a hole too, so it begins no later than the last chunk
    obtain ⟨left', s', right', hcs', haddr'⟩ :=
      h.hole_of_mem_entries (OrderedArray.lookup_mem (show i < k.heap.index.size by omega))
    have htiles := h.tiles
    have hmin := h.minSize ⟨s', true⟩ (by rw [hcs']; simp)
    have htotal := congrArg (total Chunk.size) hcs'
    cases right' with
    | nil =>
        simp only [total_append, total_cons, total_nil] at htotal
        obtain ⟨hleft, -⟩ := List.append_inj' hcs' rfl
        rw [haddr', hleft]
    | cons d right' =>
        exfalso
        obtain ⟨init, last, hinit⟩ : ∃ init last, d :: right' = init ++ [last] :=
          ⟨_, _, (List.dropLast_append_getLast (List.cons_ne_nil d right')).symm⟩
        rw [hinit, ← List.cons_append, ← List.append_assoc] at hcs'
        obtain ⟨hleft, -⟩ := List.append_inj' hcs' rfl
        rw [hleft] at hge
        rw [haddr'] at hge
        simp only [total_append, total_cons] at hge
        simp only at hmin
        omega

/-- The last chunk of a heap that has just been given more space. -/
theorem WellFormed.extend {k k' : Kernel} {last last' : List Chunk} (h : WellFormed k
    (left ++ last))
    (hstart : k'.heap.startAddress = k.heap.startAddress)
    (htiles : k.heap.startAddress + total Chunk.size left + total Chunk.size last' =
      k'.heap.endAddress)
    (hlt : k'.heap.endAddress < 4294967296)
    (hsame : SameOn k.heap.startAddress (k.heap.startAddress + total Chunk.size left) k.mem k'.mem)
    (hlast : ChunksAt k'.mem (k.heap.startAddress + total Chunk.size left) last')
    (hindex : (k'.heap.index.entries k'.mem).Perm (holes k.heap.startAddress left
      ++ holes (k.heap.startAddress + total Chunk.size left) last'))
    (hroom : k'.heap.index.array + 4 * k'.heap.index.size ≤ k.heap.startAddress) :
    WellFormed k' (left ++ last') where
  start_ge := by rw [hstart]; exact h.start_ge
  end_lt := hlt
  tiles := by rw [total_append, hstart]; omega
  chunksAt := by
    rw [chunksAt_append, hstart]
    exact ⟨(chunksAt_append.mp h.chunksAt).1.frame hsame, hlast⟩
  index := by rw [holes_append, hstart]; exact hindex
  room := by rw [hstart]; exact hroom

/-- The heap `k'` is the heap `k` of the chunks `cs` with the bytes up to `newEnd` added: its last
chunk is a hole that ends there, and nothing before that hole has changed. -/
def Grown (k : Kernel) (cs : List Chunk) (newEnd : Nat) (k' : Kernel) : Prop :=
  ∃ left last, cs = left ++ last ∧ (last = [] ∨ ∃ s, last = [⟨s, true⟩]) ∧
    WellFormed k' (left ++ [⟨newEnd - (k.heap.startAddress + total Chunk.size left), true⟩]) ∧
    SameOn k.heap.startAddress (k.heap.startAddress + total Chunk.size left) k.mem k'.mem ∧
    (∀ hi, SameOn newEnd hi k.mem k'.mem) ∧
    (last = [] → k.heap.index.size = 0) ∧
    (last ≠ [] → k'.heap.index.entries k'.mem = k.heap.index.entries k.mem) ∧
    k'.heap.startAddress = k.heap.startAddress ∧ k'.heap.endAddress = newEnd

variable (h : WellFormed k cs) (hmore : k.heap.endAddress + 20 ≤ newEnd)
  (hlt : newEnd < 4294967296)

include h hmore hlt

theorem sub32_growth : sub32 (sub32 newEnd k.heap.startAddress)
    (sub32 k.heap.endAddress k.heap.startAddress) = newEnd - k.heap.endAddress := by
  have htiles := h.tiles
  unfold sub32
  omega

/-- With an empty index the new bytes become a hole of their own. -/
theorem growHoles_empty (hempty : k.heap.index.size = 0) (hroom : IndexRoom k) :
    Grown k cs newEnd (Kernel.growHoles (sub32 k.heap.endAddress k.heap.startAddress)
      k.heap.endAddress (withEnd newEnd k)) := by
  have hstart := h.start_ge
  have htiles := h.tiles
  have hscan : Kernel.highestHole (withEnd newEnd k) (withEnd newEnd k).heap.index.size 0 none 0
      = none := by
    simp only [withEnd, hempty]
    rfl
  set size := newEnd - k.heap.endAddress with hsize
  set m1 := writeHeader k.mem k.heap.endAddress 1 size with hm1
  set m2 := writeFooter m1 (newEnd - 8) k.heap.endAddress with hm2
  obtain ⟨k2, hk2⟩ : ∃ k2 : Kernel, k2 = { withEnd newEnd k with mem := m2 } := ⟨_, rfl⟩
  have hk2mem : k2.mem = m2 := by rw [hk2]
  have hk2heap : k2.heap = { k.heap with endAddress := newEnd } := by rw [hk2]; rfl
  have hgrow : Kernel.growHoles (sub32 k.heap.endAddress k.heap.startAddress) k.heap.endAddress
      (withEnd newEnd k) = Kernel.insertHole k.heap.endAddress k2 := by
    unfold Kernel.growHoles
    rw [hscan, hk2]
    simp only [withEnd, sub32_growth h hmore hlt, ← hsize]
    rw [add32_eq (by omega), sub32_eq (by unfold sizeofFooter; omega) (by omega)]
    unfold sizeofFooter
    rw [show k.heap.endAddress + size - 8 = newEnd - 8 by omega]
  have hheap := insertHole_heap k.heap.endAddress k2
  have hins := insertHole_sameOutside k.heap.endAddress k2
  have hperm := perm_insertHole k.heap.endAddress k2 (by omega)
  unfold IndexRoom at hroom
  rw [hk2heap] at hheap
  rw [hk2heap, hk2mem] at hins hperm
  rw [hgrow]
  have hsame : SameOutside k.heap.endAddress newEnd k.mem m2 :=
    ((SameOutside.refl _ _ _).writeHeader (Nat.le_refl _) (by omega)).writeFooter
      (by omega) (by omega)
  have habove : ∀ lo hi, k.heap.startAddress ≤ lo →
      SameOn lo hi m2 (Kernel.insertHole k.heap.endAddress k2).mem :=
    fun lo hi hlo => hins.sameOn (Or.inr (by simp only; omega))
  have hleft : SameOn k.heap.startAddress (k.heap.startAddress + total Chunk.size cs) k.mem
      (Kernel.insertHole k.heap.endAddress k2).mem :=
    (hsame.sameOn (Or.inl (by omega))).trans (habove _ _ (Nat.le_refl _))
  refine ⟨cs, [], (List.append_nil cs).symm, Or.inl rfl, ?_, hleft, ?_, fun _ => hempty,
    fun hne => absurd rfl hne, ?_, ?_⟩
  · have hhead : HeaderAt m2 k.heap.endAddress true size :=
      headerAt_of_writeFooter (headerAt_writeHeader k.mem k.heap.endAddress true (by omega))
        (Or.inl (by omega))
    have hbase : WellFormed k (cs ++ []) := by rwa [List.append_nil]
    rw [htiles]
    refine hbase.extend ?_ ?_ ?_ hleft ?_ ?_ ?_
    · rw [hheap]
    · rw [hheap]
      simp only [total_cons, total_nil]
      omega
    · rw [hheap]
      exact hlt
    · rw [chunksAt_cons, htiles]
      exact ⟨⟨by simp only; omega, hhead.frame (habove _ _ (by omega)),
          fun hcon => by simp at hcon⟩,
        chunksAt_nil⟩
    · have hentries : k.heap.index.entries m2 = k.heap.index.entries k.mem :=
        OrderedArray.entries_congr (hsame.sameOn (Or.inl (by omega)))
      refine hperm.trans ?_
      simp only [hentries, htiles, holes_cons, holes_nil, if_true, List.append_nil]
      exact (h.index.cons _).trans (List.perm_append_singleton _ _).symm
    · rw [hheap]
      simp only
      omega
  · exact fun hi => (hsame.sameOn (Or.inr (Nat.le_refl _))).trans (habove _ _ (by omega))
  · rw [hheap]
  · rw [hheap]

theorem growHoles_last {x : Nat} (hx : x ∈ k.heap.index.entries k.mem)
    (hxend : x + headerSize k.mem x = k.heap.endAddress) :
    Grown k cs newEnd (Kernel.growHoles (sub32 k.heap.endAddress k.heap.startAddress)
      k.heap.endAddress (withEnd newEnd k)) := by
  have hstart := h.start_ge
  have htiles := h.tiles
  have hfloor := h.room
  obtain ⟨left, s, right, hcs, haddr⟩ := h.hole_of_mem_entries hx
  have hchunk : ChunkAt k.mem (k.heap.startAddress + total Chunk.size left) ⟨s, true⟩ := by
    subst hcs
    exact h.chunkAt
  have hheader := hchunk.header
  have hmin := hchunk.minSize
  simp only at hheader hmin
  rw [haddr, hheader.size] at hxend
  obtain rfl := h.last_of_end hcs hxend
  subst hcs
  obtain ⟨idx, hscan, hidx⟩ := h.highestHole_eq
  have hcongr : ∀ n it best value, Kernel.highestHole (withEnd newEnd k) n it best value =
      Kernel.highestHole k n it best value := by
    intro n
    induction n with
    | zero => intro it best value; rfl
    | succ n ih =>
        intro it best value
        simp only [Kernel.highestHole, ih]
        rfl
  set head := k.heap.startAddress + total Chunk.size left with hhead
  set m1 := write32 k.mem (head + 8) (newEnd - head) with hm1
  set m2 := writeFooter m1 (newEnd - 8) head with hm2
  have hgrow : Kernel.growHoles (sub32 k.heap.endAddress k.heap.startAddress) k.heap.endAddress
      (withEnd newEnd k) = { withEnd newEnd k with mem := m2 } := by
    unfold Kernel.growHoles
    rw [hcongr, show (withEnd newEnd k).heap.index.size = k.heap.index.size from rfl, hscan]
    simp only [withEnd, sub32_growth h hmore hlt, hidx, hheader.size]
    rw [show add32 s (newEnd - k.heap.endAddress) = newEnd - head by
        rw [add32_eq (by omega)]; omega,
      add32_eq (by omega), sub32_eq (by unfold sizeofFooter; omega) (by omega)]
    unfold sizeofFooter
    rw [show head + (newEnd - head) - 8 = newEnd - 8 by omega]
  rw [hgrow]
  obtain ⟨hheader2, -, hresized⟩ := hheader.resize
    (show newEnd - 8 + 8 = head + (newEnd - head) by omega) (by omega) (by omega)
  have hsame : SameOutside head newEnd k.mem m2 := hresized.mono (by omega) (by omega)
  have hentries : k.heap.index.entries m2 = k.heap.index.entries k.mem :=
    OrderedArray.entries_congr (hsame.sameOn (Or.inl (by omega)))
  refine ⟨left, [⟨s, true⟩], rfl, Or.inr ⟨s, rfl⟩, ?_, hsame.sameOn (Or.inl (Nat.le_refl _)),
    fun hi => hsame.sameOn (Or.inr (Nat.le_refl _)), fun hcon => by simp at hcon, fun _ => hentries,
    rfl, rfl⟩
  refine h.extend rfl ?_ hlt (hsame.sameOn (Or.inl (Nat.le_refl _))) ?_ ?_ hfloor
  · simp only [withEnd, total_cons, total_nil]
    omega
  · rw [chunksAt_cons]
    exact ⟨⟨by simp only; omega, hheader2, fun hcon => by simp at hcon⟩, chunksAt_nil⟩
  · have hindex := h.index
    simp only [holes_append, holes_cons, holes_nil] at hindex ⊢
    simp only [withEnd, hentries]
    exact hindex

/-- **The new space goes to the last hole, or becomes one.** -/
theorem growHoles_spec (hlast : LastHoleAtEnd k.heap.endAddress k)
    (hroom : k.heap.index.size = 0 → IndexRoom k) :
    Grown k cs newEnd (Kernel.growHoles (sub32 k.heap.endAddress k.heap.startAddress)
      k.heap.endAddress (withEnd newEnd k)) := by
  rcases hlast with hempty | ⟨x, hx, hxend⟩
  · exact growHoles_empty h hmore hlt hempty (hroom hempty)
  · exact growHoles_last h hmore hlt hx hxend

end Grow

end Vulcanos
