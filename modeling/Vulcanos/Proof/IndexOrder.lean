import Vulcanos.Library.KeyOrder
import Vulcanos.Proof.HeapRun

/-!
# The index stays sorted by size

An insertion puts a hole where its size belongs. The code also changes the size of a hole that stays
in the index: a merge to the left, a contraction, the growth of the last hole and a page-aligned
request do. The order survives when the new size still fits where the hole is listed, which is what
`orderGuards` adds to the heap guards.
-/

namespace Vulcanos

open Memory Word Layout KeyOrder

/-- The index lists the holes in the order of their sizes. -/
def SortedIndex (k : Kernel) : Prop :=
  Ordered (headerSize k.mem) (k.heap.index.entries k.mem)

instance (k : Kernel) : Decidable (SortedIndex k) := by
  unfold SortedIndex
  infer_instance

/-! ### The guards -/

/-- The hole listed at `x` may have `newSize` bytes without leaving its place, the hole at `gone`
aside. -/
def KeepsPlace (x newSize gone : Nat) (k : Kernel) : Prop :=
  FitsPlace (headerSize k.mem) x newSize gone (k.heap.index.entries k.mem)

instance (x newSize gone : Nat) (k : Kernel) : Decidable (KeepsPlace x newSize gone k) := by
  unfold KeepsPlace
  infer_instance

/-- The size of the hole that freeing the block at `head` makes. -/
def mergedSize (head : Nat) (k : Kernel) : Nat :=
  let x := unifiedHead (markHole head k.mem) head
  let next := head + headerSize k.mem head
  if next = k.heap.endAddress then k.heap.startAddress + heapMinSize - x
  else headerSize k.mem x + headerSize k.mem head +
    (if UnifiesRight k.mem next then headerSize k.mem next else 0)

/-- The heap guards, and every hole that is resized in the index fits where it is listed. -/
def orderGuards : Guards where
  carve := fun size pageAlign it k => CarveOk size pageAlign it k ∧
    (pageAlign ≠ 0 → KeepsPlace (k.heap.index.lookup it k.mem)
      (4096 - k.heap.index.lookup it k.mem % 4096 - 12) 0 k)
  expand := heapGuards.expand
  grow := fun oldEnd k => heapGuards.grow oldEnd k ∧
    ∀ x ∈ k.heap.index.entries k.mem, x + headerSize k.mem x = oldEnd →
      KeepsPlace x (k.heap.endAddress - x) 0 k
  free := fun head k => FreeOk head k ∧ (UnifiesLeft (markHole head k.mem) head →
    KeepsPlace (unifiedHead (markHole head k.mem) head) (mergedSize head k)
      (head + headerSize k.mem head) k)

instance : orderGuards.Checked where
  carve := fun _ _ _ _ => inferInstanceAs (Decidable (_ ∧ (_ ≠ _ → _)))
  expand := fun _ _ => .isTrue trivial
  grow := fun _ _ => inferInstanceAs (Decidable (_ ∧ ∀ x ∈ _, _ = _ → _))
  free := fun _ _ => inferInstanceAs (Decidable (_ ∧ (_ → _)))

section Entries

variable {k k' k1 : Kernel} {cs left right : List Chunk} {head it x s : Nat}

theorem WellFormed.mem_layout_of_entry (h : WellFormed k cs)
    (hx : x ∈ k.heap.index.entries k.mem) :
    ∃ t, (x, ⟨t, true⟩) ∈ layout Chunk.size k.heap.startAddress cs := by
  obtain ⟨left, t, right, hcs, hxaddr⟩ := h.hole_of_mem_entries hx
  exact ⟨t, (mem_layout_iff Chunk.size).mpr ⟨left, right, hcs, hxaddr⟩⟩

theorem WellFormed.entry_apart {c : Chunk} (h : WellFormed k (left ++ c :: right))
    (hx : x ∈ k.heap.index.entries k.mem)
    (hne : x ≠ k.heap.startAddress + total Chunk.size left) :
    k.heap.startAddress ≤ x ∧ x + 12 ≤ k.heap.endAddress ∧
      (x + 12 ≤ k.heap.startAddress + total Chunk.size left ∨
        k.heap.startAddress + total Chunk.size left + c.size ≤ x) := by
  obtain ⟨t, hmem⟩ := h.mem_layout_of_entry hx
  have hmin := (h.chunksAt _ hmem).minSize
  have hlo := le_of_mem_layout hmem
  have hhi := end_le_of_mem_layout hmem
  have htiles := h.tiles
  have hchunk := (mem_layout_iff Chunk.size).mpr ⟨left, right, rfl,
    (rfl : (k.heap.startAddress + total Chunk.size left, c).1 = _)⟩
  simp only at hmin hlo hhi
  rcases apart_of_mem_layout hmem hchunk with heq | hapart
  · exact absurd (congrArg Prod.fst heq) hne
  · simp only at hapart
    omega

theorem WellFormed.nodup_entries (h : WellFormed k cs) : (k.heap.index.entries k.mem).Nodup := by
  rw [h.index.nodup_iff]
  exact nodup_holes h.minSize

/-- **Listing a hole** puts it where its size belongs, as long as the headers are left alone. -/
theorem insertHole_sorted_of_sameOn (h : SortedIndex k) (hhead : head < 4294967296)
    (hsame : ∀ x ∈ head :: k.heap.index.entries k.mem,
      SameOn x (x + 12) k.mem (Kernel.insertHole head k).mem) :
    SortedIndex (Kernel.insertHole head k) := by
  obtain ⟨left, right, hsplit, hinsert, hleft, hright⟩ := OrderedArray.entries_insert
    (Kernel.headerTLessThan k.mem) k.heap.index k.mem hhead
  have hentries : (Kernel.insertHole head k).heap.index.entries (Kernel.insertHole head k).mem =
      left ++ head :: right := hinsert
  unfold SortedIndex at h ⊢
  rw [hentries]
  rw [hsplit] at h hsame
  have hordered : Ordered (headerSize k.mem) (left ++ head :: right) := by
    refine h.insert (fun x hx => of_decide_eq_true (hleft x hx)) fun x hx hlt => ?_
    exact hright x hx (decide_eq_true hlt)
  refine hordered.congr fun x hx => ?_
  have hheader := hsame x (by
    simp only [List.mem_append, List.mem_cons] at hx ⊢
    tauto)
  exact hheader.read32 (by omega) (by omega)

theorem insertHole_sorted (h : SortedIndex k) (hhead : head < 4294967296)
    (habove : ∀ x ∈ head :: k.heap.index.entries k.mem,
      k.heap.index.array + 4 * (k.heap.index.size + 1) ≤ x) :
    SortedIndex (Kernel.insertHole head k) :=
  insertHole_sorted_of_sameOn h hhead fun x hx =>
    (insertHole_sameOutside head k).sameOn (Or.inr (habove x hx))

theorem removeHole_sublist (hit : it < k.heap.index.size) :
    ((Kernel.removeHole it k).heap.index.entries (Kernel.removeHole it k).mem).Sublist
      (k.heap.index.entries k.mem) := by
  rw [entries_removeHole hit]
  exact List.eraseIdx_sublist _ _

end Entries

/-! ### Serving a request -/

section Carve

variable {k : Kernel} {cs : List Chunk} {size pageAlign it : Nat}

theorem writeBlock_sorted {k1 : Kernel} {p b s : Nat} (hb : size + 20 = b)
    (hrest : s = b ∨ b + 20 ≤ s) (hend : p + s ≤ k1.heap.endAddress)
    (hlt : k1.heap.endAddress < 4294967296)
    (hfloor : k1.heap.index.array + 4 * k1.heap.index.size ≤ k1.heap.startAddress)
    (hroom : s ≠ b → k1.heap.index.array + 4 * (k1.heap.index.size + 1) ≤ k1.heap.startAddress)
    (hp : k1.heap.startAddress ≤ p) (hsorted : SortedIndex k1)
    (hapart : ∀ x ∈ k1.heap.index.entries k1.mem,
      k1.heap.startAddress ≤ x ∧ (x + 12 ≤ p ∨ p + s ≤ x)) :
    SortedIndex (Kernel.writeBlock size b p s k1).2 := by
  obtain ⟨m', hsame, -, -, hwrite⟩ := writeBlock_spec k1 p hb hrest hend hlt
  have hentries : k1.heap.index.entries m' = k1.heap.index.entries k1.mem :=
    OrderedArray.entries_congr (hsame.sameOn (Or.inl (by omega)))
  have hsorted' : SortedIndex { k1 with mem := m' } := by
    unfold SortedIndex
    simp only [hentries]
    refine Ordered.congr hsorted fun x hx => ?_
    obtain ⟨-, hx'⟩ := hapart x hx
    have hheader : SameOn x (x + 12) k1.mem m' := hsame.sameOn (by omega)
    exact hheader.read32 (by omega) (by omega)
  rw [hwrite]
  dsimp only
  split
  · exact hsorted'
  · rename_i hne
    have hroom' := hroom hne
    refine insertHole_sorted hsorted' (by omega) fun x hx => ?_
    rcases List.mem_cons.mp hx with rfl | hx
    · simp only
      omega
    · simp only [hentries] at hx ⊢
      obtain ⟨hx', -⟩ := hapart x hx
      omega

/-- The hole an index entry leads to, and how far the headers of all others are from it. -/
structure EntryHole (k : Kernel) (it a s : Nat) : Prop where
  entry : a = k.heap.index.lookup it k.mem
  size : s = headerSize k.mem a
  start_le : k.heap.startAddress ≤ a
  end_le : a + s ≤ k.heap.endAddress
  others : ∀ x ∈ k.heap.index.entries k.mem, x ≠ a →
    k.heap.startAddress ≤ x ∧ (x + 12 ≤ a ∨ a + s ≤ x)

theorem WellFormed.entryHole (h : WellFormed k cs) (hit : it < k.heap.index.size) :
    ∃ a s, EntryHole k it a s := by
  obtain ⟨left, right, hcs, haddr⟩ := h.lookup_hole hit
  obtain ⟨a, ha⟩ : ∃ a, a = k.heap.index.lookup it k.mem := ⟨_, rfl⟩
  obtain ⟨s, hs⟩ : ∃ s, s = headerSize k.mem a := ⟨_, rfl⟩
  rw [← ha] at haddr hcs
  rw [← hs] at hcs
  subst hcs
  have htiles := h.tiles
  simp only [total_append, total_cons, total_nil] at htiles
  refine ⟨a, s, ha, hs, by omega, by omega, fun x hx hne => ?_⟩
  have hwf : WellFormed k (left ++ ⟨s, true⟩ :: right) := by simpa using h
  obtain ⟨hge, -, hx'⟩ := hwf.entry_apart hx (by rwa [← haddr])
  rw [← haddr] at hx'
  exact ⟨hge, hx'⟩

/-- A block at the start of the hole: the hole leaves the index. -/
theorem EntryHole.carve_plain_sorted {a s : Nat} (hole : EntryHole k it a s)
    (h : WellFormed k cs) (hsorted : SortedIndex k) (hit : it < k.heap.index.size)
    (hfits : size + 20 ≤ s) :
    SortedIndex (Kernel.carveBlock it size (size + 20) 0 k).2 := by
  have hstart := h.start_ge
  have hlt := h.end_lt
  have hfloor := h.room
  have hlow := hole.start_le
  have hhigh := hole.end_le
  obtain ⟨hb, hrest⟩ := plainBlock_spec hfits
  rw [carveBlock_plain hole.entry hole.size hfits]
  have hperm := perm_removeHole hit
  have hsub := removeHole_sublist hit
  have hsame := removeHole_sameOutside it k
  have hnodup := h.nodup_entries
  rw [← hole.entry] at hperm
  rw [← hperm.nodup_iff, List.nodup_cons] at hnodup
  have hothers : ∀ x ∈ (Kernel.removeHole it k).heap.index.entries (Kernel.removeHole it k).mem,
      k.heap.startAddress ≤ x ∧ (x + 12 ≤ a ∨ a + s ≤ x) := by
    intro x hx
    have hne : x ≠ a := fun heq => hnodup.1 (heq ▸ hx)
    exact hole.others x (hsub.mem hx) hne
  refine writeBlock_sorted (by omega) hrest ?_ ?_ ?_ ?_ ?_ ?_ ?_
  · rw [removeHole_heap]
    exact hhigh
  · rw [removeHole_heap]
    exact hlt
  · rw [removeHole_heap]
    simp only
    omega
  · intro _
    rw [removeHole_heap]
    simp only
    omega
  · rw [removeHole_heap]
    exact hlow
  · refine (Ordered.sublist hsorted hsub).congr fun x hx => ?_
    obtain ⟨hge, -⟩ := hothers x hx
    exact (hsame.sameOn (Or.inr (by omega))).read32 (show x ≤ x + 8 by omega)
      (Nat.le_refl (x + 8 + 4))
  · rw [removeHole_heap]
    exact hothers

/-- A block behind the page boundary: the hole stays in the index, with what lies in front. -/
theorem EntryHole.carve_aligned_sorted {a s : Nat} (hole : EntryHole k it a s)
    (h : WellFormed k cs) (hsorted : SortedIndex k) (hplain : pageAlign ≠ 0)
    (hfits : AlignFits a s (size + 20)) (hroom : IndexRoom k)
    (hplace : KeepsPlace a (4096 - a % 4096 - 12) 0 k) :
    SortedIndex (Kernel.carveBlock it size (size + 20) pageAlign k).2 := by
  have hstart := h.start_ge
  have hlt := h.end_lt
  have hfloor := h.room
  have hlow := hole.start_le
  have hhigh := hole.end_le
  obtain ⟨front, hfront⟩ : ∃ front, front = 4096 - a % 4096 - 12 := ⟨_, rfl⟩
  rw [← hfront] at hplace
  have hfits' := hfits
  unfold AlignFits at hfits'
  obtain ⟨hsame, hhead⟩ := alignHole_spec k.mem hfront (by omega) (by omega)
  rw [carveBlock_aligned hplain hole.entry hole.size (by omega) hfits hfront hhead.size]
  unfold IndexRoom at hroom
  have hentries : k.heap.index.entries (Kernel.alignHole a (a + front) k.mem) =
      k.heap.index.entries k.mem := OrderedArray.entries_congr (hsame.sameOn (Or.inl (by omega)))
  refine writeBlock_sorted rfl (by omega) (by simp only; omega) hlt hfloor (fun _ => hroom)
    (by simp only; omega) ?_ ?_
  · unfold SortedIndex
    simp only [hentries]
    refine Ordered.resize hsorted hplace (List.Sublist.refl _) ?_ (fun _ => hhead.size) ?_
    · -- no hole lies at address 0
      intro hzero
      by_cases hne : 0 = a
      · omega
      · have := (hole.others 0 hzero hne).1
        omega
    · intro x hx hne
      obtain ⟨-, hx'⟩ := hole.others x hx hne
      have hheader : SameOn x (x + 12) k.mem (Kernel.alignHole a (a + front) k.mem) :=
        hsame.sameOn (by omega)
      exact hheader.read32 (by omega) (by omega)
  · intro x hx
    simp only [hentries] at hx ⊢
    by_cases hne : x = a
    · omega
    · obtain ⟨hge, hx'⟩ := hole.others x hx hne
      omega

/-- **Carving a block** out of a hole keeps the index sorted. -/
theorem carveBlock_sorted (h : WellFormed k cs) (hsorted : SortedIndex k)
    (hfind : Kernel.findSmallestHole (size + 20) pageAlign k = some it)
    (hok : orderGuards.carve size pageAlign it k) :
    SortedIndex (Kernel.carveBlock it size (size + 20) pageAlign k).2 := by
  obtain ⟨hcarve, hkeeps⟩ := hok
  obtain ⟨hit, hholeFits, -⟩ := findSmallestHole_spec hfind
  obtain ⟨a, s, hole⟩ := h.entryHole hit
  rw [← hole.entry] at hkeeps
  by_cases hplain : pageAlign = 0
  · subst hplain
    rw [holeFits_plain, ← hole.entry, ← hole.size] at hholeFits
    exact hole.carve_plain_sorted h hsorted hit (of_decide_eq_true hholeFits)
  · obtain ⟨hfits, hroom⟩ := hcarve hplain
    rw [← hole.entry, ← hole.size] at hfits
    exact hole.carve_aligned_sorted h hsorted hplain hfits hroom (hkeeps hplain)

end Carve

/-! ### Growing the last hole -/

section Grow

variable {k k' : Kernel} {cs : List Chunk} {newEnd : Nat}

theorem WellFormed.size_of_hole {left right : List Chunk} {s : Nat}
    (h : WellFormed k (left ++ ⟨s, true⟩ :: right)) :
    headerSize k.mem (k.heap.startAddress + total Chunk.size left) = s :=
  h.chunkAt.header.size

/-- **Growing the last hole**, or listing the new bytes as the only one, keeps the index sorted. -/
theorem Grown.sorted (h : WellFormed k cs) (hsorted : SortedIndex k)
    (hgrown : Grown k cs newEnd k')
    (hkeeps : ∀ x ∈ k.heap.index.entries k.mem, x + headerSize k.mem x = k.heap.endAddress →
      KeepsPlace x (newEnd - x) 0 k) : SortedIndex k' := by
  obtain ⟨left, last, rfl, hlast, hwf, hsame, -, hempty, hentries, hstart, -⟩ := hgrown
  rcases hlast with rfl | ⟨s, rfl⟩
  · -- there was no hole, so the new one is alone
    have hnone : k.heap.index.entries k.mem = [] := by
      unfold OrderedArray.entries
      rw [hempty rfl]
      rfl
    have hindex := h.index
    have hindex' := hwf.index
    simp only [hnone, List.append_nil, List.nil_perm] at hindex
    rw [hstart, holes_append, hindex] at hindex'
    simp only [holes_cons, holes_nil, if_true, List.append_nil, List.nil_append,
      List.perm_singleton] at hindex'
    unfold SortedIndex
    rw [hindex']
    exact List.pairwise_singleton _ _
  · have hlist := hentries (by simp)
    have htiles := h.tiles
    have hstart0 := h.start_ge
    simp only [total_append, total_cons, total_nil] at htiles
    have hmem : k.heap.startAddress + total Chunk.size left ∈ k.heap.index.entries k.mem :=
      h.index.mem_iff.mpr (mem_holes_iff.mpr ⟨left, s, [], rfl, rfl⟩)
    have hsize := h.size_of_hole
    have hsize' := hwf.size_of_hole
    have hplace := hkeeps _ hmem (by rw [hsize]; omega)
    rw [hstart] at hsize'
    unfold SortedIndex
    rw [hlist]
    refine Ordered.resize hsorted hplace (List.Sublist.refl _) ?_ (fun _ => hsize') ?_
    · -- no hole lies at address 0
      intro hzero
      by_cases hne : 0 = k.heap.startAddress + total Chunk.size left
      · omega
      · have := (h.entry_apart hzero hne).1
        omega
    · intro x hx hne
      obtain ⟨hge, hlt, hx'⟩ := h.entry_apart hx hne
      exact hsame.read32 (show k.heap.startAddress ≤ x + 8 by omega) (by simp only at hx'; omega)

theorem kept_order :
    Kept orderGuards fun k => (∃ cs, WellFormed k cs) ∧ SortedIndex k where
  bounds := by
    rintro k ⟨⟨cs, h⟩, -⟩
    have htiles := h.tiles
    exact ⟨by omega, h.end_lt⟩
  congr := by
    rintro k1 k2 ⟨⟨cs, h⟩, hsorted⟩ hmem hheap
    refine ⟨⟨cs, ((Serves.refl h).congr hmem hheap).wellFormed⟩, ?_⟩
    unfold SortedIndex at hsorted ⊢
    rwa [hmem, hheap]
  carve := by
    rintro k1 size pageAlign it ⟨⟨cs, h⟩, hsorted⟩ - hfind hok
    obtain ⟨cs', _, _, hserves, -⟩ := carveBlock_serves h hfind hok.1
    exact ⟨⟨cs', hserves.wellFormed⟩, carveBlock_sorted h hsorted hfind hok⟩
  grow := by
    rintro k1 newEnd ⟨⟨cs, h⟩, hsorted⟩ hmore hlt ⟨⟨hlast, hroom⟩, hkeeps⟩
    have hgrown := growHoles_spec h hmore hlt hlast hroom
    obtain ⟨cs2, hserves⟩ := hgrown.serves (by omega)
    exact ⟨⟨cs2, hserves.wellFormed⟩, hgrown.sorted h hsorted hkeeps⟩

end Grow

/-! ### Freeing a block -/

section Free

variable {k k1 : Kernel} {left lh rh right : List Chunk} {s n : Nat}

theorem Merging.entry_apart {hd y : Nat}
    (h : WellFormed k (left ++ lh ++ ⟨s, false⟩ :: (rh ++ right)))
    (hmerging : Merging k left lh s rh right hd n k1)
    (hy : y ∈ k1.heap.index.entries k1.mem) :
    k.heap.startAddress ≤ y ∧ (y + 12 ≤ hd ∨ (lh ≠ [] ∧ y = hd) ∨
      y ∈ holes (hd + total Chunk.size lh + s + total Chunk.size rh) right) := by
  have hhd := hmerging.head
  have hmem := hmerging.index.mem_iff.mp hy
  rw [List.mem_append, List.mem_append] at hmem
  rcases hmem with (hmem | hmem) | hmem
  · obtain ⟨l, t, r, hl, rfl⟩ := mem_holes_iff.mp hmem
    have hmin := h.minSize ⟨t, true⟩ (by simp [hl])
    rw [hl, total_append, total_cons] at hhd
    simp only at hmin hhd
    omega
  · split at hmem
    · simp at hmem
    · rename_i hne
      obtain rfl := List.mem_singleton.mp hmem
      exact ⟨by omega, Or.inr (Or.inl ⟨hne, rfl⟩)⟩
  · obtain ⟨l, t, r, -, hyeq⟩ := mem_holes_iff.mp hmem
    exact ⟨by omega, Or.inr (Or.inr hmem)⟩

theorem Merging.size_eq {hd y : Nat}
    (h : WellFormed k (left ++ lh ++ ⟨s, false⟩ :: (rh ++ right)))
    (hmerging : Merging k left lh s rh right hd n k1)
    (hy : y ∈ k1.heap.index.entries k1.mem) (hne : y ≠ hd) :
    headerSize k1.mem y = headerSize k.mem y := by
  obtain ⟨hge, hbefore | ⟨-, heq⟩ | hbehind⟩ := hmerging.entry_apart h hy
  · exact hmerging.sameLeft.read32 (by omega) (by omega)
  · exact absurd heq hne
  · obtain ⟨l, t, r, -, hyeq⟩ := mem_holes_iff.mp hbehind
    exact (hmerging.sameRight (y + 12)).read32 (by omega) (by omega)

theorem Unified.next_not_mem (h : WellFormed k (left ++ lh ++ ⟨s, false⟩ :: (rh ++ right)))
    (hunified : Unified k left lh s rh right n k1) :
    k.heap.startAddress + total Chunk.size (left ++ lh) + s ∉ k1.heap.index.entries k1.mem := by
  intro hy
  have hmins := h.minSize ⟨s, false⟩ (by simp)
  simp only at hmins
  rw [total_append] at hy
  obtain ⟨-, hbefore | ⟨-, heq⟩ | hbehind⟩ := hunified.merging.entry_apart h hy
  · omega
  · omega
  · rcases hunified.rightHole with rfl | ⟨r, rfl⟩
    · -- no hole was merged, and the chunk there is none
      have halone := hunified.rightAlone rfl
      cases right with
      | nil => simp at hbehind
      | cons c right =>
          have hminc := h.minSize c (by simp)
          have hblock := halone c rfl
          rw [holes_cons, hblock] at hbehind
          obtain ⟨l, t, r, -, hyeq⟩ := mem_holes_iff.mp (by simpa using hbehind)
          omega
    · have hminr := h.minSize ⟨r, true⟩ (by simp)
      obtain ⟨l, t, r', -, hyeq⟩ := mem_holes_iff.mp hbehind
      simp only [total_cons, total_nil] at hyeq hminr
      omega

theorem Unified.mergedSize_eq {t : Nat}
    (h : WellFormed k (left ++ [⟨t, true⟩] ++ ⟨s, false⟩ :: (rh ++ right)))
    (hunified : Unified k left [⟨t, true⟩] s rh right n k1) :
    mergedSize (k.heap.startAddress + total Chunk.size (left ++ [⟨t, true⟩])) k = n := by
  have htiles := h.tiles
  have hmins := h.minSize ⟨s, false⟩ (by simp)
  have htiles1 := hunified.merging.tiles
  have hend1 := hunified.endAddr
  have hblock : headerSize k.mem (k.heap.startAddress + total Chunk.size (left ++ [⟨t, true⟩])) =
      s :=
    h.chunkAt.header.size
  have hhole : headerSize k.mem (k.heap.startAddress + total Chunk.size left) = t := by
    have hwf : WellFormed k (left ++ ⟨t, true⟩ :: ⟨s, false⟩ :: (rh ++ right)) := by simpa using h
    exact hwf.size_of_hole
  unfold mergedSize
  simp only [hunified.head, hblock, hhole]
  simp only [total_append, total_cons, total_nil] at htiles htiles1 hmins ⊢
  by_cases hlast : rh ++ right = []
  · -- the heap was contracted
    obtain ⟨rfl, rfl⟩ := List.append_eq_nil_iff.mp hlast
    rw [if_pos (by simp)] at hend1
    simp only [total_nil] at htiles htiles1
    rw [if_pos (by omega)]
    omega
  · obtain ⟨c, rest, hrest⟩ := List.exists_cons_of_ne_nil hlast
    have hminc := h.minSize c (by simp [hrest])
    have htotal := congrArg (total Chunk.size) hrest
    rw [if_neg hlast] at hend1
    rw [total_append, total_cons] at htotal
    rw [if_neg (by omega)]
    have hnext : ChunkAt k.mem (k.heap.startAddress + (total Chunk.size left + (t + 0)) + s) c := by
      have hwf : WellFormed k ((left ++ [⟨t, true⟩] ++ [⟨s, false⟩]) ++ c :: rest) := by
        rw [hrest] at h
        simpa using h
      have hchunk := hwf.chunkAt
      simp only [total_append, total_cons, total_nil] at hchunk
      rwa [show k.heap.startAddress + (total Chunk.size left + (t + 0) + (s + 0)) =
        k.heap.startAddress + (total Chunk.size left + (t + 0)) + s by omega] at hchunk
    rcases hunified.rightHole with rfl | ⟨r, rfl⟩
    · have hflag := hnext.header.isHole
      have halone := hunified.rightAlone rfl c (by rw [List.nil_append] at hrest; simp [hrest])
      rw [halone] at hflag
      rw [if_neg (fun hunifies => hunifies.2 hflag)]
      simp only [total_nil] at htotal htiles
      omega
    · obtain ⟨rfl, -⟩ := List.cons.inj (by simpa using hrest)
      have hunifies : UnifiesRight k.mem
          (k.heap.startAddress + (total Chunk.size left + (t + 0)) + s) :=
        ⟨hnext.header.magic, by rw [hnext.header.isHole]; exact Nat.one_ne_zero⟩
      rw [if_pos hunifies, hnext.header.size]
      simp only [total_cons, total_nil] at htiles ⊢
      omega

/-- **Freeing a block** keeps the index sorted. -/
theorem Unified.sorted (h : WellFormed k (left ++ lh ++ ⟨s, false⟩ :: (rh ++ right)))
    (hsorted : SortedIndex k) (hunified : Unified k left lh s rh right n k1)
    (hok : orderGuards.free (k.heap.startAddress + total Chunk.size (left ++ lh)) k) :
    SortedIndex (finishFree lh (k.heap.startAddress + total Chunk.size left) k1) := by
  have hmerging := hunified.merging
  have hblock : headerSize k.mem (k.heap.startAddress + total Chunk.size (left ++ lh)) = s :=
    h.chunkAt.header.size
  unfold finishFree
  rcases hunified.leftHole with rfl | ⟨t, rfl⟩
  · rw [if_pos rfl]
    have hroom := hmerging.indexRoom h hunified.room rfl
    have hwf := h.chunk_end_le
    have hlt := h.end_lt
    simp only [List.append_nil] at hwf
    refine insertHole_sorted ?_ (by omega) fun x hx => ?_
    · refine (Ordered.sublist hsorted hmerging.sublist).congr fun x hx => ?_
      refine hmerging.size_eq h hx ?_
      obtain ⟨-, hbefore | ⟨hne, -⟩ | hbehind⟩ := hmerging.entry_apart h hx
      · omega
      · exact absurd rfl hne
      · have hmins := h.minSize ⟨s, false⟩ (by simp)
        obtain ⟨l, u, r, -, hxeq⟩ := mem_holes_iff.mp hbehind
        simp only [total_nil] at hxeq hmins
        omega
    · rcases List.mem_cons.mp hx with rfl | hx
      · omega
      · have hge := (hmerging.entry_apart h hx).1
        omega
  · rw [if_neg (by simp)]
    have hunifies : UnifiesLeft
        (markHole (k.heap.startAddress + total Chunk.size (left ++ [⟨t, true⟩])) k.mem)
        (k.heap.startAddress + total Chunk.size (left ++ [⟨t, true⟩])) := by
      by_contra hnot
      have hempty := hunified.leftAlone.mpr hnot
      simp at hempty
    have hplace := hok.2 hunifies
    rw [hunified.head, hunified.mergedSize_eq h, hblock] at hplace
    exact Ordered.resize hsorted hplace hmerging.sublist (hunified.next_not_mem h)
      (fun _ => hmerging.header.size) fun x hx hne => hmerging.size_eq h hx hne

end Free

/-! ### Runs -/

/-- The heap is well formed and its index sorted. -/
structure OrderInv (s : HeapRun) (cs : List Chunk) : Prop where
  inv : HeapInv s cs
  sorted : SortedIndex s.kernel

section Run

variable {s s' : HeapRun} {cs : List Chunk} {c : Call}

theorem Fresh.orderInv (h : Fresh s) : OrderInv s [⟨0x7F000, true⟩] := by
  have hinv := h.inv
  have hindex := hinv.wellFormed.index
  simp only [holes_cons, holes_nil, if_true, List.append_nil, List.perm_singleton] at hindex
  refine ⟨hinv, ?_⟩
  unfold SortedIndex
  rw [hindex]
  exact List.pairwise_singleton _ _

theorem Call.Ok.heap (h : c.Ok orderGuards s) : c.Ok heapGuards s := by
  cases c with
  | alloc fuel size pageAlign =>
      exact @AllocOk.mono heapGuards orderGuards (fun _ _ _ _ hok => hok.1) (fun _ _ hok => hok)
        (fun _ _ hok => hok.1) fuel size pageAlign s.kernel h
  | free p => exact h.1
  | store a v => trivial

/-- **One call** within the guards keeps the index sorted. -/
theorem OrderInv.step (h : OrderInv s cs) (hlegal : c.Legal s) (hok : c.Ok orderGuards s)
    (hstep : c.step s = .ok s') : ∃ cs', OrderInv s' cs' := by
  obtain ⟨hinv, hsorted⟩ := h
  obtain ⟨cs', hinv'⟩ := hinv.step hlegal hok.heap hstep
  refine ⟨cs', hinv', ?_⟩
  cases c with
  | alloc fuel size pageAlign =>
      simp only [Call.step, bind_eq_ok, Except.ok.injEq] at hstep
      obtain ⟨⟨p, k⟩, halloc, rfl⟩ := hstep
      obtain ⟨k1, it, hinv1, hfind, hcarve, hres⟩ :=
        kept_order.alloc ⟨⟨cs, hinv.wellFormed⟩, hsorted⟩ hlegal hok halloc
      have hkept := (kept_order.carve k1 size pageAlign it hinv1 hlegal hfind hcarve).2
      rw [← hres] at hkept
      exact hkept
  | free p =>
      obtain ⟨head, b, rfl, hmem⟩ := hinv.block_of_live hlegal
      have hfreeOk : orderGuards.free head s.kernel := by
        have hguard : orderGuards.free (head + 12 - 12) s.kernel := hok
        rwa [Nat.add_sub_cancel] at hguard
      have hwf := hinv.wellFormed
      obtain ⟨left, rest, rfl, hhead⟩ := mem_blocks_iff.mp hmem
      obtain ⟨left, lh, rh, right, n, k1, rfl, rfl, hunified, hfree⟩ :=
        free_eq hwf hhead hinv.floor hfreeOk.1
      simp only [Call.step, hfree, ok_bind, Except.ok.injEq] at hstep
      subst hstep
      rw [hhead] at hfreeOk
      exact hunified.sorted hwf hsorted hfreeOk
  | store a v =>
      obtain rfl := Except.ok.inj hstep
      obtain ⟨w, hw, hlo, hhi⟩ := hlegal
      obtain ⟨head, b, hp, hb, hmem⟩ := hinv.live w hw
      have hwf := hinv.wellFormed
      have hfloor := hwf.room
      obtain ⟨left, right, rfl, hhead⟩ := mem_blocks_iff.mp hmem
      have hsame : SameOutside a (a + 1) s.kernel.mem (write8 s.kernel.mem a v) :=
        (SameOutside.refl _ _ _).write8 (Nat.le_refl _) (by omega)
      have hentries : s.kernel.heap.index.entries (write8 s.kernel.mem a v) =
          s.kernel.heap.index.entries s.kernel.mem :=
        OrderedArray.entries_congr (hsame.sameOn (Or.inl (by omega)))
      unfold SortedIndex
      simp only [hentries]
      -- the store is in a block, and the entries are holes
      refine Ordered.congr hsorted fun x hx => ?_
      have hne : x ≠ s.kernel.heap.startAddress + total Chunk.size left := by
        intro heq
        obtain ⟨t, hhole⟩ := hwf.mem_layout_of_entry hx
        have hflag := (hwf.chunksAt _ hhole).header.isHole
        simp only [heq] at hflag
        rw [hwf.chunkAt.header.isHole] at hflag
        simp at hflag
      obtain ⟨-, -, hx'⟩ := hwf.entry_apart hx hne
      simp only at hx'
      have hheader : SameOn x (x + 12) s.kernel.mem (write8 s.kernel.mem a v) :=
        hsame.sameOn (by omega)
      exact hheader.read32 (by omega) (by omega)

/-- **Every run** within the guards keeps the index sorted. -/
theorem Fresh.orderRun (hfresh : Fresh s)
    (hrun : Run.Reaches Call.step (Call.Good orderGuards) s s') : ∃ cs, OrderInv s' cs :=
  hrun.invariant (fun t => ∃ cs, OrderInv t cs) ⟨_, hfresh.orderInv⟩
    fun _ _ _ ⟨_, hinv⟩ hgood hstep => hinv.step hgood.1 hgood.2 hstep

end Run

end Vulcanos
