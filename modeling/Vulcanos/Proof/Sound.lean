import Vulcanos.Proof.IndexOrder
import Vulcanos.Proof.Tidy

/-!
# Heaps whose index lies anywhere

`WellFormed` describes the heaps that `create_heap` makes, with the index below the chunks. What a
single call does can be said of more heaps than these: it is enough that the storage of the index
and the chunks do not meet.
-/

namespace Vulcanos

open Memory Word Layout KeyOrder

/-- The storage of the index keeps out of `[lo, hi)`. -/
def IndexOutside (lo hi : Nat) (k : Kernel) : Prop :=
  k.heap.index.array + 4 * k.heap.index.maxSize ≤ lo ∨ hi ≤ k.heap.index.array

/-- The heap consists of the chunks `cs`, one after another, and an index elsewhere that lists the
holes among them and has room for more. -/
structure Sound (k : Kernel) (cs : List Chunk) : Prop where
  end_lt : k.heap.endAddress < 4294967296
  tiles : k.heap.startAddress + total Chunk.size cs = k.heap.endAddress
  chunksAt : ChunksAt k.mem k.heap.startAddress cs
  index : (k.heap.index.entries k.mem).Perm (holes k.heap.startAddress cs)
  spare : k.heap.index.size < k.heap.index.maxSize
  outside : IndexOutside k.heap.startAddress k.heap.endAddress k

/-- What the operations on the chunks need of the index: the slots in use list the holes and lie
elsewhere. -/
structure Tiled (k : Kernel) (cs : List Chunk) : Prop where
  end_lt : k.heap.endAddress < 4294967296
  tiles : k.heap.startAddress + total Chunk.size cs = k.heap.endAddress
  chunksAt : ChunksAt k.mem k.heap.startAddress cs
  index : (k.heap.index.entries k.mem).Perm (holes k.heap.startAddress cs)
  apart : k.heap.index.array + 4 * k.heap.index.size ≤ k.heap.startAddress ∨
    k.heap.endAddress ≤ k.heap.index.array

theorem WellFormed.sound {k : Kernel} {cs : List Chunk} (h : WellFormed k cs)
    (hspare : k.heap.index.size < k.heap.index.maxSize)
    (hbelow : k.heap.index.array + 4 * k.heap.index.maxSize ≤ k.heap.startAddress) : Sound k cs :=
  ⟨h.end_lt, h.tiles, h.chunksAt, h.index, hspare, Or.inl hbelow⟩

theorem WellFormed.tiled {k : Kernel} {cs : List Chunk} (h : WellFormed k cs) : Tiled k cs :=
  ⟨h.end_lt, h.tiles, h.chunksAt, h.index, Or.inl h.room⟩

theorem Sound.tiled {k : Kernel} {cs : List Chunk} (h : Sound k cs) : Tiled k cs := by
  have hspare := h.spare
  have hout := h.outside
  unfold IndexOutside at hout
  exact ⟨h.end_lt, h.tiles, h.chunksAt, h.index, by omega⟩

/-! ### Reading a heap -/

section Read

variable {k : Kernel} {cs left right : List Chunk} {c : Chunk} {it x s : Nat}

theorem Tiled.minSize (h : Tiled k cs) : ∀ c ∈ cs, 20 ≤ c.size := h.chunksAt.minSize

theorem Tiled.chunkAt (h : Tiled k (left ++ c :: right)) :
    ChunkAt k.mem (k.heap.startAddress + total Chunk.size left) c :=
  (chunksAt_cons.mp (chunksAt_append.mp h.chunksAt).2).1

theorem Tiled.chunk_end_le (h : Tiled k (left ++ c :: right)) :
    k.heap.startAddress + total Chunk.size left + c.size ≤ k.heap.endAddress := by
  have htiles := h.tiles
  rw [total_append, total_cons] at htiles
  omega

theorem Tiled.nodup_entries (h : Tiled k cs) : (k.heap.index.entries k.mem).Nodup := by
  rw [h.index.nodup_iff]
  exact nodup_holes h.minSize

theorem Tiled.hole_of_mem_entries (h : Tiled k cs) (hx : x ∈ k.heap.index.entries k.mem) :
    ∃ left right, cs = left ++ ⟨headerSize k.mem x, true⟩ :: right ∧
      x = k.heap.startAddress + total Chunk.size left := by
  obtain ⟨left, s, right, rfl, hxaddr⟩ := mem_holes_iff.mp (h.index.mem_iff.mp hx)
  have hsize := h.chunkAt.header.size
  rw [← hxaddr] at hsize
  exact ⟨left, right, by rw [hsize], hxaddr⟩

theorem Tiled.entry_bounds (h : Tiled k cs) (hx : x ∈ k.heap.index.entries k.mem) :
    k.heap.startAddress ≤ x ∧ x + headerSize k.mem x ≤ k.heap.endAddress ∧
      20 ≤ headerSize k.mem x := by
  obtain ⟨left, right, rfl, hxaddr⟩ := h.hole_of_mem_entries hx
  have hle := h.chunk_end_le
  have hmin := h.chunkAt.minSize
  simp only at hle hmin
  omega

theorem Tiled.entry_apart (h : Tiled k (left ++ c :: right))
    (hx : x ∈ k.heap.index.entries k.mem)
    (hne : x ≠ k.heap.startAddress + total Chunk.size left) :
    x + headerSize k.mem x ≤ k.heap.startAddress + total Chunk.size left ∨
      k.heap.startAddress + total Chunk.size left + c.size ≤ x := by
  obtain ⟨left', right', hcs, hxaddr⟩ := h.hole_of_mem_entries hx
  have hmem : (x, (⟨headerSize k.mem x, true⟩ : Chunk)) ∈
      layout Chunk.size k.heap.startAddress (left ++ c :: right) :=
    (mem_layout_iff Chunk.size).mpr ⟨left', right', hcs, hxaddr⟩
  have hchunk : (k.heap.startAddress + total Chunk.size left, c) ∈
      layout Chunk.size k.heap.startAddress (left ++ c :: right) :=
    (mem_layout_iff Chunk.size).mpr ⟨left, right, rfl, rfl⟩
  rcases apart_of_mem_layout hmem hchunk with heq | hapart
  · exact absurd (congrArg Prod.fst heq) hne
  · exact hapart

theorem Tiled.entry_ne_block (h : Tiled k (left ++ ⟨s, false⟩ :: right))
    (hx : x ∈ k.heap.index.entries k.mem) : x ≠ k.heap.startAddress + total Chunk.size left := by
  rintro rfl
  obtain ⟨left', right', hcs, haddr⟩ := h.hole_of_mem_entries hx
  obtain ⟨-, hchunk, -⟩ := split_unique h.minSize rfl hcs (Nat.add_left_cancel haddr)
  simp at hchunk

theorem Tiled.entries_eq {m' : Mem} (h : Tiled k cs)
    (hsame : SameOutside k.heap.startAddress k.heap.endAddress k.mem m') :
    k.heap.index.entries m' = k.heap.index.entries k.mem := by
  have hapart := h.apart
  exact OrderedArray.entries_congr (hsame.sameOn (by omega))

theorem Sound.minSize (h : Sound k cs) : ∀ c ∈ cs, 20 ≤ c.size := h.tiled.minSize

theorem Sound.chunkAt (h : Sound k (left ++ c :: right)) :
    ChunkAt k.mem (k.heap.startAddress + total Chunk.size left) c := h.tiled.chunkAt

theorem Sound.chunk_end_le (h : Sound k (left ++ c :: right)) :
    k.heap.startAddress + total Chunk.size left + c.size ≤ k.heap.endAddress :=
  h.tiled.chunk_end_le

theorem Sound.nodup_entries (h : Sound k cs) : (k.heap.index.entries k.mem).Nodup :=
  h.tiled.nodup_entries

theorem Sound.hole_of_mem_entries (h : Sound k cs) (hx : x ∈ k.heap.index.entries k.mem) :
    ∃ left right, cs = left ++ ⟨headerSize k.mem x, true⟩ :: right ∧
      x = k.heap.startAddress + total Chunk.size left := h.tiled.hole_of_mem_entries hx

theorem Sound.entry_bounds (h : Sound k cs) (hx : x ∈ k.heap.index.entries k.mem) :
    k.heap.startAddress ≤ x ∧ x + headerSize k.mem x ≤ k.heap.endAddress ∧
      20 ≤ headerSize k.mem x := h.tiled.entry_bounds hx

theorem Sound.entry_apart (h : Sound k (left ++ c :: right))
    (hx : x ∈ k.heap.index.entries k.mem)
    (hne : x ≠ k.heap.startAddress + total Chunk.size left) :
    x + headerSize k.mem x ≤ k.heap.startAddress + total Chunk.size left ∨
      k.heap.startAddress + total Chunk.size left + c.size ≤ x := h.tiled.entry_apart hx hne

end Read

/-! ### The index and the chunks do not meet -/

section Apart

variable {k : Kernel} {m m' : Mem} {lo hi head it : Nat}

theorem IndexOutside.congr {k' : Kernel} (hout : IndexOutside lo hi k)
    (hindex : k'.heap.index = k.heap.index) : IndexOutside lo hi k' := by
  unfold IndexOutside at hout ⊢
  rwa [hindex]

theorem entries_of_sameOutside (hspare : k.heap.index.size ≤ k.heap.index.maxSize)
    (hout : IndexOutside lo hi k) (hsame : SameOutside lo hi m m') :
    k.heap.index.entries m' = k.heap.index.entries m := by
  unfold IndexOutside at hout
  exact OrderedArray.entries_congr (hsame.sameOn (by omega))

theorem insertHole_sameOn (hspare : k.heap.index.size < k.heap.index.maxSize)
    (hout : IndexOutside lo hi k) : SameOn lo hi k.mem (Kernel.insertHole head k).mem := by
  unfold IndexOutside at hout
  exact (insertHole_sameOutside head k).sameOn (by omega)

theorem removeHole_sameOn (hspare : k.heap.index.size ≤ k.heap.index.maxSize)
    (hout : IndexOutside lo hi k) : SameOn lo hi k.mem (Kernel.removeHole it k).mem := by
  unfold IndexOutside at hout
  exact (removeHole_sameOutside it k).sameOn (by omega)

end Apart

/-! ### Replacing chunks in the middle -/

section Replace

variable {k k' : Kernel} {left mid mid' right : List Chunk}

/-- New chunks take the place of old ones of the same size, and the index keeps up. -/
theorem Sound.replace (h : Sound k (left ++ mid ++ right))
    (hstart : k'.heap.startAddress = k.heap.startAddress)
    (hend : k'.heap.endAddress = k.heap.endAddress)
    (harray : k'.heap.index.array = k.heap.index.array)
    (hmax : k'.heap.index.maxSize = k.heap.index.maxSize)
    (hspare : k'.heap.index.size < k.heap.index.maxSize)
    (htotal : total Chunk.size mid' = total Chunk.size mid)
    (hleft : SameOn k.heap.startAddress (k.heap.startAddress + total Chunk.size left) k.mem k'.mem)
    (hright : SameOn (k.heap.startAddress + total Chunk.size left + total Chunk.size mid)
      k.heap.endAddress k.mem k'.mem)
    (hmid : ChunksAt k'.mem (k.heap.startAddress + total Chunk.size left) mid')
    (hindex : (k'.heap.index.entries k'.mem).Perm
      (holes k.heap.startAddress left
        ++ holes (k.heap.startAddress + total Chunk.size left) mid'
        ++ holes (k.heap.startAddress + total Chunk.size left + total Chunk.size mid) right)) :
    Sound k' (left ++ mid' ++ right) where
  end_lt := by rw [hend]; exact h.end_lt
  tiles := by
    have htiles := h.tiles
    simp only [total_append] at htiles ⊢
    omega
  chunksAt := by
    have htiles := h.tiles
    have hchunks := h.chunksAt
    simp only [chunksAt_append, total_append] at hchunks htiles ⊢
    obtain ⟨⟨hl, -⟩, hr⟩ := hchunks
    rw [hstart, htotal]
    refine ⟨⟨hl.frame hleft, hmid⟩, hr.frame (hright.mono (by omega) (by omega))⟩
  index := by
    simp only [holes_append, total_append, hstart, htotal]
    rw [← Nat.add_assoc]
    exact hindex
  spare := by rw [hmax]; exact hspare
  outside := by
    unfold IndexOutside
    rw [harray, hmax, hstart, hend]
    exact h.outside

end Replace

end Vulcanos
