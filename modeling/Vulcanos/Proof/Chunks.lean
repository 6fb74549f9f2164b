import Vulcanos.Kernel.Kheap
import Vulcanos.Library.Layout
import Vulcanos.Proof.OrderedArray

/-!
# Well-formed heaps

What the heap is for: its chunks, blocks and holes, tile the space between `start_address` and
`end_address`, and the index lists the holes. The chunk list is the abstract heap; `WellFormed` says
that a kernel state represents it.

Only a block's footer is part of the invariant. The footer of a hole goes stale when the hole is
merged to the right, and a hole made by page alignment never gets one in its last bytes.
-/

namespace Vulcanos

open Memory Word Layout

/-- A chunk of the heap, with the size that its header records. -/
structure Chunk where
  size : Nat
  hole : Bool
deriving Repr, DecidableEq

/-! ### Headers and footers in memory -/

/-- The header at `head`. -/
structure HeaderAt (m : Mem) (head : Nat) (hole : Bool) (size : Nat) : Prop where
  magic : headerMagic m head = heapMagic
  isHole : headerIsHole m head = hole.toNat
  size : headerSize m head = size

/-- The footer at `foot`, pointing back to `head`. -/
structure FooterAt (m : Mem) (foot head : Nat) : Prop where
  magic : footerMagic m foot = heapMagic
  header : footerHeader m foot = head

instance (m : Mem) (head : Nat) (hole : Bool) (size : Nat) :
    Decidable (HeaderAt m head hole size) :=
  decidable_of_iff (_ ∧ _ ∧ _) ⟨fun ⟨h1, h2, h3⟩ => ⟨h1, h2, h3⟩, fun ⟨h1, h2, h3⟩ => ⟨h1, h2, h3⟩⟩

instance (m : Mem) (foot head : Nat) : Decidable (FooterAt m foot head) :=
  decidable_of_iff (_ ∧ _) ⟨fun ⟨h1, h2⟩ => ⟨h1, h2⟩, fun ⟨h1, h2⟩ => ⟨h1, h2⟩⟩

section HeadersAndFooters

variable {m m' : Mem} {head foot size isHole lo hi : Nat} {hole : Bool}

theorem heapMagic_lt : heapMagic < 4294967296 := by decide

theorem headerAt_writeHeader (m : Mem) (head : Nat) (hole : Bool) (hsize : size < 4294967296) :
    HeaderAt (writeHeader m head hole.toNat size) head hole size where
  magic := by
    unfold headerMagic writeHeader
    rw [read32_write32_of_apart (by omega), read32_write8_of_apart (by omega),
      read32_write32_self _ _ heapMagic_lt]
  isHole := by
    unfold headerIsHole writeHeader
    rw [read8_write32_of_apart (by omega), read8_write8_self]
    cases hole <;> rfl
  size := read32_write32_self _ _ hsize

theorem headerAt_of_writeSize {n : Nat} (h : HeaderAt m head hole size) (hn : n < 4294967296) :
    HeaderAt (write32 m (head + 8) n) head hole n := by
  have hsame : SameOn head (head + 8) m (write32 m (head + 8) n) :=
    ((SameOutside.refl (head + 8) (head + 12) m).write32 (Nat.le_refl _)
      (Nat.le_refl _)).sameOn (Or.inl (Nat.le_refl _))
  exact ⟨(hsame.read32 (Nat.le_refl _) (by omega)).trans h.magic,
    (hsame.read8 (by omega) (by omega)).trans h.isHole, read32_write32_self _ _ hn⟩

theorem footerAt_of_writeHead {old : Nat} (h : FooterAt m foot old) (hhead : head < 4294967296) :
    FooterAt (write32 m (foot + 4) head) foot head := by
  have hsame : SameOn foot (foot + 4) m (write32 m (foot + 4) head) :=
    ((SameOutside.refl (foot + 4) (foot + 8) m).write32 (Nat.le_refl _)
      (Nat.le_refl _)).sameOn (Or.inl (Nat.le_refl _))
  exact ⟨(hsame.read32 (Nat.le_refl _) (Nat.le_refl _)).trans h.magic,
    read32_write32_self _ _ hhead⟩

theorem footerAt_writeFooter (m : Mem) (foot : Nat) (hhead : head < 4294967296) :
    FooterAt (writeFooter m foot head) foot head where
  magic := by
    unfold footerMagic writeFooter
    rw [read32_write32_of_apart (by omega), read32_write32_self _ _ heapMagic_lt]
  header := read32_write32_self _ _ hhead

theorem Memory.SameOutside.writeHeader (hlo : lo ≤ head) (hhi : head + 12 ≤ hi)
    (h : SameOutside lo hi m m') : SameOutside lo hi m (writeHeader m' head isHole size) :=
  ((h.write32 hlo (by omega)).write8 (by omega) (by omega)).write32 (by omega) (by omega)

theorem Memory.SameOutside.writeFooter (hlo : lo ≤ foot) (hhi : foot + 8 ≤ hi)
    (h : SameOutside lo hi m m') : SameOutside lo hi m (writeFooter m' foot head) :=
  (h.write32 hlo (by omega)).write32 (by omega) (by omega)

theorem HeaderAt.frame (h : HeaderAt m head hole size) (hsame : SameOn head (head + 12) m m') :
    HeaderAt m' head hole size where
  magic := (hsame.read32 (by omega) (by omega)).trans h.magic
  isHole := (hsame.read8 (by omega) (by omega)).trans h.isHole
  size := (hsame.read32 (by omega) (by omega)).trans h.size

theorem FooterAt.frame (h : FooterAt m foot head) (hsame : SameOn foot (foot + 8) m m') :
    FooterAt m' foot head where
  magic := (hsame.read32 (by omega) (by omega)).trans h.magic
  header := (hsame.read32 (by omega) (by omega)).trans h.header

theorem headerAt_of_writeFooter {back : Nat} (h : HeaderAt m head hole size)
    (hapart : head + 12 ≤ foot ∨ foot + 8 ≤ head) :
    HeaderAt (writeFooter m foot back) head hole size :=
  h.frame (((SameOutside.refl foot (foot + 8) m).writeFooter (Nat.le_refl _)
    (Nat.le_refl _)).sameOn hapart)

/-- A chunk that gets another size gets its footer where that size puts it. -/
theorem HeaderAt.resize {n : Nat} (h : HeaderAt m head hole size) (hfoot : foot + 8 = head + n)
    (hmin : 20 ≤ n) (hlt : head + n < 4294967296) :
    HeaderAt (writeFooter (write32 m (head + 8) n) foot head) head hole n ∧
      FooterAt (writeFooter (write32 m (head + 8) n) foot head) foot head ∧
      SameOutside (head + 8) (head + n) m (writeFooter (write32 m (head + 8) n) foot head) := by
  refine ⟨?_, footerAt_writeFooter _ _ (by omega), ?_⟩
  · exact headerAt_of_writeFooter (headerAt_of_writeSize h (by omega)) (Or.inl (by omega))
  · exact ((SameOutside.refl _ _ m).write32 (Nat.le_refl _) (by omega)).writeFooter
      (by omega) (by omega)

/-! A footer that overlaps a size field puts its own bytes there. -/

theorem writeFooter_magic (m : Mem) {x : Nat} (hlo : foot ≤ x) (hhi : x < foot + 4) :
    (writeFooter m foot head x).toNat = heapMagic / 256 ^ (x - foot) % 256 := by
  unfold writeFooter
  rw [write32_apply_of_lt (by omega)]
  exact write32_byte m hlo hhi

theorem writeFooter_header (m : Mem) {x : Nat} (hlo : foot + 4 ≤ x) (hhi : x < foot + 8) :
    (writeFooter m foot head x).toNat = head / 256 ^ (x - (foot + 4)) % 256 :=
  write32_byte _ hlo (by omega)

theorem magic_byte {i : Nat} (hi : i < 4) :
    heapMagic / 256 ^ i % 256 = 18 ∨ 24 ≤ heapMagic / 256 ^ i % 256 := by
  have hcases : i = 0 ∨ i = 1 ∨ i = 2 ∨ i = 3 := by omega
  rcases hcases with rfl | rfl | rfl | rfl <;> decide

end HeadersAndFooters

/-! ### Chunks in memory -/

/-- The chunk at `a`: room for a header and a footer, the header, and a block's footer. -/
structure ChunkAt (m : Mem) (a : Nat) (c : Chunk) : Prop where
  minSize : 20 ≤ c.size
  header : HeaderAt m a c.hole c.size
  footer : c.hole = false → FooterAt m (a + c.size - 8) a

instance (m : Mem) (a : Nat) (c : Chunk) : Decidable (ChunkAt m a c) :=
  decidable_of_iff (_ ∧ _ ∧ (_ → _))
    ⟨fun ⟨h1, h2, h3⟩ => ⟨h1, h2, h3⟩, fun ⟨h1, h2, h3⟩ => ⟨h1, h2, h3⟩⟩

/-- The chunks laid out from `a` on. -/
def ChunksAt (m : Mem) (a : Nat) (cs : List Chunk) : Prop :=
  ∀ u ∈ layout Chunk.size a cs, ChunkAt m u.1 u.2

instance (m : Mem) (a : Nat) (cs : List Chunk) : Decidable (ChunksAt m a cs) := by
  unfold ChunksAt
  infer_instance

def holes (a : Nat) (cs : List Chunk) : List Nat :=
  ((layout Chunk.size a cs).filter fun u => u.2.hole).map Prod.fst

/-- The addresses and sizes of the blocks. -/
def blocks (a : Nat) (cs : List Chunk) : List (Nat × Nat) :=
  ((layout Chunk.size a cs).filter fun u => !u.2.hole).map fun u => (u.1, u.2.size)

section Chunks

variable {m m' : Mem} {a x s : Nat} {c : Chunk} {cs left right : List Chunk}

theorem ChunkAt.frame (h : ChunkAt m a c) (hsame : SameOn a (a + c.size) m m') :
    ChunkAt m' a c where
  minSize := h.minSize
  header := by
    have hmin := h.minSize
    exact h.header.frame (hsame.mono (Nat.le_refl _) (by omega))
  footer := fun hblock => by
    have hmin := h.minSize
    exact (h.footer hblock).frame (hsame.mono (by omega) (by omega))

theorem chunksAt_nil : ChunksAt m a [] := by
  intro u hu
  simp at hu

theorem chunksAt_cons : ChunksAt m a (c :: cs) ↔ ChunkAt m a c ∧ ChunksAt m (a + c.size) cs := by
  simp [ChunksAt]

theorem chunksAt_append : ChunksAt m a (left ++ right) ↔
    ChunksAt m a left ∧ ChunksAt m (a + total Chunk.size left) right := by
  simp only [ChunksAt, layout_append, List.mem_append]
  constructor
  · exact fun h => ⟨fun u hu => h u (Or.inl hu), fun u hu => h u (Or.inr hu)⟩
  · rintro ⟨hleft, hright⟩ u (hu | hu)
    · exact hleft u hu
    · exact hright u hu

theorem ChunksAt.frame (h : ChunksAt m a cs)
    (hsame : SameOn a (a + total Chunk.size cs) m m') : ChunksAt m' a cs := by
  intro u hu
  exact (h u hu).frame (hsame.mono (le_of_mem_layout hu) (end_le_of_mem_layout hu))

theorem ChunksAt.minSize (h : ChunksAt m a cs) : ∀ c ∈ cs, 20 ≤ c.size := by
  intro c hc
  obtain ⟨left, right, rfl⟩ := List.append_of_mem hc
  exact (h (a + total Chunk.size left, c)
    ((mem_layout_iff Chunk.size).mpr ⟨left, right, rfl, rfl⟩)).minSize

@[simp]
theorem holes_nil (a : Nat) : holes a [] = [] := rfl

@[simp]
theorem holes_cons (a : Nat) (c : Chunk) (cs : List Chunk) :
    holes a (c :: cs) = (if c.hole then [a] else []) ++ holes (a + c.size) cs := by
  unfold holes
  cases hhole : c.hole <;> simp [hhole]

@[simp]
theorem holes_append (a : Nat) (left right : List Chunk) :
    holes a (left ++ right) = holes a left ++ holes (a + total Chunk.size left) right := by
  simp [holes, layout_append]

@[simp]
theorem blocks_nil (a : Nat) : blocks a [] = [] := rfl

@[simp]
theorem blocks_cons (a : Nat) (c : Chunk) (cs : List Chunk) :
    blocks a (c :: cs) = (if c.hole then [] else [(a, c.size)]) ++ blocks (a + c.size) cs := by
  unfold blocks
  cases hhole : c.hole <;> simp [hhole]

@[simp]
theorem blocks_append (a : Nat) (left right : List Chunk) :
    blocks a (left ++ right) = blocks a left ++ blocks (a + total Chunk.size left) right := by
  simp [blocks, layout_append]

theorem mem_holes_iff : x ∈ holes a cs ↔
    ∃ left s right, cs = left ++ ⟨s, true⟩ :: right ∧ x = a + total Chunk.size left := by
  unfold holes
  simp only [List.mem_map, List.mem_filter, mem_layout_iff]
  constructor
  · rintro ⟨⟨y, s, hole⟩, ⟨⟨left, right, hcs, hy⟩, hhole⟩, rfl⟩
    obtain rfl : hole = true := hhole
    exact ⟨left, s, right, hcs, hy⟩
  · rintro ⟨left, s, right, hcs, rfl⟩
    exact ⟨(_, ⟨s, true⟩), ⟨⟨left, right, hcs, rfl⟩, rfl⟩, rfl⟩

theorem mem_blocks_iff : (x, s) ∈ blocks a cs ↔
    ∃ left right, cs = left ++ ⟨s, false⟩ :: right ∧ x = a + total Chunk.size left := by
  unfold blocks
  simp only [List.mem_map, List.mem_filter, mem_layout_iff]
  constructor
  · rintro ⟨⟨y, s', hole⟩, ⟨⟨left, right, hcs, hy⟩, hhole⟩, heq⟩
    obtain rfl : hole = false := by simpa using hhole
    obtain ⟨rfl, rfl⟩ := Prod.mk.inj heq
    exact ⟨left, right, hcs, hy⟩
  · rintro ⟨left, right, hcs, rfl⟩
    exact ⟨(_, ⟨s, false⟩), ⟨⟨left, right, hcs, rfl⟩, rfl⟩, rfl⟩

theorem split_unique {left' right' : List Chunk} {c' : Chunk} (hmin : ∀ c ∈ cs, 20 ≤ c.size)
    (h : cs = left ++ c :: right) (h' : cs = left' ++ c' :: right')
    (haddr : total Chunk.size left = total Chunk.size left') :
    left = left' ∧ c = c' ∧ right = right' := by
  subst h
  induction left generalizing left' with
  | nil =>
      cases left' with
      | nil =>
          obtain ⟨rfl, rfl⟩ := List.cons.inj h'
          exact ⟨rfl, rfl, rfl⟩
      | cons d left' =>
          obtain ⟨rfl, -⟩ := List.cons.inj h'
          have hd := hmin c (by simp)
          simp only [total_nil, total_cons] at haddr
          omega
  | cons d left ih =>
      cases left' with
      | nil =>
          obtain ⟨rfl, -⟩ := List.cons.inj h'
          have hd := hmin d (by simp)
          simp only [total_nil, total_cons] at haddr
          omega
      | cons d' left' =>
          obtain ⟨rfl, htail⟩ := List.cons.inj h'
          simp only [total_cons, Nat.add_left_cancel_iff] at haddr
          obtain ⟨rfl, hrest⟩ := ih haddr (fun c hc => hmin c (List.mem_cons_of_mem d hc)) htail
          exact ⟨rfl, hrest⟩

theorem nodup_holes (hmin : ∀ c ∈ cs, 20 ≤ c.size) : (holes a cs).Nodup :=
  (nodup_layout_fst fun c hc => by have := hmin c hc; omega).sublist
    (List.filter_sublist.map Prod.fst)

theorem nodup_blocks_fst (hmin : ∀ c ∈ cs, 20 ≤ c.size) : ((blocks a cs).map Prod.fst).Nodup := by
  have hsub : ((blocks a cs).map Prod.fst).Sublist ((layout Chunk.size a cs).map Prod.fst) := by
    unfold blocks
    rw [List.map_map]
    exact List.filter_sublist.map Prod.fst
  exact (nodup_layout_fst fun c hc => by have := hmin c hc; omega).sublist hsub

theorem apart_of_mem_blocks {x y t : Nat} (hx : (x, s) ∈ blocks a cs) (hy : (y, t) ∈ blocks a cs) :
    (x, s) = (y, t) ∨ x + s ≤ y ∨ y + t ≤ x := by
  obtain ⟨left, right, hcs, rfl⟩ := mem_blocks_iff.mp hx
  obtain ⟨left', right', hcs', rfl⟩ := mem_blocks_iff.mp hy
  have hu := (mem_layout_iff Chunk.size).mpr
    ⟨left, right, hcs, (rfl : (a + total Chunk.size left, Chunk.mk s false).1 = _)⟩
  have hv := (mem_layout_iff Chunk.size).mpr
    ⟨left', right', hcs', (rfl : (a + total Chunk.size left', Chunk.mk t false).1 = _)⟩
  rcases apart_of_mem_layout hu hv with heq | hapart
  · simp only [Prod.mk.injEq, Chunk.mk.injEq, and_true] at heq
    exact Or.inl (Prod.ext heq.1 heq.2)
  · exact Or.inr hapart

end Chunks

/-! ### The invariant -/

/-- The kernel's heap consists of the chunks `cs`, one after another, and its index lists the holes
among them. -/
structure WellFormed (k : Kernel) (cs : List Chunk) : Prop where
  start_ge : 4096 ≤ k.heap.startAddress
  end_lt : k.heap.endAddress < 4294967296
  tiles : k.heap.startAddress + total Chunk.size cs = k.heap.endAddress
  chunksAt : ChunksAt k.mem k.heap.startAddress cs
  index : (k.heap.index.entries k.mem).Perm (holes k.heap.startAddress cs)
  room : k.heap.index.array + 4 * k.heap.index.size ≤ k.heap.startAddress

def withEnd (endAddr : Nat) (k : Kernel) : Kernel :=
  { k with heap := { k.heap with endAddress := endAddr } }

@[simp]
theorem withEnd_mem (endAddr : Nat) (k : Kernel) : (withEnd endAddr k).mem = k.mem := rfl

@[simp]
theorem withEnd_heap (endAddr : Nat) (k : Kernel) :
    (withEnd endAddr k).heap = { k.heap with endAddress := endAddr } := rfl

namespace WellFormed

variable {k : Kernel} {cs left right : List Chunk} {c : Chunk}

theorem minSize (h : WellFormed k cs) : ∀ c ∈ cs, 20 ≤ c.size := h.chunksAt.minSize

theorem chunkAt (h : WellFormed k (left ++ c :: right)) :
    ChunkAt k.mem (k.heap.startAddress + total Chunk.size left) c :=
  (chunksAt_cons.mp (chunksAt_append.mp h.chunksAt).2).1

theorem chunk_end_le (h : WellFormed k (left ++ c :: right)) :
    k.heap.startAddress + total Chunk.size left + c.size ≤ k.heap.endAddress := by
  have htiles := h.tiles
  rw [total_append, total_cons] at htiles
  omega

theorem hole_of_mem_entries (h : WellFormed k cs) {x : Nat}
    (hx : x ∈ k.heap.index.entries k.mem) :
    ∃ left s right, cs = left ++ ⟨s, true⟩ :: right ∧
      x = k.heap.startAddress + total Chunk.size left :=
  mem_holes_iff.mp (h.index.mem_iff.mp hx)

end WellFormed

end Vulcanos
