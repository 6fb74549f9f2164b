import Vulcanos.Library.Run
import Vulcanos.Proof.Grow
import Vulcanos.Proof.Free

/-!
# `alloc` keeps the heap well formed

`alloc` is right about the heap when every call of it, the nested ones included, stays out of three
situations: a page-aligned request whose hole does not have room for the parts the code cuts it
into, an expansion whose new bytes go to a hole that is not the last chunk, and an expansion that
runs past the end of the address space. `AllocOk` follows the calls and asks of each what its guards
say.

`alloc_rule` is the induction over the calls, done once: what carving and growing keep, under the
guards, `alloc` keeps.
-/

namespace Vulcanos

open Memory Word Layout

/-! ### What serving requests does to the heap -/

/-- The heap `k'` of the chunks `cs'` is the heap `k` of the chunks `cs` with the blocks `new`
added. The other blocks are where they were, contents included. -/
structure Serves (k : Kernel) (cs : List Chunk) (k' : Kernel) (cs' : List Chunk)
    (new : List (Nat × Nat)) : Prop where
  wellFormed : WellFormed k' cs'
  start : k'.heap.startAddress = k.heap.startAddress
  endAddr : k.heap.endAddress ≤ k'.heap.endAddress
  blocks : (blocks k.heap.startAddress cs').Perm (new ++ blocks k.heap.startAddress cs)
  same : ∀ u ∈ Vulcanos.blocks k.heap.startAddress cs, SameOn u.1 (u.1 + u.2) k.mem k'.mem

namespace Serves

variable {k k' k'' : Kernel} {cs cs' cs'' : List Chunk} {new new' : List (Nat × Nat)}

theorem refl (h : WellFormed k cs) : Serves k cs k cs [] :=
  ⟨h, rfl, Nat.le_refl _, List.Perm.refl _, fun _ _ _ _ _ => rfl⟩

theorem trans (h : Serves k cs k' cs' new) (h' : Serves k' cs' k'' cs'' new') :
    Serves k cs k'' cs'' (new' ++ new) where
  wellFormed := h'.wellFormed
  start := h'.start.trans h.start
  endAddr := h.endAddr.trans h'.endAddr
  blocks := by
    have hperm := h'.blocks
    rw [h.start] at hperm
    rw [List.append_assoc]
    exact hperm.trans (h.blocks.append_left new')
  same := fun u hu => (h.same u hu).trans (h'.same u (by
    rw [h.start]
    exact h.blocks.mem_iff.mpr (List.mem_append_right _ hu)))

/-- Well-formedness speaks of the memory and of the heap, not of the page tables. -/
theorem congr (h : Serves k cs k' cs' new) (hmem : k''.mem = k'.mem) (hheap : k''.heap = k'.heap) :
    Serves k cs k'' cs' new where
  wellFormed := by
    obtain ⟨h1, h2, h3, h4, h5, h6⟩ := h.wellFormed
    constructor <;> rw [hheap] <;> first | assumption | (rw [hmem]; assumption)
  start := by rw [hheap]; exact h.start
  endAddr := by rw [hheap]; exact h.endAddr
  blocks := h.blocks
  same := by rw [hmem]; exact h.same

end Serves

/-! ### A request served at once -/

section AtOnce

variable {k : Kernel} {cs : List Chunk} {size pageAlign it : Nat}

theorem findSmallestHole_spec (h : Kernel.findSmallestHole size pageAlign k = some it) :
    it < k.heap.index.size ∧
      Kernel.holeFits size pageAlign k.mem (k.heap.index.lookup it k.mem) ∧
      ∀ j < it, ¬ Kernel.holeFits size pageAlign k.mem (k.heap.index.lookup j k.mem) := by
  have hfrom : ∀ n start, Kernel.findSmallestHoleFrom size pageAlign k n start = some it →
      start ≤ it ∧ it < start + n ∧
        Kernel.holeFits size pageAlign k.mem (k.heap.index.lookup it k.mem) ∧
        ∀ j, start ≤ j → j < it →
          ¬ Kernel.holeFits size pageAlign k.mem (k.heap.index.lookup j k.mem) := by
    intro n
    induction n with
    | zero => intro start hnone; simp [Kernel.findSmallestHoleFrom] at hnone
    | succ n ih =>
        intro start hsome
        rw [Kernel.findSmallestHoleFrom] at hsome
        split at hsome
        · rename_i hfits
          obtain rfl := Option.some.inj hsome
          exact ⟨Nat.le_refl _, by omega, hfits, fun j _ _ => by omega⟩
        · rename_i hfits
          obtain ⟨hge, hlt, hhere, hbefore⟩ := ih _ hsome
          refine ⟨by omega, by omega, hhere, fun j hj hj' => ?_⟩
          rcases Nat.eq_or_lt_of_le hj with rfl | hj
          · exact hfits
          · exact hbefore j hj hj'
  obtain ⟨-, hlt, hfits, hbefore⟩ := hfrom _ _ h
  exact ⟨by omega, hfits, fun j hj => hbefore j (Nat.zero_le j) hj⟩

theorem findSmallestHole_none (h : Kernel.findSmallestHole size pageAlign k = none) :
    ∀ j < k.heap.index.size,
      ¬ Kernel.holeFits size pageAlign k.mem (k.heap.index.lookup j k.mem) := by
  have hfrom : ∀ n start, Kernel.findSmallestHoleFrom size pageAlign k n start = none →
      ∀ j, start ≤ j → j < start + n →
        ¬ Kernel.holeFits size pageAlign k.mem (k.heap.index.lookup j k.mem) := by
    intro n
    induction n with
    | zero => intro start _ j _ _; omega
    | succ n ih =>
        intro start hnone j hj hj'
        rw [Kernel.findSmallestHoleFrom] at hnone
        split at hnone
        · simp at hnone
        · rename_i hfits
          rcases Nat.eq_or_lt_of_le hj with rfl | hj
          · exact hfits
          · exact ih _ hnone j hj (by omega)
  exact fun j hj => hfrom _ _ h j (Nat.zero_le j) (by omega)

theorem holeFits_plain (m : Mem) (head : Nat) :
    Kernel.holeFits size 0 m head = decide (size ≤ headerSize m head) := by
  simp [Kernel.holeFits]

/-- The hole found for a page-aligned request has room for the parts it is cut into, and the index
for another entry. -/
def CarveOk (size pageAlign it : Nat) (k : Kernel) : Prop :=
  pageAlign ≠ 0 →
    AlignFits (k.heap.index.lookup it k.mem)
      (headerSize k.mem (k.heap.index.lookup it k.mem)) (size + 20) ∧ IndexRoom k

instance (size pageAlign it : Nat) (k : Kernel) : Decidable (CarveOk size pageAlign it k) := by
  unfold CarveOk
  infer_instance

/-- Carving a block out of a hole adds it to the blocks. -/
theorem Carved.serves {k' : Kernel} {left front right : List Chunk} {s b : Nat}
    (h : WellFormed k (left ++ [⟨s, true⟩] ++ right)) (hcarved : Carved k left front s right b k') :
    Serves k (left ++ [⟨s, true⟩] ++ right) k'
      (left ++ (front ++ blockChunks b (s - total Chunk.size front)) ++ right)
      [(k.heap.startAddress + total Chunk.size left + total Chunk.size front, b)] := by
  obtain ⟨hfront, hroom, hstart, hend, hwf, hleft, hright, -⟩ := hcarved
  have hfrontBlocks : ∀ x, blocks x front = [] := by
    intro x
    rcases hfront with rfl | ⟨f, rfl⟩ <;> simp
  refine ⟨hwf, hstart, by rw [hend], ?_, ?_⟩
  · simp only [blocks_append, blocks_blockChunks, hfrontBlocks, total_append, blocks_cons,
        blocks_nil,
      total_blockChunks (show b ≤ s - total Chunk.size front by omega), total_cons, total_nil,
      if_true, List.nil_append, List.append_nil, Nat.add_zero]
    rw [show total Chunk.size front + (s - total Chunk.size front) = s by omega, List.append_assoc]
    exact List.perm_middle
  · rintro ⟨x, t⟩ hx
    have htiles := h.tiles
    simp only [blocks_append, blocks_cons, blocks_nil, if_true, List.append_nil, List.mem_append,
      total_append, total_cons, total_nil] at hx htiles
    rcases hx with hx | hx
    · obtain ⟨l, r', hl, rfl⟩ := mem_blocks_iff.mp hx
      have htotal := congrArg (total Chunk.size) hl
      simp only [total_append, total_cons] at htotal
      exact hleft.mono (by simp only; omega) (by simp only; omega)
    · obtain ⟨l, r', hl, rfl⟩ := mem_blocks_iff.mp hx
      exact (hright _).mono (by simp only; omega) (Nat.le_refl _)

/-- **A request served from a hole at once**, page-aligned or not. -/
theorem carveBlock_carved (h : WellFormed k cs)
    (hfind : Kernel.findSmallestHole (size + 20) pageAlign k = some it)
    (hok : CarveOk size pageAlign it k) :
    ∃ left front s right b, cs = left ++ [⟨s, true⟩] ++ right ∧ (pageAlign = 0 → front = []) ∧
      size + 20 ≤ b ∧
      (Kernel.carveBlock it size (size + 20) pageAlign k).1 =
        k.heap.startAddress + total Chunk.size left + total Chunk.size front + 12 ∧
      Carved k left front s right b (Kernel.carveBlock it size (size + 20) pageAlign k).2 := by
  obtain ⟨hit, hholeFits, -⟩ := findSmallestHole_spec hfind
  set a := k.heap.index.lookup it k.mem with ha
  set s := headerSize k.mem a with hs
  have hfits : size + 20 ≤ s := by
    by_cases hplain : pageAlign = 0
    · subst hplain
      rw [holeFits_plain] at hholeFits
      exact of_decide_eq_true hholeFits
    · have hfit := (hok hplain).1
      rw [← ha, ← hs] at hfit
      unfold AlignFits at hfit
      omega
  obtain ⟨left, front, right, b, hcs, haddr, hfront, hb, hp, hcarved⟩ :=
    carveBlock_spec h hit ha hs hfits hok
  exact ⟨left, front, s, right, b, hcs, fun hplain => by rw [hfront, if_pos hplain], hb,
    by rw [hp, haddr], hcarved⟩

theorem carveBlock_serves (h : WellFormed k cs)
    (hfind : Kernel.findSmallestHole (size + 20) pageAlign k = some it)
    (hok : CarveOk size pageAlign it k) :
    ∃ cs' p b, Serves k cs (Kernel.carveBlock it size (size + 20) pageAlign k).2 cs' [(p, b)] ∧
      (Kernel.carveBlock it size (size + 20) pageAlign k).1 = p + 12 ∧ size + 20 ≤ b := by
  obtain ⟨left, front, s, right, b, rfl, -, hb, hp, hcarved⟩ := carveBlock_carved h hfind hok
  exact ⟨_, _, b, hcarved.serves h, hp, hb⟩

theorem alloc_of_find (fuel : Nat) (hsize : size + 20 < 4294967296)
    (hfind : Kernel.findSmallestHole (size + 20) pageAlign k = some it) :
    Kernel.alloc (fuel + 1) size pageAlign k =
      .ok (Kernel.carveBlock it size (size + 20) pageAlign k) := by
  have hnew : add32 size (sizeofHeader + sizeofFooter) = size + 20 := add32_eq hsize
  rw [Kernel.alloc]
  simp only [hnew, hfind]

end AtOnce

/-! ### Guards -/

/-- What is asked of a call where it cuts the hole it found, where it expands, where it adds the
space of an expansion to the holes, and where it frees a block. -/
structure Guards where
  carve : (size pageAlign it : Nat) → Kernel → Prop
  expand : (size : Nat) → Kernel → Prop
  grow : (oldEnd : Nat) → Kernel → Prop
  free : (head : Nat) → Kernel → Prop

/-- The guards under which the heap stays well formed. -/
def heapGuards : Guards where
  carve := CarveOk
  expand := fun _ _ => True
  grow := fun oldEnd k => LastHoleAtEnd oldEnd k ∧ (k.heap.index.size = 0 → IndexRoom k)
  free := FreeOk

/-- The request can be served without an expansion, within the guards. -/
def ServedAtOnce (G : Guards) (size pageAlign : Nat) (k : Kernel) : Prop :=
  ∃ it, Kernel.findSmallestHole (size + 20) pageAlign k = some it ∧ G.carve size pageAlign it k

/-- Every page table that the page loop of `expand` has to make, it gets from a hole at once. -/
def TablesOk (G : Guards) (alloc : Kernel.Allocator) (newSize : Nat) : Nat → Nat → Kernel → Prop
  | 0, _, _ => True
  | n + 1, it, k =>
      it < newSize →
        (Kernel.lookupPage (add32 k.heap.startAddress it) k = 0 → k.kheap ≠ 0 →
          ServedAtOnce G 0x1000 1 k) ∧
        ∀ page k1 k2, Kernel.getPage alloc (add32 k.heap.startAddress it) 1 k = .ok (page, k1) →
          Kernel.allocFrameAt page (if k1.heap.supervisor ≠ 0 then 1 else 0)
            (if k1.heap.readonly ≠ 0 then 0 else 1) k1 = .ok k2 →
          TablesOk G alloc newSize n (add32 it 0x1000) k2

/-- The size that `expand` rounds the request of `alloc` to. -/
def expandedSize (size : Nat) (k : Kernel) : Nat :=
  Kernel.nextPage (add32 (sub32 k.heap.endAddress k.heap.startAddress) (size + 20))

/-- The call stays within the guards. The retry after an expansion is a call like the first. -/
def AllocOk (G : Guards) : Nat → Nat → Nat → Kernel → Prop
  | 0, _, _, _ => True
  | fuel + 1, size, pageAlign, k =>
      (∀ it, Kernel.findSmallestHole (size + 20) pageAlign k = some it →
        G.carve size pageAlign it k) ∧
      (Kernel.findSmallestHole (size + 20) pageAlign k = none →
        let oldLen := sub32 k.heap.endAddress k.heap.startAddress
        (oldLen < expandedSize size k ∧
          k.heap.startAddress + expandedSize size k < 4294967296) ∧
        G.expand size k ∧ TablesOk G (Kernel.alloc fuel) (expandedSize size k)
            (expandedSize size k / 0x1000 + 1)
          oldLen k ∧
        ∀ k1, Kernel.expand (Kernel.alloc fuel) (add32 oldLen (size + 20)) k = .ok k1 →
          G.grow k.heap.endAddress k1 ∧
            AllocOk G fuel size pageAlign (Kernel.growHoles oldLen k.heap.endAddress k1))

/-! ### Checking the guards -/

class Guards.Checked (G : Guards) where
  carve : ∀ size pageAlign it k, Decidable (G.carve size pageAlign it k)
  expand : ∀ size k, Decidable (G.expand size k)
  grow : ∀ oldEnd k, Decidable (G.grow oldEnd k)
  free : ∀ head k, Decidable (G.free head k)

section Checked

instance (endAddr : Nat) (k : Kernel) : Decidable (LastHoleAtEnd endAddr k) := by
  unfold LastHoleAtEnd
  infer_instance

instance : heapGuards.Checked where
  carve := fun size pageAlign it k => inferInstanceAs (Decidable (CarveOk size pageAlign it k))
  expand := fun _ _ => .isTrue trivial
  grow := fun _ _ => inferInstanceAs (Decidable (_ ∧ (_ → _)))
  free := fun head k => inferInstanceAs (Decidable (FreeOk head k))

variable (G : Guards) [G.Checked]

instance (size pageAlign it : Nat) (k : Kernel) : Decidable (G.carve size pageAlign it k) :=
  Guards.Checked.carve size pageAlign it k

instance (size : Nat) (k : Kernel) : Decidable (G.expand size k) :=
  Guards.Checked.expand size k

instance (oldEnd : Nat) (k : Kernel) : Decidable (G.grow oldEnd k) :=
  Guards.Checked.grow oldEnd k

instance (head : Nat) (k : Kernel) : Decidable (G.free head k) :=
  Guards.Checked.free head k

instance (size pageAlign : Nat) (k : Kernel) : Decidable (ServedAtOnce G size pageAlign k) :=
  inferInstanceAs (Decidable (∃ _, _ ∧ _))

instance TablesOk.decidable (alloc : Kernel.Allocator) (newSize : Nat) :
    ∀ n it k, Decidable (TablesOk G alloc newSize n it k)
  | 0, _, _ => .isTrue trivial
  | n + 1, it, k =>
    have := TablesOk.decidable alloc newSize n (add32 it 0x1000)
    decidable_of_iff (it < newSize →
      (Kernel.lookupPage (add32 k.heap.startAddress it) k = 0 → k.kheap ≠ 0 →
        ServedAtOnce G 0x1000 1 k) ∧
      ∀ r, Kernel.getPage alloc (add32 k.heap.startAddress it) 1 k = .ok r →
        ∀ k2, Kernel.allocFrameAt r.1 (if r.2.heap.supervisor ≠ 0 then 1 else 0)
          (if r.2.heap.readonly ≠ 0 then 0 else 1) r.2 = .ok k2 →
          TablesOk G alloc newSize n (add32 it 0x1000) k2)
      ⟨fun h hlt => ⟨(h hlt).1, fun page k1 k2 hget => (h hlt).2 (page, k1) hget k2⟩,
        fun h hlt => ⟨(h hlt).1, fun r hget k2 => (h hlt).2 r.1 r.2 k2 hget⟩⟩

instance AllocOk.decidable :
    ∀ fuel size pageAlign k, Decidable (AllocOk G fuel size pageAlign k)
  | 0, _, _, _ => .isTrue trivial
  | fuel + 1, size, pageAlign, _ =>
    have := AllocOk.decidable fuel size pageAlign
    inferInstanceAs (Decidable (_ ∧ (_ → (_ ∧ _) ∧ _ ∧ _ ∧ ∀ k1, _ = Except.ok k1 → _ ∧ _)))

end Checked

section Mono

variable {G G' : Guards} (hcarve : ∀ size pageAlign it k, G'.carve size pageAlign it k →
  G.carve size pageAlign it k)

include hcarve

theorem TablesOk.mono {alloc : Kernel.Allocator} {newSize n it : Nat} {k : Kernel}
    (h : TablesOk G' alloc newSize n it k) : TablesOk G alloc newSize n it k := by
  induction n generalizing it k with
  | zero => trivial
  | succ n ih =>
      intro hlt
      obtain ⟨htable, hrest⟩ := h hlt
      refine ⟨fun hnone hkheap => ?_, fun page k1 k2 hget hframe => ih
          (hrest page k1 k2 hget hframe)⟩
      obtain ⟨it, hfind, hok⟩ := htable hnone hkheap
      exact ⟨it, hfind, hcarve _ _ _ _ hok⟩

theorem AllocOk.mono (hexpand : ∀ size k, G'.expand size k → G.expand size k)
    (hgrow : ∀ oldEnd k, G'.grow oldEnd k → G.grow oldEnd k) {fuel size pageAlign : Nat}
    {k : Kernel} (h : AllocOk G' fuel size pageAlign k) : AllocOk G fuel size pageAlign k := by
  induction fuel generalizing k with
  | zero => trivial
  | succ fuel ih =>
      obtain ⟨hfound, hnone⟩ := h
      refine ⟨fun it hit => hcarve _ _ _ _ (hfound it hit), fun hfind => ?_⟩
      obtain ⟨hwrap, hspace, htables, hrest⟩ := hnone hfind
      exact ⟨hwrap, hexpand _ _ hspace, htables.mono hcarve, fun k1 hk1 =>
        ⟨hgrow _ _ (hrest k1 hk1).1, ih (hrest k1 hk1).2⟩⟩

end Mono

/-! ### The pieces of `expand` -/

section Pieces

variable {k k1 k' : Kernel} {page isSuper isWrite newSize : Nat}

theorem allocFrameAt_eq (h : Kernel.allocFrameAt page isSuper isWrite k = .ok k') :
    k'.mem = k.mem ∧ k'.heap = k.heap := by
  unfold Kernel.allocFrameAt at h
  simp only [bind_eq_ok, Except.ok.injEq] at h
  obtain ⟨r, -, rfl⟩ := h
  exact ⟨rfl, rfl⟩

theorem installTable_mem (tableIdx table tmp : Nat) (k : Kernel) :
    (Kernel.installTable tableIdx table tmp k).mem = k.mem := rfl

theorem installTable_heap (tableIdx table tmp : Nat) (k : Kernel) :
    (Kernel.installTable tableIdx table tmp k).heap = k.heap := rfl

theorem expand_eq {alloc : Kernel.Allocator} (h : Kernel.expand alloc newSize k = .ok k1) :
    sub32 k.heap.endAddress k.heap.startAddress < newSize ∧
      add32 k.heap.startAddress (Kernel.nextPage newSize) ≤ k.heap.maxAddress ∧ ∃ k2,
      Kernel.expandLoop alloc (Kernel.nextPage newSize) (Kernel.nextPage newSize / 0x1000 + 1)
        (sub32 k.heap.endAddress k.heap.startAddress) k = .ok k2 ∧
      k1 = withEnd (add32 k2.heap.startAddress (Kernel.nextPage newSize)) k2 := by
  unfold Kernel.expand at h
  simp only [bind_eq_ok, assertThat_eq_ok, decide_eq_true_eq, Except.ok.injEq] at h
  obtain ⟨-, hlt, -, hmax, k2, hloop, hk1⟩ := h
  exact ⟨hlt, hmax, k2, hloop, hk1.symm⟩

theorem le_nextPage {x : Nat} (hx : x < 4294967296) (hpos : 0 < Kernel.nextPage x) :
    x ≤ Kernel.nextPage x := by
  unfold Kernel.nextPage at hpos ⊢
  split at hpos
  · rename_i hmask
    rw [if_pos hmask]
    rw [and_highMask hx] at hpos ⊢
    unfold add32 at hpos ⊢
    omega
  · rename_i hmask
    rw [if_neg hmask]

end Pieces

/-! ### The rule for `alloc` -/

section Rule

/-- What an invariant has to keep for `alloc` to keep it: page tables and frames do not matter to
it, and carving and growing, within the guards, preserve it. -/
structure Kept (G : Guards) (inv : Kernel → Prop) : Prop where
  bounds : ∀ k, inv k → k.heap.startAddress ≤ k.heap.endAddress ∧ k.heap.endAddress < 4294967296
  congr : ∀ k k', inv k → k'.mem = k.mem → k'.heap = k.heap → inv k'
  carve : ∀ k size pageAlign it, inv k → size + 20 < 4294967296 →
    Kernel.findSmallestHole (size + 20) pageAlign k = some it → G.carve size pageAlign it k →
      inv (Kernel.carveBlock it size (size + 20) pageAlign k).2
  grow : ∀ k newEnd, inv k → k.heap.endAddress + 20 ≤ newEnd → newEnd < 4294967296 →
    G.grow k.heap.endAddress (withEnd newEnd k) →
      inv (Kernel.growHoles (sub32 k.heap.endAddress k.heap.startAddress) k.heap.endAddress
        (withEnd newEnd k))

variable {G : Guards} {inv : Kernel → Prop} {k k' : Kernel}
  {fuel size pageAlign newSize n it p : Nat}

theorem Kept.getPage (hkept : Kept G inv) (hinv : inv k) {address page : Nat}
    (hok : Kernel.lookupPage address k = 0 → k.kheap ≠ 0 → ServedAtOnce G 0x1000 1 k)
    (hget : Kernel.getPage (Kernel.alloc fuel) address 1 k = .ok (page, k')) :
    inv k' ∧ k'.heap.startAddress = k.heap.startAddress ∧
      k'.heap.endAddress = k.heap.endAddress := by
  unfold Kernel.getPage at hget
  by_cases hpresent : Kernel.lookupPage address k ≠ 0
  · rw [if_pos hpresent] at hget
    obtain ⟨-, rfl⟩ := Prod.mk.inj (Except.ok.inj hget)
    exact ⟨hinv, rfl, rfl⟩
  · rw [if_neg hpresent, if_pos Nat.one_ne_zero] at hget
    unfold Kernel.kmallocAp Kernel.kmallocInt at hget
    by_cases hkheap : k.kheap ≠ 0
    · obtain ⟨it, hfind, hcarve⟩ := hok (not_not.mp hpresent) hkheap
      cases fuel with
      | zero => simp [hkheap, Kernel.alloc, bind, Except.bind] at hget
      | succ fuel =>
          rw [if_pos hkheap, show 1 % 256 = 1 from rfl,
            alloc_of_find fuel (by decide) hfind] at hget
          simp only [bind, Except.bind, if_true, Except.ok.injEq, Prod.mk.injEq] at hget
          obtain ⟨-, rfl⟩ := hget
          have hcarved := hkept.carve k 0x1000 1 it hinv (by decide) hfind hcarve
          refine ⟨hkept.congr _ _ hcarved (installTable_mem _ _ _ _) (installTable_heap _ _ _ _),
              ?_⟩
          rw [installTable_heap]
          exact ⟨carveBlock_startAddress _ _ _ _ _, carveBlock_endAddress _ _ _ _ _⟩
    · rw [if_neg hkheap] at hget
      simp only [bind, Except.bind, if_true, Except.ok.injEq, Prod.mk.injEq] at hget
      obtain ⟨-, rfl⟩ := hget
      refine ⟨hkept.congr _ _ hinv (installTable_mem _ _ _ _) (installTable_heap _ _ _ _), ?_⟩
      rw [installTable_heap]
      exact ⟨rfl, rfl⟩

theorem Kept.expandLoop (hkept : Kept G inv) (hinv : inv k)
    (hok : TablesOk G (Kernel.alloc fuel) newSize n it k)
    (hloop : Kernel.expandLoop (Kernel.alloc fuel) newSize n it k = .ok k') :
    inv k' ∧ k'.heap.startAddress = k.heap.startAddress ∧
      k'.heap.endAddress = k.heap.endAddress := by
  induction n generalizing it k with
  | zero =>
      obtain rfl := Except.ok.inj hloop
      exact ⟨hinv, rfl, rfl⟩
  | succ n ih =>
      rw [Kernel.expandLoop] at hloop
      rw [TablesOk] at hok
      split at hloop
      · rename_i hlt
        obtain ⟨htable, hrest⟩ := hok hlt
        simp only [bind_eq_ok] at hloop
        obtain ⟨⟨page, k1⟩, hget, k2, hframe, hloop⟩ := hloop
        obtain ⟨hinv1, hstart1, hend1⟩ := hkept.getPage hinv htable hget
        obtain ⟨hmem, hheap⟩ := allocFrameAt_eq hframe
        obtain ⟨hinv', hstart', hend'⟩ :=
          ih (hkept.congr _ _ hinv1 hmem hheap) (hrest page k1 k2 hget hframe) hloop
        rw [hheap] at hstart' hend'
        exact ⟨hinv', hstart'.trans hstart1, hend'.trans hend1⟩
      · obtain rfl := Except.ok.inj hloop
        exact ⟨hinv, rfl, rfl⟩

theorem Kept.expandAndGrow (hkept : Kept G inv) (hinv : inv k) (hsize : size + 20 < 4294967296)
    (hgrows : sub32 k.heap.endAddress k.heap.startAddress < expandedSize size k)
    (hfits : k.heap.startAddress + expandedSize size k < 4294967296)
    (htables : TablesOk G (Kernel.alloc fuel) (expandedSize size k)
      (expandedSize size k / 0x1000 + 1) (sub32 k.heap.endAddress k.heap.startAddress) k)
    {k1 : Kernel} (hk1 : Kernel.expand (Kernel.alloc fuel)
      (add32 (sub32 k.heap.endAddress k.heap.startAddress) (size + 20)) k = .ok k1)
    (hgrow : G.grow k.heap.endAddress k1) :
    inv (Kernel.growHoles (sub32 k.heap.endAddress k.heap.startAddress) k.heap.endAddress k1) := by
  obtain ⟨hmore, -, k2, hloop, hk1eq⟩ := expand_eq hk1
  obtain ⟨hinv2, hstart2, hend2⟩ := hkept.expandLoop hinv htables hloop
  obtain ⟨hle, hlt⟩ := hkept.bounds k hinv
  -- the old end and the new one, without wrapping
  have hlen : sub32 k.heap.endAddress k.heap.startAddress =
      k.heap.endAddress - k.heap.startAddress := sub32_eq hle hlt
  have hge := le_nextPage (add32_lt _ _) (Nat.lt_of_le_of_lt (Nat.zero_le _) hgrows)
  have hplus : add32 (sub32 k.heap.endAddress k.heap.startAddress) (size + 20) =
      k.heap.endAddress - k.heap.startAddress + (size + 20) := by
    rw [hlen] at hmore ⊢
    unfold add32 at hmore ⊢
    omega
  have hfar : k.heap.endAddress + 20 ≤ k.heap.startAddress + expandedSize size k := by
    unfold expandedSize
    omega
  rw [hstart2, show Kernel.nextPage (add32 (sub32 k.heap.endAddress k.heap.startAddress)
    (size + 20)) = expandedSize size k from rfl, add32_eq hfits] at hk1eq
  rw [← hend2] at hfar
  have hgrown := hkept.grow k2 _ hinv2 hfar hfits (by rw [hend2, ← hk1eq]; exact hgrow)
  rwa [hstart2, hend2, ← hk1eq] at hgrown

/-- **The rule for `alloc`.** An invariant that carving and growing keep holds in the state in which
the returned block is cut from a hole. -/
theorem Kept.alloc (hkept : Kept G inv) (hinv : inv k) (hsize : size + 20 < 4294967296)
    (hok : AllocOk G fuel size pageAlign k)
    (halloc : Kernel.alloc fuel size pageAlign k = .ok (p, k')) :
    ∃ k1 it, inv k1 ∧ Kernel.findSmallestHole (size + 20) pageAlign k1 = some it ∧
      G.carve size pageAlign it k1 ∧
      (p, k') = Kernel.carveBlock it size (size + 20) pageAlign k1 := by
  induction fuel generalizing k with
  | zero => simp [Kernel.alloc] at halloc
  | succ fuel ih =>
      obtain ⟨hcarve, hexpand⟩ := hok
      have hnew : add32 size (sizeofHeader + sizeofFooter) = size + 20 := add32_eq hsize
      cases hfind : Kernel.findSmallestHole (size + 20) pageAlign k with
      | some it =>
          rw [alloc_of_find fuel hsize hfind] at halloc
          exact ⟨k, it, hinv, hfind, hcarve it hfind, (Except.ok.inj halloc).symm⟩
      | none =>
          obtain ⟨⟨hgrows, hfits⟩, -, htables, hrest⟩ := hexpand hfind
          rw [Kernel.alloc] at halloc
          simp only [hnew, hfind, bind_eq_ok] at halloc
          obtain ⟨k1, hk1, halloc⟩ := halloc
          obtain ⟨hgrow, hretry⟩ := hrest k1 hk1
          exact ih (hkept.expandAndGrow hinv hsize hgrows hfits htables hk1 hgrow) hretry halloc

end Rule

/-! ### Every call of `alloc` -/

section Alloc

variable {k k1 k' : Kernel} {cs : List Chunk} {fuel size pageAlign newEnd p : Nat}

theorem Grown.serves (h : Grown k cs newEnd k1) (hle : k.heap.endAddress ≤ newEnd) :
    ∃ cs1, Serves k cs k1 cs1 [] := by
  obtain ⟨left, last, rfl, hlast, hwf, hsame, -, -, -, hstart, hend⟩ := h
  have hnone : ∀ x, blocks x last = [] := by
    intro x
    rcases hlast with rfl | ⟨s, rfl⟩ <;> simp
  refine ⟨_, hwf, hstart, by rw [hend]; exact hle, ?_, ?_⟩
  · simp [hnone]
  · rintro ⟨x, t⟩ hx
    rw [blocks_append, hnone, List.append_nil] at hx
    obtain ⟨l, r, hl, rfl⟩ := mem_blocks_iff.mp hx
    have htotal := congrArg (total Chunk.size) hl
    simp only [total_append, total_cons] at htotal
    exact hsame.mono (by simp only; omega) (by simp only; omega)

theorem kept_serves (k : Kernel) (cs : List Chunk) :
    Kept heapGuards fun k' => ∃ cs' new, Serves k cs k' cs' new where
  bounds := by
    rintro k' ⟨cs', new, hserves⟩
    have htiles := hserves.wellFormed.tiles
    exact ⟨by omega, hserves.wellFormed.end_lt⟩
  congr := by
    rintro k1 k2 ⟨cs', new, hserves⟩ hmem hheap
    exact ⟨cs', new, hserves.congr hmem hheap⟩
  carve := by
    rintro k1 size pageAlign it ⟨cs1, new, hserves⟩ - hfind hcarve
    obtain ⟨cs', head, b, hserves', -⟩ := carveBlock_serves hserves.wellFormed hfind hcarve
    exact ⟨cs', _, hserves.trans hserves'⟩
  grow := by
    rintro k1 newEnd ⟨cs1, new, hserves⟩ hmore hlt ⟨hlast, hroom⟩
    obtain ⟨cs2, hserves2⟩ :=
      (growHoles_spec hserves.wellFormed hmore hlt hlast hroom).serves (by omega)
    exact ⟨cs2, _, hserves.trans hserves2⟩

/-- **Every call of `alloc`** within the guards adds the block it returns, and the blocks of the
page tables it needed, to a heap that stays well formed. -/
theorem alloc_serves (h : WellFormed k cs) (hsize : size + 20 < 4294967296)
    (hok : AllocOk heapGuards fuel size pageAlign k)
    (halloc : Kernel.alloc fuel size pageAlign k = .ok (p, k')) :
    ∃ cs' head b new, p = head + 12 ∧ size + 20 ≤ b ∧ Serves k cs k' cs' ((head, b) :: new) := by
  obtain ⟨k1, it, ⟨cs1, new, hserves⟩, hfind, hcarve, hres⟩ :=
    (kept_serves k cs).alloc ⟨cs, [], Serves.refl h⟩ hsize hok halloc
  obtain ⟨cs', head, b, hserves', haddr, hb⟩ := carveBlock_serves hserves.wellFormed hfind hcarve
  rw [← hres] at hserves' haddr
  exact ⟨cs', head, b, new, haddr, hb, hserves.trans hserves'⟩

end Alloc

end Vulcanos
