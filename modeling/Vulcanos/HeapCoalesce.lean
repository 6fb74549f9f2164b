import Vulcanos.Proof.Merge
import Vulcanos.HeapGrowth

/-!
# Freeing a block inside the heap

A block that is freed becomes one hole with the holes next to it, and the hole should have its own
footer in its last bytes, since left unify will look for it there. The footer that `free` finds
behind a hole on the right is that hole's, and it stays as it is.
-/

namespace Vulcanos

open Memory Word Layout

/-- The heap `k'` is the heap `k` with the block of `s` bytes and the holes next to it made one
hole, header and footer included. The other chunks are as they were. -/
structure Coalesced (k : Kernel) (left lh : List Chunk) (s : Nat) (rh right : List Chunk)
    (k' : Kernel) : Prop where
  start : k'.heap.startAddress = k.heap.startAddress
  tiled : Tiled k' (left ++ ⟨total Chunk.size lh + s + total Chunk.size rh, true⟩ :: right)
  footer : FooterAt k'.mem
    (k.heap.startAddress + total Chunk.size left +
      (total Chunk.size lh + s + total Chunk.size rh) - 8)
    (k.heap.startAddress + total Chunk.size left)
  before : SameOn k.heap.startAddress (k.heap.startAddress + total Chunk.size left) k.mem k'.mem
  behind : SameOn (k.heap.startAddress + total Chunk.size left +
    (total Chunk.size lh + s + total Chunk.size rh)) k.heap.endAddress k.mem k'.mem

/-- When `free` makes the hole as it should be: no hole stands behind the block, in front of the
heap nothing looks like a hole's footer, and a new entry of the index does not reach the heap. -/
structure CoalesceOk (k : Kernel) (left lh rh : List Chunk) : Prop where
  behind : rh = []
  front : left ++ lh = [] →
    ¬ UnifiesFront (markHole k.heap.startAddress k.mem) k.heap.startAddress
  slot : lh = [] → SlotFree k

section Coalesce

variable {k k' k2 : Kernel} {left lh rh right cs : List Chunk} {s : Nat}

theorem length_holes (a : Nat) (cs : List Chunk) :
    (holes a cs).length = cs.countP Chunk.hole := by
  induction cs generalizing a with
  | nil => rfl
  | cons c cs ih =>
      rw [holes_cons, List.length_append, ih, List.countP_cons, Nat.add_comm]
      cases c.hole <;> rfl

theorem Tiled.size_eq (h : Tiled k cs) : k.heap.index.size = cs.countP Chunk.hole := by
  rw [← OrderedArray.length_entries k.heap.index k.mem, ← length_holes k.heap.startAddress]
  exact h.index.length_eq

/-! ### What only takes entries out -/

theorem rightUnify_entries {f f' : Kernel.Freeing} (h : Kernel.rightUnify f = .ok f') :
    f'.addToFreeHole = f.addToFreeHole ∧
      (f' = f ∧ ¬ UnifiesRight f.kernel.mem (add32 f.foot sizeofFooter) ∨
        f'.kernel.heap.index.size + 1 = f.kernel.heap.index.size) := by
  by_cases hunifies : UnifiesRight f.kernel.mem (add32 f.foot sizeofFooter)
  · have hcond : headerMagic f.kernel.mem (add32 f.foot sizeofFooter) = heapMagic ∧
        headerIsHole f.kernel.mem (add32 f.foot sizeofFooter) ≠ 0 := hunifies
    unfold Kernel.rightUnify at h
    simp only [if_pos hcond, bind_eq_ok, assertThat_eq_ok, decide_eq_true_eq, Except.ok.injEq] at h
    generalize write32 _ _ _ = m1 at h
    obtain ⟨kw, hkw⟩ : ∃ kw : Kernel, kw = { f.kernel with mem := m1 } := ⟨_, rfl⟩
    have hheap : kw.heap = f.kernel.heap := by rw [hkw]
    rw [← hkw, ← hheap] at h
    obtain ⟨-, hlt, rfl⟩ := h
    refine ⟨rfl, Or.inr ?_⟩
    rw [removeHole_heap, ← hheap]
    exact Nat.sub_add_cancel (Nat.one_le_of_lt hlt)
  · have hcond : ¬ (headerMagic f.kernel.mem (add32 f.foot sizeofFooter) = heapMagic ∧
        headerIsHole f.kernel.mem (add32 f.foot sizeofFooter) ≠ 0) := hunifies
    unfold Kernel.rightUnify at h
    simp only [if_neg hcond, Except.ok.injEq] at h
    exact ⟨by rw [h], Or.inl ⟨h.symm, hunifies⟩⟩

theorem contract_index {newSize n : Nat} (h : Kernel.contract newSize k = .ok (n, k')) :
    k'.heap.index = k.heap.index := by
  unfold Kernel.contract at h
  simp only [bind_eq_ok, Except.ok.injEq, Prod.mk.injEq] at h
  obtain ⟨-, -, -, rfl⟩ := h
  rw [(contractLoop_eq _ _ _ _).2]

theorem contractHeap_entries {f f' : Kernel.Freeing} {testHead : Nat}
    (h : Kernel.contractHeap testHead f = .ok f') :
    f'.addToFreeHole = f.addToFreeHole ∧
      f'.kernel.heap.index.size ≤ f.kernel.heap.index.size := by
  obtain ⟨head, foot, testFoot, add, k⟩ := f
  obtain ⟨head', foot', testFoot', add', k'⟩ := f'
  by_cases hend : add32 foot sizeofFooter = k.heap.endAddress
  · unfold Kernel.contractHeap at h
    simp only [if_pos hend, bind_eq_ok] at h
    obtain ⟨⟨newLen, k1⟩, hcontract, h⟩ := h
    have hindex := contract_index hcontract
    dsimp only
    rw [← hindex]
    split at h
    · simp only [Except.ok.injEq, Kernel.Freeing.mk.injEq] at h
      obtain ⟨-, -, -, hadd, hk⟩ := h
      rw [← hk, withMem_heap]
      exact ⟨hadd.symm, Nat.le_refl _⟩
    · simp only [Except.ok.injEq, Kernel.Freeing.mk.injEq] at h
      obtain ⟨-, -, -, hadd, hk⟩ := h
      rw [← hk]
      refine ⟨hadd.symm, ?_⟩
      split
      · rw [removeHole_heap]
        exact Nat.sub_le _ _
      · exact Nat.le_refl _
  · unfold Kernel.contractHeap at h
    simp only [if_neg hend, Except.ok.injEq] at h
    rw [h]
    exact ⟨rfl, Nat.le_refl _⟩

/-! ### What goes wrong -/

theorem leftUnify_front (foot : Nat) {head : Nat}
    (hfront : UnifiesFront (markHole head k.mem) head) :
    ∃ hd v, Kernel.leftUnify head foot { k with mem := markHole head k.mem } =
      ⟨hd, foot, sub32 head sizeofFooter, false,
        { k with mem := write32 (write32 (markHole head k.mem) (foot + 4) hd) (hd + 8) v }⟩ := by
  have hcond : footerMagic (markHole head k.mem) (sub32 head sizeofFooter) = heapMagic ∧
      headerIsHole (markHole head k.mem)
        (footerHeader (markHole head k.mem) (sub32 head sizeofFooter)) = 1 := hfront
  unfold Kernel.leftUnify
  simp only [if_pos hcond]
  exact ⟨_, _, rfl⟩

/-- One word is stored over the header behind the block or over the block's own, not over both. -/
theorem headerSize_of_damaged {a r hd v : Nat} (hchunk : ChunkAt k.mem a ⟨s, false⟩)
    (hmin : 20 ≤ s) (hnext : HeaderAt k.mem (a + s) true r)
    (hdamaged : ¬ UnifiesRight
      (write32 (write32 (markHole a k.mem) (a + s - 8 + 4) hd) (hd + 8) v) (a + s)) :
    headerSize (write32 (write32 (markHole a k.mem) (a + s - 8 + 4) hd) (hd + 8) v) a = s := by
  have hsame1 : SameOutside (a + 4) (a + s) k.mem
      (write32 (markHole a k.mem) (a + s - 8 + 4) hd) :=
    ((markHole_sameOutside a k.mem).mono (Nat.le_refl _) (by omega)).write32 (by omega) (by omega)
  have hsame2 : SameOutside (hd + 8) (hd + 12)
      (write32 (markHole a k.mem) (a + s - 8 + 4) hd)
      (write32 (write32 (markHole a k.mem) (a + s - 8 + 4) hd) (hd + 8) v) :=
    (SameOutside.refl _ _ _).write32 (Nat.le_refl _) (by omega)
  have hnear : a + s < hd + 12 := by
    by_contra hcon
    have hkept := hnext.frame ((hsame1.sameOn (Or.inr (Nat.le_refl _))).trans
      (hsame2.sameOn (Or.inr (by omega))))
    exact hdamaged ⟨hkept.magic, by rw [hkept.isHole]; decide⟩
  have hmark : SameOn (a + 8) (a + 12) k.mem (markHole a k.mem) :=
    (markHole_sameOutside a k.mem).sameOn (Or.inr (by omega))
  have hback : SameOn (a + 8) (a + 12) (markHole a k.mem)
      (write32 (markHole a k.mem) (a + s - 8 + 4) hd) :=
    ((SameOutside.refl (a + s - 4) (a + s) _).write32 (by omega) (by omega)).sameOn
      (Or.inl (by omega))
  have hfields := (hmark.trans hback).trans (hsame2.sameOn (Or.inl (by omega)))
  calc headerSize (write32 (write32 (markHole a k.mem) (a + s - 8 + 4) hd) (hd + 8) v) a
      = headerSize k.mem a := hfields.read32 (Nat.le_refl _) (by omega)
    _ = s := hchunk.header.size

/-- When left unify takes the first chunk's bytes for whatever lies in front of the heap, the hole
that the block becomes is not listed, or it does not have the bytes of the hole behind it. -/
theorem not_coalesced_of_front (h : Tiled k (⟨s, false⟩ :: (rh ++ right)))
    (hrh : rh = [] ∨ ∃ r, rh = [⟨r, true⟩])
    (hfront : UnifiesFront (markHole k.heap.startAddress k.mem) k.heap.startAddress) :
    ¬ ∃ k', Kernel.free (k.heap.startAddress + 12) k = .ok k' ∧
      Coalesced k [] [] s rh right k' := by
  rintro ⟨k', hfree, hcoalesced⟩
  have hcount := h.size_eq
  have hcount' := hcoalesced.tiled.size_eq
  have hlt := h.end_lt
  have htiles := h.tiles
  have hmins := h.minSize ⟨s, false⟩ (by simp)
  have hfirst : Tiled k ([] ++ ⟨s, false⟩ :: (rh ++ right)) := h
  have hchunk := hfirst.chunkAt
  simp only [total_cons, total_append, total_nil, Nat.add_zero] at htiles hmins hchunk
  rw [free_steps hfirst (by simp)] at hfree
  obtain ⟨a, ha⟩ : ∃ a, a = k.heap.startAddress := ⟨_, rfl⟩
  rw [← ha] at hfront hfree htiles hchunk
  obtain ⟨hd, v, hleft⟩ := leftUnify_front (a + s - 8) hfront
  obtain ⟨m3, hm3⟩ : ∃ m3, m3 =
    write32 (write32 (markHole a k.mem) (a + s - 8 + 4) hd) (hd + 8) v := ⟨_, rfl⟩
  rw [← hm3] at hleft
  rw [hleft] at hfree
  simp only [bind_eq_ok, Except.ok.injEq] at hfree
  obtain ⟨f1, hright, f2, hcontract, hk'⟩ := hfree
  obtain ⟨hadd1, hentries1⟩ := rightUnify_entries hright
  obtain ⟨hadd2, hentries2⟩ := contractHeap_entries hcontract
  rw [hadd1] at hadd2
  rw [hadd2, if_neg (by simp)] at hk'
  rw [hk'] at hentries2
  simp only [List.nil_append, List.countP_cons, List.countP_append, Bool.false_eq_true, if_false,
    if_true] at hentries1 hcount hcount'
  rcases hrh with rfl | ⟨r, rfl⟩
  · -- one hole more, and no entry for it
    simp only [List.countP_nil] at hcount
    rcases hentries1 with ⟨hf1, -⟩ | hless
    · rw [hf1] at hentries2
      simp only at hentries2
      omega
    · omega
  · have hminr := h.minSize ⟨r, true⟩ (by simp)
    simp only [List.countP_cons, List.countP_nil, if_true, total_cons, total_nil,
      Nat.add_zero] at hcount htiles hminr
    rcases hentries1 with ⟨hf1, hnot⟩ | hless
    · -- the header behind the block is damaged, so the block's own is not
      have hfoot : add32 (a + s - 8) sizeofFooter = a + s := by
        unfold sizeofFooter
        rw [add32_eq (by omega)]
        omega
      rw [hf1] at hcontract
      rw [contractHeap_not (by rw [hfoot]; simp only; omega)] at hcontract
      rw [← Except.ok.inj hcontract] at hk'
      simp only [hfoot] at hnot
      simp only at hk'
      have hmem : k'.mem = m3 := by rw [← hk']
      have hnext : HeaderAt k.mem (a + s) true r := by
        have hsplit : Tiled k ([⟨s, false⟩] ++ ⟨r, true⟩ :: right) := h
        have hbehind := hsplit.chunkAt.header
        rw [← ha] at hbehind
        simpa using hbehind
      have hsize : headerSize m3 a = s := by
        rw [hm3] at hnot ⊢
        exact headerSize_of_damaged hchunk (by omega) hnext hnot
      have hmerged := (show Tiled k' ([] ++ ⟨total Chunk.size [] + s + total Chunk.size
        [⟨r, true⟩], true⟩ :: right) from hcoalesced.tiled).chunkAt.header.size
      rw [hcoalesced.start, ← ha, hmem] at hmerged
      simp only [total_nil, total_cons, Nat.add_zero] at hmerged
      omega
    · omega

/-- Behind the merged hole stands the footer of the hole that was there, and it points to that
hole's header. -/
theorem not_coalesced_of_behind {r : Nat}
    (h : Tiled k (left ++ lh ++ ⟨s, false⟩ :: ([⟨r, true⟩] ++ right)))
    (hnext : Neighbours left lh [⟨r, true⟩] right)
    (hfeet : Footed k (left ++ lh ++ ⟨s, false⟩ :: ([⟨r, true⟩] ++ right)))
    (hfront : left ++ lh = [] →
      ¬ UnifiesFront (markHole k.heap.startAddress k.mem) k.heap.startAddress) :
    ¬ ∃ k', Kernel.free (k.heap.startAddress + total Chunk.size (left ++ lh) + 12) k = .ok k' ∧
      Coalesced k left lh s [⟨r, true⟩] right k' := by
  rintro ⟨k', hfree, hcoalesced⟩
  obtain ⟨left', lh', rh', right', k2, hrel⟩ :=
    free_releases h (by simp) hfront fun _ _ hleft => hfeet.inFront hleft
  obtain ⟨rfl, rfl, rfl, rfl⟩ := hrel.neighbours hnext
  rw [hrel.call] at hfree
  obtain rfl := Except.ok.inj hfree
  have htiles := h.tiles
  have hmins := h.minSize ⟨s, false⟩ (by simp)
  have hminr := h.minSize ⟨r, true⟩ (by simp)
  have hold := hfeet (k.heap.startAddress + total Chunk.size (left' ++ lh' ++ [⟨s, false⟩]),
    ⟨r, true⟩) ((mem_layout_iff Chunk.size).mpr
      ⟨left' ++ lh' ++ [⟨s, false⟩], right', by simp, rfl⟩)
  have hkept := hrel.gathered.sameRight.trans
    ((hrel.gathered.finish_sameOn h (by simp)).mono (by omega) (Nat.le_refl _))
  have hfooter := hcoalesced.footer
  simp only [total_append, total_cons, total_nil, Nat.add_zero] at htiles hmins hminr hold hfooter
  have hfooter' := hold.frame (hkept.mono (by omega) (by omega))
  rw [show k.heap.startAddress + (total Chunk.size left' + total Chunk.size lh' + s) + r - 8 =
    k.heap.startAddress + total Chunk.size left' + (total Chunk.size lh' + s + r) - 8 by omega]
    at hfooter'
  have hheader := hfooter.header.symm.trans hfooter'.header
  omega

/-! ### The result -/

/-- **Freeing a block inside the heap** makes it and the holes next to it one hole, with a footer of
its own, exactly when no hole stands behind the block. In front of the heap there must be nothing
that looks like a hole's footer, and the index must have a slot for the hole if it is new. -/
theorem free_coalesced_iff (h : Tiled k (left ++ lh ++ ⟨s, false⟩ :: (rh ++ right)))
    (hfeet : Footed k (left ++ lh ++ ⟨s, false⟩ :: (rh ++ right)))
    (hnext : Neighbours left lh rh right) (hinside : rh ++ right ≠ []) :
    (∃ k', Kernel.free (k.heap.startAddress + total Chunk.size (left ++ lh) + 12) k = .ok k' ∧
        Coalesced k left lh s rh right k') ↔
      CoalesceOk k left lh rh := by
  constructor
  · intro hex
    have hfront : left ++ lh = [] →
        ¬ UnifiesFront (markHole k.heap.startAddress k.mem) k.heap.startAddress := by
      intro hempty hunifies
      obtain ⟨rfl, rfl⟩ := List.append_eq_nil_iff.mp hempty
      have hrh : rh = [] ∨ ∃ r, rh = [⟨r, true⟩] := hnext.rightHole.imp_left And.left
      exact not_coalesced_of_front h hrh hunifies (by simpa using hex)
    have hbehind : rh = [] := by
      rcases hnext.rightHole with ⟨hrh, -⟩ | ⟨r, rfl⟩
      · exact hrh
      · exact absurd hex (not_coalesced_of_behind h hnext hfeet hfront)
    refine ⟨hbehind, hfront, fun hempty => ?_⟩
    -- the index that lists the new hole has its slots outside the heap
    obtain ⟨k', hfree, hcoalesced⟩ := hex
    obtain ⟨left', lh', rh', right', k2, hrel⟩ :=
      free_releases h hinside hfront fun _ _ hleft => hfeet.inFront hleft
    obtain ⟨rfl, rfl, rfl, rfl⟩ := hrel.neighbours hnext
    rw [hrel.call] at hfree
    obtain rfl := Except.ok.inj hfree
    have hapart := hcoalesced.tiled.apart
    unfold finishFree at hapart
    rw [if_pos hempty, insertHole_heap, hrel.gathered.heap, hbehind] at hapart
    exact hapart
  · rintro ⟨rfl, hfront, hslot⟩
    obtain ⟨left', lh', rh', right', k2, hrel⟩ :=
      free_releases h hinside hfront fun _ _ hleft => hfeet.inFront hleft
    obtain ⟨rfl, rfl, rfl, rfl⟩ := hrel.neighbours hnext
    have hgathered := hrel.gathered
    have htiles := h.tiles
    have hmins := h.minSize ⟨s, false⟩ (by simp)
    have hkept := hgathered.finish_sameOn h fun hempty _ => hslot hempty
    simp only [List.nil_append, total_append, total_cons] at htiles hmins
    obtain ⟨index, hheap⟩ :=
      finishFree_heap lh' (k.heap.startAddress + total Chunk.size left') k2
    refine ⟨_, hrel.call, ?_, hgathered.tiled h fun hempty _ => hslot hempty, ?_, ?_, ?_⟩
    · rw [hheap, hgathered.heap]
    · simp only [total_nil, Nat.add_zero]
      exact (hgathered.footer rfl).frame (hkept.mono (by omega) (by omega))
    · exact hgathered.sameLeft.trans (hkept.mono (Nat.le_refl _) (by omega))
    · simp only [total_nil, Nat.add_zero]
      exact hgathered.sameRight.trans (hkept.mono (by omega) (Nat.le_refl _))

end Coalesce

/-! ### A heap with a hole behind a block -/

/-- Three chunks: a block, a hole and a block. -/
def holeBehindMem : Mem :=
  write32
    (writeFooter (writeHeader
      (writeFooter (writeHeader
        (writeFooter (writeHeader (fun _ => 0) 0xC0081000 0 32) 0xC0081018 0xC0081000)
        0xC0081020 1 32) 0xC0081038 0xC0081020)
      0xC0081040 0 4032) 0xC0081FF8 0xC0081040)
    0xC0000000 0xC0081020

def holeBehindKernel : Kernel :=
  { bareKernel with
    mem := holeBehindMem
    kheap := 0x200000
    heap := ⟨⟨0xC0000000, 1, 0x20000⟩, 0xC0081000, 0xC0082000, 0xCFFFF000, 0, 0⟩ }

theorem holeBehindKernel_tiled : Tiled holeBehindKernel
    ([] ++ [] ++ ⟨32, false⟩ :: ([⟨32, true⟩] ++ [⟨4032, false⟩])) where
  end_lt := by decide
  tiles := by decide
  chunksAt := by
    refine chunksAt_cons.mpr ⟨⟨by decide, ?_, ?_⟩, chunksAt_cons.mpr ⟨⟨by decide, ?_, by simp⟩,
      chunksAt_cons.mpr ⟨⟨by decide, ?_, ?_⟩, chunksAt_nil⟩⟩⟩
    · exact ⟨by decide +kernel, by decide +kernel, by decide +kernel⟩
    · exact fun _ => ⟨by decide +kernel, by decide +kernel⟩
    · exact ⟨by decide +kernel, by decide +kernel, by decide +kernel⟩
    · exact ⟨by decide +kernel, by decide +kernel, by decide +kernel⟩
    · exact fun _ => ⟨by decide +kernel, by decide +kernel⟩
  index := by
    have hentries : holeBehindKernel.heap.index.entries holeBehindKernel.mem = [0xC0081020] := by
      decide +kernel
    rw [hentries]
    decide
  apart := Or.inl (by decide)

theorem holeBehindKernel_footed : Footed holeBehindKernel
    ([] ++ [] ++ ⟨32, false⟩ :: ([⟨32, true⟩] ++ [⟨4032, false⟩])) := by
  intro u hu
  simp only [List.nil_append, List.singleton_append, layout_cons, layout_nil, List.mem_cons,
    List.not_mem_nil, or_false] at hu
  rcases hu with rfl | rfl | rfl
  · exact ⟨by decide +kernel, by decide +kernel⟩
  · exact ⟨by decide +kernel, by decide +kernel⟩
  · exact ⟨by decide +kernel, by decide +kernel⟩

theorem free_coalesced_iff_holeBehindKernel :
    (∃ k', Kernel.free (holeBehindKernel.heap.startAddress + total Chunk.size ([] ++ []) + 12)
        holeBehindKernel = .ok k' ∧
        Coalesced holeBehindKernel [] [] 32 [⟨32, true⟩] [⟨4032, false⟩] k') ↔
      CoalesceOk holeBehindKernel [] [] [⟨32, true⟩] :=
  free_coalesced_iff holeBehindKernel_tiled holeBehindKernel_footed
    ⟨Or.inl ⟨rfl, by simp⟩, Or.inr ⟨32, rfl⟩⟩ (by simp)

/-- The merged hole has no footer that points to it. -/
theorem not_coalesced_of_footed : ¬ ∀ k left lh s rh right,
    Tiled k (left ++ lh ++ ⟨s, false⟩ :: (rh ++ right)) →
    Footed k (left ++ lh ++ ⟨s, false⟩ :: (rh ++ right)) → Neighbours left lh rh right →
    rh ++ right ≠ [] →
    ∃ k', Kernel.free (k.heap.startAddress + total Chunk.size (left ++ lh) + 12) k = .ok k' ∧
      Coalesced k left lh s rh right k' := by
  intro hall
  have hnext : Neighbours [] [] [⟨32, true⟩] [⟨4032, false⟩] :=
    ⟨Or.inl ⟨rfl, by simp⟩, Or.inr ⟨32, rfl⟩⟩
  exact not_coalesced_of_behind holeBehindKernel_tiled hnext holeBehindKernel_footed
    (fun _ => by decide +kernel)
    (hall _ [] [] _ _ _ holeBehindKernel_tiled holeBehindKernel_footed hnext (by simp))

end Vulcanos
