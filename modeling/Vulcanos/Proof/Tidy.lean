import Mathlib.Data.List.Chain
import Vulcanos.Proof.HeapRun

/-!
# Merging leaves no two holes side by side

For memory to come back when blocks are freed, `free` has to see every hole next to the block. The
header behind the block always shows one. The footer in front of it does when the hole there ends in
a footer that points to some header still marked as a hole, be it the hole's own or that of a hole
it has swallowed; `Signed` says so, and `Tidy` asks it of every hole but the last.
-/

namespace Vulcanos

open Memory Word Layout

/-- No hole follows a hole. -/
def Separated (c d : Chunk) : Prop := c.hole = true → d.hole = false

/-- The bytes `[a, a + s)` end in a footer that points to a header among them, marked as a hole. -/
structure Signed (m : Mem) (a s : Nat) : Prop where
  magic : footerMagic m (a + s - 8) = heapMagic
  header_ge : a ≤ footerHeader m (a + s - 8)
  header_lt : footerHeader m (a + s - 8) + 5 ≤ a + s
  isHole : headerIsHole m (footerHeader m (a + s - 8)) = 1

/-- The heap of the chunks `cs` has no two holes side by side, and each hole but the last is signed.
-/
structure Tidy (k : Kernel) (cs : List Chunk) : Prop where
  apart : cs.IsChain Separated
  signed : ∀ u ∈ layout Chunk.size k.heap.startAddress cs, u.2.hole = true →
    u.1 + u.2.size ≠ k.heap.endAddress → Signed k.mem u.1 u.2.size

section Signed

variable {m m' : Mem} {a s head n : Nat}

theorem Signed.frame (h : Signed m a s) (hmin : 20 ≤ s) (hsame : SameOn a (a + s) m m') :
    Signed m' a s := by
  have hheader : footerHeader m' (a + s - 8) = footerHeader m (a + s - 8) :=
    hsame.read32 (by omega) (by omega)
  have hge := h.header_ge
  have hlt := h.header_lt
  refine ⟨(hsame.read32 (by omega) (by omega)).trans h.magic, ?_, ?_, ?_⟩
  · rw [hheader]
    exact hge
  · rw [hheader]
    exact hlt
  · rw [hheader]
    exact (hsame.read8 (by omega) (by omega)).trans h.isHole

theorem signed_of_footerAt (hmin : 20 ≤ s) (hheader : HeaderAt m a true s)
    (hfooter : FooterAt m (a + s - 8) a) : Signed m a s := by
  have hback := hfooter.header
  exact ⟨hfooter.magic, by omega, by omega, by rw [hback]; exact hheader.isHole⟩

theorem Signed.extend (h : Signed m (a + n) s) : Signed m a (n + s) := by
  obtain ⟨hmagic, hge, hlt, hhole⟩ := h
  rw [Nat.add_assoc] at hmagic hge hlt hhole
  exact ⟨hmagic, by omega, by omega, hhole⟩

theorem Signed.unifiesLeft (h : Signed m a s) (hmin : 20 ≤ s) :
    UnifiesLeft (markHole (a + s) m) (a + s) := by
  have hsame := markHole_sameOutside (a + s) m
  have hsigned := h.frame hmin (hsame.sameOn (Or.inl (by omega)))
  exact ⟨hsigned.magic, hsigned.isHole⟩

end Signed

theorem isChain_replace {α : Type} {R : α → α → Prop} {left mid mid' right : List α}
    (h : (left ++ mid ++ right).IsChain R) (hne : mid' ≠ []) (hmid : mid'.IsChain R)
    (hleft : ∀ x ∈ left.getLast?, ∀ y ∈ mid'.head?, R x y)
    (hright : ∀ x ∈ mid'.getLast?, ∀ y ∈ right.head?, R x y) :
    (left ++ mid' ++ right).IsChain R := by
  rw [List.isChain_append] at h
  obtain ⟨hl, hr, -⟩ := h
  refine (List.IsChain.left_of_append hl |>.append hmid hleft).append hr ?_
  rwa [List.getLast?_append_of_ne_nil _ hne]

section Steps

variable {k k' k1 : Kernel} {cs left front lh rh right : List Chunk} {s b n : Nat}

/-- The chunks on both sides of an edit stay signed, and so does the edit when its own holes do. -/
theorem Tidy.replace {mid mid' : List Chunk} (h : WellFormed k (left ++ mid ++ right))
    (htidy : Tidy k (left ++ mid ++ right)) (h' : WellFormed k' (left ++ mid' ++ right))
    (hstart : k'.heap.startAddress = k.heap.startAddress) (hmid : mid ≠ [])
    (htotal : right ≠ [] → total Chunk.size mid' = total Chunk.size mid)
    (hleft : SameOn k.heap.startAddress (k.heap.startAddress + total Chunk.size left) k.mem k'.mem)
    (hright : ∀ hi, SameOn (k.heap.startAddress + total Chunk.size left + total Chunk.size mid) hi
      k.mem k'.mem)
    (hapart : (left ++ mid' ++ right).IsChain Separated)
    (hsigned : ∀ u ∈ layout Chunk.size (k.heap.startAddress + total Chunk.size left) mid',
      u.2.hole = true → u.1 + u.2.size ≠ k'.heap.endAddress → Signed k'.mem u.1 u.2.size) :
    Tidy k' (left ++ mid' ++ right) := by
  have htiles := h.tiles
  have htiles' := h'.tiles
  have hmin := h.minSize
  have hsignedOld := htidy.signed
  refine ⟨hapart, ?_⟩
  rw [hstart]
  simp only [layout_append, total_append, List.mem_append] at htiles htiles' hsignedOld ⊢
  rintro u ((hu | hu) | hu) hhole hne
  · have hlo := le_of_mem_layout hu
    have hhi := end_le_of_mem_layout hu
    have hmem := snd_mem_of_mem_layout hu
    have hminu := hmin u.2 (by simp [hmem])
    obtain ⟨c, mid, rfl⟩ := List.exists_cons_of_ne_nil hmid
    have hminc := hmin c (by simp)
    rw [total_cons] at htiles
    exact (hsignedOld u (Or.inl (Or.inl hu)) hhole (by omega)).frame hminu
      (hleft.mono hlo hhi)
  · exact hsigned u hu hhole hne
  · have hright' : right ≠ [] := by
      rintro rfl
      simp at hu
    rw [htotal hright'] at hu htiles'
    have hlo := le_of_mem_layout hu
    have hmem := snd_mem_of_mem_layout hu
    have hminu := hmin u.2 (by simp [hmem])
    exact (hsignedOld u (Or.inr hu) hhole (by omega)).frame hminu
      ((hright _).mono (by omega) (Nat.le_refl _))

/-- **Serving a plain request** keeps the heap tidy: what is left of the hole gets a footer. -/
theorem Carved.tidy (h : WellFormed k (left ++ [⟨s, true⟩] ++ right))
    (htidy : Tidy k (left ++ [⟨s, true⟩] ++ right)) (hcarved : Carved k left [] s right b k') :
    Tidy k' (left ++ ([] ++ blockChunks b (s - total Chunk.size [])) ++ right) := by
  have hroom := hcarved.room
  have hend := hcarved.endAddr
  have hfooter := hcarved.footer
  have hwf := hcarved.wellFormed
  simp only [total_nil, Nat.sub_zero, Nat.add_zero, Nat.zero_add, List.nil_append] at *
  have hold := htidy.apart
  have hnext : ∀ y ∈ right.head?, y.hole = false := by
    intro y hy
    rw [List.append_assoc, List.isChain_append, List.singleton_append, List.isChain_cons] at hold
    exact hold.2.1.1 y hy rfl
  refine htidy.replace h hwf hcarved.start (by simp)
    (fun _ => by rw [total_blockChunks hroom]; simp) hcarved.sameLeft ?_ ?_ ?_
  · intro hi
    simpa using hcarved.sameRight hi
  · refine isChain_replace hold ?_ ?_ ?_ ?_ <;> unfold blockChunks
    · split <;> simp
    · split <;> simp [Separated]
    · intro x _ y hy _
      split at hy <;> simp at hy <;> rw [← hy]
    · intro x hx y hy hhole
      exact hnext y hy
  · intro u hu hhole hne
    by_cases hwhole : s = b
    · rw [blockChunks, if_pos hwhole] at hu
      simp only [layout_cons, layout_nil, List.mem_singleton] at hu
      rw [hu] at hhole
      simp at hhole
    · -- the one hole is what is left behind the block
      have hchunks := hwf.chunksAt
      rw [blockChunks, if_neg hwhole] at hu hchunks
      simp only [chunksAt_append, chunksAt_cons, hcarved.start] at hchunks
      simp only [layout_cons, layout_nil, List.mem_cons, List.not_mem_nil, or_false] at hu
      rcases hu with rfl | rfl
      · simp at hhole
      · have hrest := hchunks.1.2.2.1
        have hback := hfooter hwhole
        have hminRest := hrest.minSize
        simp only at hminRest ⊢
        refine signed_of_footerAt hminRest hrest.header ?_
        rwa [show k.heap.startAddress + total Chunk.size left + b + (s - b) - 8 =
          k.heap.startAddress + total Chunk.size left + s - 8 by omega]

/-- The chunk in front of a block that did not unify to the left is no hole. -/
theorem Tidy.left_of_not_unifies {x : Chunk} (h : WellFormed k (left ++ ⟨s, false⟩ :: right))
    (htidy : Tidy k (left ++ ⟨s, false⟩ :: right))
    (hnot : ¬ UnifiesLeft (markHole (k.heap.startAddress + total Chunk.size left) k.mem)
      (k.heap.startAddress + total Chunk.size left))
    (hx : x ∈ left.getLast?) : x.hole = false := by
  obtain ⟨init, rfl⟩ := List.getLast?_eq_some_iff.mp hx
  have htiles := h.tiles
  have hminx := h.minSize x (by simp)
  have hmins := h.minSize ⟨s, false⟩ (by simp)
  simp only [total_append, total_cons, total_nil] at htiles hnot
  cases hhole : x.hole with
  | false => rfl
  | true =>
      have hmem : (k.heap.startAddress + total Chunk.size init, x) ∈
          layout Chunk.size k.heap.startAddress (init ++ [x] ++ ⟨s, false⟩ :: right) :=
        (mem_layout_iff Chunk.size).mpr ⟨init, ⟨s, false⟩ :: right, by simp, rfl⟩
      have hsigned := htidy.signed _ hmem hhole (by simp only at hmins ⊢; omega)
      have hunifies := hsigned.unifiesLeft hminx
      rw [Nat.add_zero, ← Nat.add_assoc] at hnot
      exact absurd hunifies hnot

theorem Unified.before_inUse {x : Chunk}
    (h : WellFormed k (left ++ lh ++ ⟨s, false⟩ :: (rh ++ right)))
    (htidy : Tidy k (left ++ lh ++ ⟨s, false⟩ :: (rh ++ right)))
    (hunified : Unified k left lh s rh right n k1) (hx : x ∈ left.getLast?) :
    x.hole = false := by
  rcases hunified.leftHole with rfl | ⟨t, rfl⟩
  · have halone := hunified.leftAlone.mp rfl
    rw [List.append_nil] at h htidy halone
    exact htidy.left_of_not_unifies h halone hx
  · have hold := htidy.apart
    rw [List.append_assoc, List.isChain_append] at hold
    have hsep := hold.2.2 x hx ⟨t, true⟩ rfl
    cases hhole : x.hole with
    | false => rfl
    | true => exact absurd (hsep hhole) (by simp)

theorem Unified.behind_inUse {y : Chunk}
    (htidy : Tidy k (left ++ lh ++ ⟨s, false⟩ :: (rh ++ right)))
    (hunified : Unified k left lh s rh right n k1) (hy : y ∈ right.head?) :
    y.hole = false := by
  rcases hunified.rightHole with rfl | ⟨r, rfl⟩
  · exact hunified.rightAlone rfl y hy
  · have hold := htidy.apart
    rw [List.isChain_append, List.isChain_cons, List.singleton_append, List.isChain_cons] at hold
    exact hold.2.1.2.1 y hy rfl

/-- The merged hole ends in the block's footer, or in that of the hole behind it. -/
theorem Unified.signed (h : WellFormed k (left ++ lh ++ ⟨s, false⟩ :: (rh ++ right)))
    (htidy : Tidy k (left ++ lh ++ ⟨s, false⟩ :: (rh ++ right)))
    (hunified : Unified k left lh s rh right n k1) (hright : right ≠ []) :
    Signed (finishFree lh (k.heap.startAddress + total Chunk.size left) k1).mem
      (k.heap.startAddress + total Chunk.size left) n := by
  have hmerging := hunified.merging
  set hd := k.heap.startAddress + total Chunk.size left with hhd
  have habove := hmerging.finish_sameOn h hunified.room
  have hn := hmerging.uncut hright
  have hmin := hmerging.minSize
  rcases hunified.rightHole with rfl | ⟨r, rfl⟩
  · have hsigned := signed_of_footerAt hmin hmerging.header (hmerging.footer rfl)
    exact hsigned.frame hmin (habove _ _ (by omega))
  · have hmem : (hd + (total Chunk.size lh + s), (⟨r, true⟩ : Chunk)) ∈
        layout Chunk.size k.heap.startAddress
          (left ++ lh ++ ⟨s, false⟩ :: ([⟨r, true⟩] ++ right)) :=
      (mem_layout_iff Chunk.size).mpr ⟨left ++ lh ++ [⟨s, false⟩], right, by simp, by
        simp only [total_append, total_cons, total_nil]
        omega⟩
    have htiles := h.tiles
    have hminr := h.minSize ⟨r, true⟩ (by simp)
    obtain ⟨c, right, rfl⟩ := List.exists_cons_of_ne_nil hright
    have hminc := h.minSize c (by simp)
    simp only [total_append, total_cons, total_nil] at htiles hminr hn
    have hsigned := htidy.signed _ hmem rfl (by simp only; omega)
    have hsame := ((hmerging.sameRight (hd + (total Chunk.size lh + s) + r)).mono
      (Nat.le_of_eq (Nat.add_assoc _ _ _)) (Nat.le_refl _)).trans
        (habove _ (hd + (total Chunk.size lh + s) + r) (by omega))
    rw [show n = total Chunk.size lh + s + r by omega]
    exact (hsigned.frame hminr hsame).extend

/-- **Freeing a block** of a tidy heap keeps it tidy: every hole next to the block is merged. -/
theorem Unified.tidy (h : WellFormed k (left ++ lh ++ ⟨s, false⟩ :: (rh ++ right)))
    (htidy : Tidy k (left ++ lh ++ ⟨s, false⟩ :: (rh ++ right)))
    (hunified : Unified k left lh s rh right n k1) :
    Tidy (finishFree lh (k.heap.startAddress + total Chunk.size left) k1)
      (left ++ ⟨n, true⟩ :: right) := by
  have hmerging := hunified.merging
  have hbefore := fun x => hunified.before_inUse (x := x) h htidy
  have hbehind := fun y => hunified.behind_inUse (y := y) htidy
  have hends := hunified.signed h htidy
  set hd := k.heap.startAddress + total Chunk.size left with hhd
  have hwf := hmerging.wellFormed h hunified.room
  have habove := hmerging.finish_sameOn h hunified.room
  obtain ⟨index, hheap⟩ := finishFree_heap lh hd k1
  have hassoc : left ++ lh ++ ⟨s, false⟩ :: (rh ++ right) =
      left ++ (lh ++ ⟨s, false⟩ :: rh) ++ right := by simp
  have hassoc' : left ++ ⟨n, true⟩ :: right = left ++ [⟨n, true⟩] ++ right := by simp
  rw [hassoc] at h htidy
  rw [hassoc'] at hwf ⊢
  refine htidy.replace h hwf (by rw [hheap]; exact hmerging.start) (by simp) ?_ ?_ ?_ ?_ ?_
  · intro hright
    rw [hmerging.uncut hright]
    simp only [total_append, total_cons, total_nil]
    omega
  · rw [← hhd]
    exact hmerging.sameLeft.trans (habove _ _ (Nat.le_refl _))
  · intro hi
    rw [← hhd]
    simp only [total_append, total_cons]
    exact ((hmerging.sameRight hi).mono (by omega) (Nat.le_refl _)).trans (habove _ _ (by omega))
  · refine isChain_replace htidy.apart (by simp) (by simp) ?_ ?_
    · intro x hx y _ hhole
      rw [hbefore x hx] at hhole
      simp at hhole
    · intro x _ y hy _
      exact hbehind y hy
  · -- a hole that is not the last one has chunks behind it
    intro u hu _ hne
    rw [← hhd] at hu
    simp only [layout_cons, layout_nil, List.mem_singleton] at hu
    obtain rfl := hu
    simp only at hne ⊢
    have htiles := hwf.tiles
    rw [hheap] at hne htiles
    simp only [total_append, total_cons, total_nil, hmerging.start] at hne htiles
    refine hends ?_
    rintro rfl
    simp only [total_nil] at htiles
    omega

end Steps

/-! ### Runs without an expansion -/

/-- The call is no page-aligned request and needs no expansion. -/
def Call.InPlace (c : Call) (s : HeapRun) : Prop :=
  match c with
  | alloc _ size pageAlign =>
      pageAlign = 0 ∧ (Kernel.findSmallestHole (size + 20) 0 s.kernel).isSome = true
  | _ => True

instance (c : Call) (s : HeapRun) : Decidable (c.InPlace s) :=
  match c with
  | .alloc _ size pageAlign => inferInstanceAs (Decidable
      (pageAlign = 0 ∧ (Kernel.findSmallestHole (size + 20) 0 s.kernel).isSome = true))
  | .free _ => .isTrue trivial
  | .store _ _ => .isTrue trivial

/-- The heap is tidy, and every block of it is held. -/
structure TidyInv (s : HeapRun) (cs : List Chunk) : Prop where
  inv : HeapInv s cs
  tidy : Tidy s.kernel cs
  held : ∀ u ∈ blocks s.kernel.heap.startAddress cs, ∃ v ∈ s.live, v.1 = u.1 + 12

section Run

variable {s s' : HeapRun} {cs : List Chunk} {c : Call}

theorem Fresh.tidyInv (h : Fresh s) : TidyInv s [⟨0x7F000, true⟩] := by
  have hinv := h.inv
  have htiles := hinv.wellFormed.tiles
  simp only [total_cons, total_nil] at htiles
  refine ⟨hinv, ⟨by simp, ?_⟩, by simp⟩
  intro u hu _ hne
  simp only [layout_cons, layout_nil, List.mem_singleton] at hu
  obtain rfl := hu
  simp only at hne
  omega

/-- **One call** without an expansion keeps the heap tidy. -/
theorem TidyInv.step (h : TidyInv s cs) (hlegal : c.Legal s) (hinPlace : c.InPlace s)
    (hok : c.Ok heapGuards s) (hstep : c.step s = .ok s') : ∃ cs', TidyInv s' cs' := by
  obtain ⟨hinv, htidy, hheld⟩ := h
  have hwf := hinv.wellFormed
  cases c with
  | alloc fuel size pageAlign =>
      obtain ⟨rfl, hsome⟩ := hinPlace
      obtain ⟨it, hfind⟩ := Option.isSome_iff_exists.mp hsome
      simp only [Call.step, bind_eq_ok, Except.ok.injEq] at hstep
      obtain ⟨⟨p, k⟩, halloc, rfl⟩ := hstep
      cases fuel with
      | zero => simp [Kernel.alloc] at halloc
      | succ fuel =>
          rw [alloc_of_find fuel hlegal hfind] at halloc
          obtain ⟨left, front, t, right, b, rfl, hplain, hb, hp, hcarved⟩ :=
            carveBlock_carved hwf hfind fun hne => absurd rfl hne
          obtain rfl := hplain rfl
          rw [Except.ok.inj halloc] at hp hcarved
          dsimp only at hcarved
          simp only [total_nil, Nat.add_zero] at hp
          have hserves := hcarved.serves hwf
          refine ⟨_, by rw [hp]; exact hinv.serve hserves hb, hcarved.tidy hwf htidy, ?_⟩
          intro u hu
          simp only [hserves.start] at hu
          rcases List.mem_cons.mp (hserves.blocks.mem_iff.mp hu) with rfl | hu
          · exact ⟨_, List.mem_cons_self, hp⟩
          · obtain ⟨v, hv, hvu⟩ := hheld u hu
            exact ⟨v, List.mem_cons_of_mem _ hv, hvu⟩
  | free p =>
      obtain ⟨head, b, rfl, hmem⟩ := hinv.block_of_live hlegal
      have hfreeOk : FreeOk head s.kernel := by
        have hguard : FreeOk (head + 12 - 12) s.kernel := hok
        rwa [Nat.add_sub_cancel] at hguard
      obtain ⟨left, rest, rfl, hhead⟩ := mem_blocks_iff.mp hmem
      obtain ⟨left, lh, rh, right, n, k1, rfl, rfl, hunified, hfree⟩ :=
        free_eq hwf hhead hinv.floor hfreeOk
      have hfrees := hunified.frees hwf hinv.floor
      rw [← hhead] at hfrees
      simp only [Call.step, hfree, ok_bind, Except.ok.injEq] at hstep
      subst hstep
      refine ⟨_, hinv.release hfrees, hunified.tidy hwf htidy, ?_⟩
      intro u hu
      simp only [hfrees.start] at hu
      obtain ⟨v, hv, hvu⟩ := hheld u (hfrees.blocks.mem_iff.mpr (List.mem_cons_of_mem _ hu))
      refine ⟨v, List.mem_filter.mpr ⟨hv, ?_⟩, hvu⟩
      -- the freed block is gone, so this one has another header
      have hnodup : ((blocks s.kernel.heap.startAddress _).map Prod.fst).Nodup :=
        nodup_blocks_fst hwf.minSize
      rw [(hfrees.blocks.map Prod.fst).nodup_iff, List.map_cons, List.nodup_cons] at hnodup
      have hne : u.1 ≠ head := fun heq => hnodup.1 (heq ▸ List.mem_map.mpr ⟨u, hu, rfl⟩)
      simp only [decide_eq_true_eq]
      omega
  | store a v =>
      obtain rfl := Except.ok.inj hstep
      refine ⟨cs, hinv.store hlegal, ⟨htidy.apart, ?_⟩, hheld⟩
      -- the store is in a block, and holes are elsewhere
      intro u hu hhole hne
      obtain ⟨w, hw, hlo, hhi⟩ := hlegal
      obtain ⟨head, b, hp, hb, hmem⟩ := hinv.live w hw
      obtain ⟨left, right, hcs, hhead⟩ := mem_blocks_iff.mp hmem
      have hblock := (mem_layout_iff Chunk.size).mpr ⟨left, right, hcs,
        (rfl : (s.kernel.heap.startAddress + total Chunk.size left, Chunk.mk b false).1 = _)⟩
      have hsame : SameOutside a (a + 1) s.kernel.mem (write8 s.kernel.mem a v) :=
        (SameOutside.refl _ _ _).write8 (Nat.le_refl _) (by omega)
      rcases apart_of_mem_layout hu hblock with rfl | hapart
      · simp at hhole
      · simp only at hapart
        exact (htidy.signed u hu hhole hne).frame (hwf.chunksAt u hu).minSize
          (hsame.sameOn (by omega))

/-- **Every run** without an expansion, within the guards, keeps the heap tidy. -/
theorem Fresh.tidyRun (hfresh : Fresh s) (hrun : Run.Reaches Call.step
    (fun c t => c.Good heapGuards t ∧ c.InPlace t) s s') : ∃ cs, TidyInv s' cs :=
  hrun.invariant (fun t => ∃ cs, TidyInv t cs) ⟨_, hfresh.tidyInv⟩
    fun _ _ _ ⟨_, hinv⟩ hgood hstep => hinv.step hgood.1.1 hgood.2 hgood.1.2 hstep

end Run

end Vulcanos
