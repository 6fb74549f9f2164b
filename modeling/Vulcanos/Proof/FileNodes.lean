import Vulcanos.Proof.Initrd

/-!
# The callbacks that a node of the ramdisk does not have

`init_ramdisk` stores a null pointer for each of them, and no later round of its loop stores there.
-/

namespace Vulcanos

open Memory Word

section Nodes

variable {syms : Symbols} {g : Initrd} {loc i off : Nat} {copies copies' : List StringCopy}
  {m m' : Mem}

theorem initDirectory_null (syms : Symbols) (node : Nat) (name : List UInt8) (m : Mem)
    (hoff : off ∈ [fsRead, fsWrite, fsOpen, fsClose]) :
    read32 (initDirectory syms node name m) (node + off) = 0 := by
  unfold initDirectory
  dsimp only
  generalize hws : [(fsLength, 0), (fsInode, 0), (fsGid, 0), (fsUid, 0), (fsMask, 0),
    (fsFlags, fsDirectory), (fsRead, 0), (fsWrite, 0), (fsOpen, 0), (fsClose, 0),
    (fsReaddir, syms.initrdReaddir), (fsFinddir, syms.initrdFinddir), (fsPtr, 0), (fsImpl, 0)] = ws
  have hapart : ws.Pairwise fun v w => v.1 + 4 ≤ w.1 ∨ w.1 + 4 ≤ v.1 := by
    subst hws
    simp [fsLength, fsInode, fsGid, fsUid, fsMask, fsFlags, fsRead, fsWrite, fsOpen, fsClose,
      fsReaddir, fsFinddir, fsPtr, fsImpl]
  have hmem : (off, 0) ∈ ws := by
    simp only [List.mem_cons, List.not_mem_nil, or_false] at hoff
    rcases hoff with rfl | rfl | rfl | rfl <;> simp [← hws]
  exact read32_writeWords hmem (Nat.zero_lt_succ _) hapart

theorem initFile_null (hok : initFile syms g loc i copies m = .ok (copies', m'))
    (hoff : off ∈ [fsWrite, fsOpen, fsClose]) : read32 m' (g.rootNode i + off) = 0 := by
  unfold initFile at hok
  dsimp only at hok
  rw [bind_eq_ok] at hok
  obtain ⟨⟨len, m1⟩, -, hret⟩ := hok
  obtain ⟨-, rfl⟩ := Prod.mk.inj (Except.ok.inj hret)
  generalize hm2 : writeWords (g.rootNode i) [(fsGid, 0), (fsUid, 0), (fsMask, 0)] m1 = m2
  generalize hws : [(fsLength, read32 m2 (g.fileHeader i + headerLength)), (fsInode, i),
    (fsFlags, fsFile), (fsRead, syms.initrdRead), (fsWrite, 0), (fsReaddir, 0), (fsFinddir, 0),
    (fsOpen, 0), (fsClose, 0), (fsImpl, 0)] = ws
  have hapart : ws.Pairwise fun v w => v.1 + 4 ≤ w.1 ∨ w.1 + 4 ≤ v.1 := by
    subst hws
    simp [fsLength, fsInode, fsFlags, fsRead, fsWrite, fsOpen, fsClose, fsReaddir, fsFinddir,
      fsImpl]
  have hmem : (off, 0) ∈ ws := by
    simp only [List.mem_cons, List.not_mem_nil, or_false] at hoff
    rcases hoff with rfl | rfl | rfl <;> simp [← hws]
  exact read32_writeWords hmem (Nat.zero_lt_succ _) hapart

end Nodes

section Loop

variable {syms : Symbols} {g : Initrd} {loc n nodes i : Nat} {m0 m : Mem}
  {copies : List StringCopy}

/-- The first `i` files have no `write`, `open` and `close`. -/
def NullUpTo (nodes i : Nat) (m : Mem) : Prop :=
  ∀ j, j < i → ∀ off ∈ [fsWrite, fsOpen, fsClose], read32 m (nodes + 184 * j + off) = 0

theorem initFiles_null (ht : Table g loc n nodes) (hn : read32 m0 loc = n) (hi : i ≤ n)
    (hends : ∀ j, j < i → NameEnds m0 loc j)
    (hok : initFiles syms g loc i 0 [] m0 = .ok (copies, m)) : NullUpTo nodes i m := by
  induction i generalizing copies m with
  | zero => exact fun j hj => absurd hj (Nat.not_lt_zero j)
  | succ i ih =>
      have hends' : ∀ j, j < i → NameEnds m0 loc j := fun j hj => hends j (by omega)
      obtain ⟨copies1, m1, hprogress, hloop⟩ := initFiles_of_ends syms ht hn (by omega) hends'
      have hnull := ih (by omega) hends' (hloop 0)
      have hplaces := ht.places (show i < n by omega)
      have hheader := hprogress.header ht (show i < n by omega)
      obtain ⟨j, hj, hnul⟩ := hends i (Nat.lt_succ_self i)
      have hends1 : ∃ j, j ≤ 64 ∧ m1 (headerAddr loc i + 1 + j) = 0 :=
        ⟨j, hj, (hheader _ (by omega) (by omega)).trans hnul⟩
      obtain ⟨m2, hround, -, -, hframe⟩ :
          ∃ m2, initFile syms g loc i copies1 m1 = .ok (_, m2) ∧ _ :=
        initFile_of_ends hplaces hends1
      have hmore : i < read32 m1 g.initrdHeader := by
        rw [hprogress.nfiles ht hn]
        omega
      have hone : initFiles syms g loc (0 + 1) i copies1 m1 = .ok (copies, m) :=
        (hloop 1).symm.trans hok
      rw [initFiles, if_pos hmore, hround, ok_bind] at hone
      obtain ⟨-, rfl⟩ := Prod.mk.inj (Except.ok.inj hone)
      intro j hj off hoff
      rcases Nat.lt_succ_iff_lt_or_eq.mp hj with hlt | rfl
      · -- the nodes before are apart from the new one and from its header
        have hin : off + 4 ≤ 184 := by
          simp only [List.mem_cons, List.not_mem_nil, or_false] at hoff
          rcases hoff with rfl | rfl | rfl <;> decide
        have hapart := ht.apart
        have hsame : SameOn (nodes + 184 * j) (nodes + 184 * j + 184) m1 m2 := by
          intro x hlo hhi
          refine hframe x ?_ (by omega)
          unfold headerAddr
          omega
        rw [hsame.read32 (Nat.le_add_right _ _) (by omega)]
        exact hnull j hlt off hoff
      · have hnode := initFile_null hround hoff
        rwa [hplaces.node_eq] at hnode

theorem initFiles_all_null (ht : Table g loc n nodes) (hn : read32 m0 loc = n)
    (hends : ∀ j, j < n → NameEnds m0 loc j)
    (hok : initFiles syms g loc addressSpace 0 [] m0 = .ok (copies, m)) : NullUpTo nodes n m := by
  obtain ⟨copies1, m1, hprogress, hloop⟩ := initFiles_of_ends syms ht hn (Nat.le_refl n) hends
  have hlt : n < addressSpace := hn ▸ read32_lt m0 loc
  obtain ⟨rounds, hrounds⟩ : ∃ r, addressSpace = n + (r + 1) := ⟨addressSpace - n - 1, by omega⟩
  rw [hrounds, hloop, initFiles, if_neg (by rw [hprogress.nfiles ht hn]; exact Nat.lt_irrefl n)]
    at hok
  obtain ⟨rfl, rfl⟩ := Prod.mk.inj (Except.ok.inj hok)
  exact initFiles_null ht hn (Nat.le_refl n) hends (hloop 0)

end Loop

end Vulcanos
