import Vulcanos.Library.Run
import Vulcanos.Ramdisk

/-!
# Listing and finding

What a directory of the ramdisk should contain is a function from an index to a name and an inode.
`readdir_fs` and `finddir_fs` write to nothing but the static `dirent`, which is apart from all
nodes, so what holds of the nodes after `init_ramdisk` holds after any calls of them.
-/

namespace Vulcanos

open Memory Word Run

/-! ### The directory -/

/-- What the root directory contains: `dev`, and the files behind it. -/
def listing (names : List (List UInt8)) : Nat → Option (List UInt8 × Nat)
  | 0 => some (bytesOf "dev", 0)
  | i + 1 => names[i]?.map fun s => (s, i)

def fileNames (m : Mem) (loc n : Nat) : List (List UInt8) := (List.range n).map (fileName m loc)

/-- A call of `readdir_fs` answers with this entry: the address of a `struct dirent` that holds it,
or the null pointer if there is none. -/
def Answers (result : Option (Except Stop (Nat × Mem))) (entry : Option (List UInt8 × Nat)) :
    Prop :=
  ∃ e m, result = some (.ok (e, m)) ∧
    match entry with
    | none => e = 0
    | some (name, ino) => e ≠ 0 ∧ StringAt m e name ∧ read32 m (e + direntIno) = ino

/-- The nodes of a ramdisk with these files. -/
structure Mounted (syms : Symbols) (g : Initrd) (names : List (List UInt8)) (m : Mem) : Prop where
  root : DirNode syms (bytesOf "dev") g.initrdRoot m
  count : g.nrootNodes = names.length
  files : ∀ i s, names[i]? = some s → ∃ len, FileNode syms s len i (g.rootNodes + 184 * i) m
  short : ∀ s ∈ names, s.length ≤ 64
  nodes_fit : g.rootNodes + 184 * names.length ≤ 4294967296
  nodes_pos : 0 < g.rootNodes
  root_apart : g.initrdRoot + 184 ≤ syms.dirent ∨ syms.dirent + 124 ≤ g.initrdRoot
  nodes_apart : g.rootNodes + 184 * names.length ≤ syms.dirent ∨ syms.dirent + 124 ≤ g.rootNodes

theorem fileNames_getElem? {m : Mem} {loc n i : Nat} {s : List UInt8} :
    (fileNames m loc n)[i]? = some s ↔ i < n ∧ fileName m loc i = s := by
  unfold fileNames
  rw [List.getElem?_map, Option.map_eq_some_iff]
  constructor
  · rintro ⟨j, hj, rfl⟩
    obtain ⟨hlt, hval⟩ := List.getElem?_eq_some_iff.mp hj
    rw [List.length_range] at hlt
    rw [List.getElem_range] at hval
    exact ⟨by omega, by rw [hval]⟩
  · rintro ⟨hi, rfl⟩
    exact ⟨i, List.getElem?_range hi, rfl⟩

theorem length_fileNames (m : Mem) (loc n : Nat) : (fileNames m loc n).length = n := by
  rw [fileNames, List.length_map, List.length_range]

theorem length_le_of_mem_fileNames {m : Mem} {loc n : Nat} {s : List UInt8}
    (h : s ∈ fileNames m loc n) : s.length ≤ 64 := by
  obtain ⟨i, -, rfl⟩ := List.mem_map.mp h
  exact length_textIn_le _ _ _

section Mounting

variable {syms : Symbols} {alloc : Kernel.Allocator} {loc n root dev nodes : Nat}
  {k k1 k2 k3 : Kernel}

theorem Progress.sameOn {i a len : Nat} {m0 m : Mem} {copies : List StringCopy}
    (h : Progress syms loc n nodes m0 i copies m) (hi : i ≤ n)
    (himage : loc + (4 + 76 * n) ≤ a ∨ a + len ≤ loc)
    (hnodes : a + len ≤ nodes ∨ nodes + 184 * n ≤ a) : SameOn a (a + len) m0 m := by
  intro x hlo hhi
  refine h.frame x (by omega) fun j hj => ?_
  unfold headerAddr
  omega

/-- **What `init_ramdisk` returns**, on an image whose names end. -/
theorem RamdiskMemory.mounted (h : RamdiskMemory syms alloc loc n k root dev nodes k1 k2 k3)
    (hends : ∀ i, i < n → NameEnds k.mem loc i) :
    ∃ g k', initRamdisk syms alloc loc k = .ok (g, k') ∧
      Mounted syms g (fileNames k.mem loc n) k'.mem ∧ g.initrdRoot = root ∧ g.initrdDev = dev ∧
      SameOn dev (dev + sizeofFsNode) k2.mem k'.mem := by
  obtain ⟨copies, m, hinit, hprogress⟩ := h.initRamdisk_of_ends hends
  have himage : (loc, 4 + 76 * n) ∈ inUse syms loc n := List.mem_cons_self
  have hstatic : (syms.dirent, sizeofDirent) ∈ inUse syms loc n :=
    List.mem_cons_of_mem _ List.mem_cons_self
  have hcons : ∀ u ∈ inUse syms loc n,
      u ∈ (dev, sizeofFsNode) :: (root, sizeofFsNode) :: inUse syms loc n :=
    fun u hu => List.mem_cons_of_mem _ (List.mem_cons_of_mem _ hu)
  -- which of the objects are apart
  have hroot_image := h.root_fresh.apart _ himage
  have hroot_dirent := h.root_fresh.apart _ hstatic
  have hdev_image := h.dev_fresh.apart _ (List.mem_cons_of_mem _ himage)
  have hdev_root := h.dev_fresh.apart _ List.mem_cons_self
  have hnodes_dirent := h.nodes_fresh.apart _ (hcons _ hstatic)
  have hnodes_dev := h.nodes_fresh.apart _ List.mem_cons_self
  have hnodes_root := h.nodes_fresh.apart _ (List.mem_cons_of_mem _ List.mem_cons_self)
  refine ⟨_, _, hinit, ⟨?_, ?_, ?_, ?_, ?_, h.nodes_fresh.pos, ?_, ?_⟩, rfl, rfl, ?_⟩
  · refine h.root_node.congr (by decide) ?_
    exact hprogress.sameOn (Nat.le_refl n) hroot_image hnodes_root
  · exact (length_fileNames k.mem loc n).symm
  · intro i s hs
    obtain ⟨hi, rfl⟩ := fileNames_getElem?.mp hs
    rw [← h.fileName_eq hi]
    exact ⟨_, hprogress.files i hi⟩
  · exact fun s hs => length_le_of_mem_fileNames hs
  · rw [length_fileNames]
    exact h.nodes_fresh.fits
  · exact hroot_dirent.symm
  · rw [length_fileNames]
    exact hnodes_dirent.symm
  · have hrooted : SameOn dev (dev + sizeofFsNode) k2.mem
        (rooted syms root (bytesOf "dev") k2).mem :=
      sameOn_rooted (by decide) (by decide) hdev_root.symm k2
    have hcall := h.nodes_fresh.same _ List.mem_cons_self
    have hloop : SameOn dev (dev + sizeofFsNode) k3.mem m :=
      hprogress.sameOn (Nat.le_refl n) hdev_image hnodes_dev
    exact (hrooted.trans hcall).trans hloop

end Mounting

/-! ### `readdir_fs` -/

section Readdir

variable {syms : Symbols} {g : Initrd} {names : List (List UInt8)} {m m' : Mem} {i index : Nat}
  {s : List UInt8}

theorem initrdReaddir_zero (syms : Symbols) (g : Initrd) (m : Mem) :
    ∃ m', initrdReaddir syms g g.initrdRoot 0 m = .ok (syms.dirent, m') ∧
      StringAt m' syms.dirent (bytesOf "dev") ∧ read32 m' (syms.dirent + direntIno) = 0 ∧
      SameOutside syms.dirent (syms.dirent + sizeofDirent) m m' := by
  unfold initrdReaddir
  rw [if_pos ⟨rfl, rfl⟩]
  have hname : StringAt (writeBytes syms.dirent (literal "dev") m) syms.dirent (bytesOf "dev") :=
    stringAt_writeBytes (by decide)
  have hbytes := sameOutside_writeBytes syms.dirent (literal "dev") m
  generalize writeBytes syms.dirent (literal "dev") m = m1 at hname hbytes
  have hnul : StringAt (write8 m1 (syms.dirent + 3) 0) syms.dirent (bytesOf "dev") :=
    hname.write8_nul
  refine ⟨_, rfl, hnul.congr fun x _ hhi => write32_apply_of_lt ?_,
    read32_write32_self _ _ (by decide), ?_⟩
  · rw [show (bytesOf "dev").length = 3 from rfl] at hhi
    unfold direntIno
    omega
  · have hall : SameOutside syms.dirent (syms.dirent + sizeofDirent) m m1 :=
      hbytes.mono (Nat.le_refl _)
        (Nat.add_le_add_left (show (literal "dev").length ≤ sizeofDirent by decide) _)
    have hnulled := hall.write8 (a := syms.dirent + 3) (v := 0) (Nat.le_add_right _ _)
      (Nat.add_lt_add_left (show 3 < sizeofDirent by decide) _)
    exact hnulled.write32 (Nat.le_add_right _ direntIno) (Nat.le_refl _)

theorem eq_dirent_of_initrdReaddir {e : Nat} (hpos : 0 < index) (hlt : index < 4294967296)
    (hbound : index ≤ syms.rootNodes)
    (hok : initrdReaddir syms g g.initrdRoot index m = .ok (e, m')) : e = syms.dirent := by
  unfold initrdReaddir at hok
  rw [if_neg (fun hzero => absurd hzero.2 (Nat.ne_of_gt hpos)), sub32_eq hpos hlt,
    if_neg (by omega), bind_eq_ok] at hok
  obtain ⟨⟨len, m1⟩, -, hok⟩ := hok
  obtain ⟨len', -, hret⟩ := bind_eq_ok.mp hok
  exact (Prod.mk.inj (Except.ok.inj hret)).1.symm

theorem initrdReaddir_beyond (hlt : index < 4294967296) (hbound : syms.rootNodes < index) :
    initrdReaddir syms g g.initrdRoot index m = .ok (0, m) := by
  unfold initrdReaddir
  rw [if_neg (fun hzero => absurd hzero.2 (by omega)), sub32_eq (by omega) hlt,
    if_pos (by omega)]

theorem Mounted.congr (h : Mounted syms g names m)
    (hsame : SameOutside syms.dirent (syms.dirent + sizeofDirent) m m') :
    Mounted syms g names m' := by
  obtain ⟨hroot, hcount, hfiles, hshort, hfit, hpos, hroot', hnodes⟩ := h
  refine ⟨hroot.congr (by decide) (hsame.sameOn hroot'), hcount, fun i s hs => ?_, hshort, hfit,
    hpos, hroot', hnodes⟩
  obtain ⟨hi, -⟩ := List.getElem?_eq_some_iff.mp hs
  have hlen := hshort s (List.mem_of_getElem? hs)
  obtain ⟨len, hfile⟩ := hfiles i s hs
  exact ⟨len, hfile.congr (by omega) (hsame.sameOn (by unfold sizeofDirent; omega))⟩

theorem Mounted.short_of (h : Mounted syms g names m) (hs : names[i]? = some s) : s.length ≤ 64 :=
  h.short s (List.mem_of_getElem? hs)

theorem Mounted.rootNode_eq (h : Mounted syms g names m) (hs : names[i]? = some s) :
    g.rootNode i = g.rootNodes + 184 * i ∧ g.rootNodes + 184 * i + 184 ≤ 4294967296 := by
  have hfit := h.nodes_fit
  obtain ⟨hi, -⟩ := List.getElem?_eq_some_iff.mp hs
  refine ⟨?_, by omega⟩
  unfold Initrd.rootNode sizeofFsNode
  rw [add32_eq (by omega)]

theorem Mounted.readdirFs_eq (h : Mounted syms g names m) (index : Nat) :
    readdirFs (readdirCode syms g) g.initrdRoot index m =
      some (initrdReaddir syms g g.initrdRoot index m) := by
  have hpos := syms.readdir_lt.1
  have hdirectory : read32 m (g.initrdRoot + fsFlags) &&& 0x7 = fsDirectory := by
    rw [h.root.flags]
    rfl
  unfold readdirFs
  rw [h.root.readdir, if_pos ⟨hdirectory, Nat.ne_of_gt hpos⟩, readdirCode, if_pos rfl]
  rfl

theorem Mounted.readdir_file (h : Mounted syms g names m) (hs : names[i]? = some s)
    (hbound : i < syms.rootNodes) :
    ∃ m', initrdReaddir syms g g.initrdRoot (i + 1) m = .ok (syms.dirent, m') ∧
      StringAt m' syms.dirent s ∧ read32 m' (syms.dirent + direntIno) = i ∧
      SameOutside syms.dirent (syms.dirent + sizeofDirent) m m' := by
  obtain ⟨hnode, hfit⟩ := h.rootNode_eq hs
  obtain ⟨hi, -⟩ := List.getElem?_eq_some_iff.mp hs
  have hlen := h.short_of hs
  obtain ⟨-, hdirent⟩ := syms.dirent_lt
  unfold sizeofDirent at hdirent
  have hapart := h.nodes_apart
  obtain ⟨len, hfile⟩ := h.files i s hs
  have hindex : sub32 (i + 1) 1 = i := by
    unfold sub32
    omega
  unfold initrdReaddir
  rw [if_neg (fun hzero => absurd hzero.2 (Nat.succ_ne_zero i)), hindex,
    if_neg (Nat.not_le_of_lt hbound), hnode]
  dsimp only
  have hentry : g.rootNodes + 184 * i + 184 ≤ syms.dirent ∨
      syms.dirent + 124 ≤ g.rootNodes + 184 * i := by omega
  generalize g.rootNodes + 184 * i = entry at hfile hfit hentry
  have hcopy : strcpy syms.dirent entry m =
      .ok (s.length + 1, copied syms.dirent entry (s.length + 1) m) :=
    strcpy_of_stringAt hfile.name (by omega) (by omega) (by omega)
  have hname : StringAt (copied syms.dirent entry (s.length + 1) m) syms.dirent s :=
    hfile.name.copied
  have hframe := sameOutside_copied syms.dirent entry (s.length + 1) m
  rw [hcopy, ok_bind]
  dsimp only
  generalize copied syms.dirent entry (s.length + 1) m = m1 at hname hframe
  have hkept : SameOn entry (entry + 184) m m1 := hframe.sameOn (by omega)
  have hlength := strlen_of_stringAt (hfile.name.congr (hkept.mono (Nat.le_refl _) (by omega)))
    (by omega)
  have hfile1 := hfile.congr (by omega) hkept
  rw [hlength, ok_bind, add32_eq (by omega)]
  have hall : SameOutside syms.dirent (syms.dirent + sizeofDirent) m
      (write8 m1 (syms.dirent + s.length) 0) :=
    (hframe.mono (Nat.le_refl _) (by unfold sizeofDirent; omega)).write8 (Nat.le_add_right _ _)
      (by unfold sizeofDirent; omega)
  have hino : read32 (write8 m1 (syms.dirent + s.length) 0) (entry + fsInode) = i := by
    rw [read32_write8_of_apart (by unfold fsInode; omega)]
    exact hfile1.inode
  refine ⟨_, rfl, hname.write8_nul.congr fun x _ hhi => write32_apply_of_lt ?_, ?_, ?_⟩
  · unfold direntIno
    omega
  · rw [hino]
    exact read32_write32_self _ _ (hino ▸ read32_lt _ _)
  · exact hall.write32 (Nat.le_add_right _ direntIno) (Nat.le_refl _)

theorem Mounted.answers (h : Mounted syms g names m) (hbound : index ≤ syms.rootNodes)
    (hindex : index ≤ names.length) :
    ∃ m', initrdReaddir syms g g.initrdRoot index m = .ok (syms.dirent, m') ∧
      SameOutside syms.dirent (syms.dirent + sizeofDirent) m m' ∧
      ∃ name ino, listing names index = some (name, ino) ∧ StringAt m' syms.dirent name ∧
        read32 m' (syms.dirent + direntIno) = ino := by
  cases index with
  | zero =>
      obtain ⟨m', hok, hname, hino, hframe⟩ := initrdReaddir_zero syms g m
      exact ⟨m', hok, hframe, _, _, rfl, hname, hino⟩
  | succ i =>
      have hs : names[i]? = some names[i] := List.getElem?_eq_getElem (by omega)
      obtain ⟨m', hok, hname, hino, hframe⟩ := h.readdir_file hs (by omega)
      exact ⟨m', hok, hframe, _, _, congrArg (Option.map fun s => (s, i)) hs, hname, hino⟩

theorem listing_eq_none (hindex : names.length < index) : listing names index = none := by
  cases index with
  | zero => exact absurd hindex (Nat.not_lt_zero _)
  | succ i => exact congrArg (Option.map fun s => (s, i)) (List.getElem?_eq_none (by omega))

/-- **Which indices are answered right**: all up to the last file, and all that the address of
`root_nodes` keeps out. -/
theorem Mounted.answers_iff (h : Mounted syms g names m) (hn : names.length < syms.rootNodes)
    (hlt : index < 4294967296) :
    Answers (readdirFs (readdirCode syms g) g.initrdRoot index m) (listing names index) ↔
      index ≤ names.length ∨ syms.rootNodes < index := by
  rw [h.readdirFs_eq index]
  constructor
  · rintro ⟨e, m', hsome, hentry⟩
    by_contra hpast
    rw [listing_eq_none (by omega)] at hentry
    have he := eq_dirent_of_initrdReaddir (by omega) hlt (by omega) (Option.some.inj hsome)
    have hpos := syms.dirent_lt.1
    omega
  · rintro (hle | hbeyond)
    · obtain ⟨m', hok, -, name, ino, hlisted, hname, hino⟩ := h.answers (by omega) hle
      refine ⟨syms.dirent, m', congrArg some hok, ?_⟩
      rw [hlisted]
      exact ⟨Nat.ne_of_gt syms.dirent_lt.1, hname, hino⟩
    · refine ⟨0, m, congrArg some (initrdReaddir_beyond hlt hbeyond), ?_⟩
      rw [listing_eq_none (by omega)]

/-- The memories that calls of `readdir_fs` on the root node lead to, with indices up to the last
file or beyond the bound. -/
inductive Listed (syms : Symbols) (g : Initrd) (n : Nat) (m0 : Mem) : Mem → Prop where
  | start : Listed syms g n m0 m0
  | call {m m' : Mem} (index e : Nat) : Listed syms g n m0 m → index < 4294967296 →
      (index ≤ n ∨ syms.rootNodes < index) →
      readdirFs (readdirCode syms g) g.initrdRoot index m = some (.ok (e, m')) →
      Listed syms g n m0 m'

theorem Mounted.listed {m0 : Mem} (h : Mounted syms g names m0) (hn : names.length < syms.rootNodes)
    (hcalls : Listed syms g names.length m0 m) : Mounted syms g names m := by
  induction hcalls with
  | start => exact h
  | call index e _ hlt hindex hsome ih =>
      rw [ih.readdirFs_eq index] at hsome
      rcases hindex with hle | hbeyond
      · obtain ⟨m', hok, hframe, -⟩ := ih.answers (by omega) hle
        obtain ⟨-, rfl⟩ := Prod.mk.inj (Except.ok.inj (hok.symm.trans (Option.some.inj hsome)))
        exact ih.congr hframe
      · rw [initrdReaddir_beyond hlt hbeyond] at hsome
        obtain ⟨-, rfl⟩ := Prod.mk.inj (Except.ok.inj (Option.some.inj hsome))
        exact ih

end Readdir

/-! ### Counting up the index -/

/-- `init_ramdisk` returns, and `readdir_fs` answers each index with the entry of that index, and
with 0 where there is none. -/
def Enumerated (syms : Symbols) (alloc : Kernel.Allocator) (loc n : Nat) (k : Kernel) : Prop :=
  ∃ g k', initRamdisk syms alloc loc k = .ok (g, k') ∧ ∀ index, index < 4294967296 →
    Answers (readdirFs (readdirCode syms g) g.initrdRoot index k'.mem)
      (listing (fileNames k.mem loc n) index)

section Enumeration

variable {syms : Symbols} {alloc : Kernel.Allocator} {loc n root dev nodes : Nat}
  {k k1 k2 k3 : Kernel}

/-- A root node that lists `dev` answers the index behind the last file as well. -/
theorem not_enumerated (hn : n < syms.rootNodes) (hlt : n + 1 < 4294967296) :
    ¬ Enumerated syms alloc loc n k := by
  rintro ⟨g, k', -, hall⟩
  have hlength := length_fileNames k.mem loc n
  obtain ⟨e, m, hzero, hdev⟩ := hall 0 (by decide)
  obtain ⟨e', m', hpast, hnone⟩ := hall (n + 1) hlt
  rw [listing_eq_none (by omega)] at hnone
  unfold readdirFs at hzero hpast
  split at hzero
  · rename_i hroot
    rw [if_pos hroot] at hpast
    obtain ⟨readdir, hcode, hcall⟩ := Option.map_eq_some_iff.mp hpast
    unfold readdirCode at hcode
    split at hcode
    · obtain rfl := Option.some.inj hcode
      have he := eq_dirent_of_initrdReaddir (Nat.succ_pos n) hlt hn hcall
      exact Nat.ne_of_gt syms.dirent_lt.1 (he.symm.trans hnone)
    · cases hcode
  · exact hdev.1 (Prod.mk.inj (Except.ok.inj (Option.some.inj hzero))).1.symm

/-- **No ramdisk is listed as it should be.** With names that end, `readdir_fs` answers an index
right, at any time, exactly if it is at most the number of files or above the address of the
variable `root_nodes`. -/
theorem RamdiskMemory.enumeration (h : RamdiskMemory syms alloc loc n k root dev nodes k1 k2 k3)
    (hn : n < syms.rootNodes) :
    ¬ Enumerated syms alloc loc n k ∧ ((∀ i, i < n → NameEnds k.mem loc i) →
      ∃ g k', initRamdisk syms alloc loc k = .ok (g, k') ∧
        ∀ m, Listed syms g n k'.mem m → ∀ index, index < 4294967296 →
          (Answers (readdirFs (readdirCode syms g) g.initrdRoot index m)
            (listing (fileNames k.mem loc n) index) ↔ index ≤ n ∨ syms.rootNodes < index)) := by
  have hfits := h.image_fits
  refine ⟨not_enumerated hn (by omega), fun hends => ?_⟩
  obtain ⟨g, k', hinit, hmounted, -⟩ := h.mounted hends
  have hlength := length_fileNames k.mem loc n
  refine ⟨g, k', hinit, fun m hcalls index hlt => ?_⟩
  have hnow := hmounted.listed (by omega) (hlength.symm ▸ hcalls)
  rw [hnow.answers_iff (by omega) hlt, hlength]

/-- One file called `a`: index 2 is not answered with 0. -/
theorem enumeration_smallImage :
    ¬ Enumerated linkMap (Kernel.alloc 8) 0x1000 1 (loadedKernel 1) ∧
      ∃ g k', initRamdisk linkMap (Kernel.alloc 8) 0x1000 (loadedKernel 1) = .ok (g, k') ∧
        ¬ Answers (readdirFs (readdirCode linkMap g) g.initrdRoot 2 k'.mem) none := by
  obtain ⟨k1, k2, k3, hmemory⟩ := ramdiskMemory_loadedKernel (Kernel.alloc 8) 1
  obtain ⟨hnot, hends⟩ := RamdiskMemory.enumeration hmemory (by decide)
  obtain ⟨g, k', hinit, hiff⟩ := hends nameEnds_loadedKernel
  refine ⟨hnot, g, k', hinit, fun hnull => ?_⟩
  have hindex := (hiff k'.mem Listed.start 2 (by decide)).mp hnull
  exact absurd hindex (by decide)

/-- The failing ramdisk is one that `init_ramdisk` returns, below the address of `root_nodes`. -/
theorem not_enumerated_smallImage :
    1 < linkMap.rootNodes ∧
      (∃ g k', initRamdisk linkMap (Kernel.alloc 8) 0x1000 (loadedKernel 1) = .ok (g, k')) ∧
      ¬ Enumerated linkMap (Kernel.alloc 8) 0x1000 1 (loadedKernel 1) := by
  obtain ⟨k1, k2, k3, hmemory⟩ := ramdiskMemory_loadedKernel (Kernel.alloc 8) 1
  obtain ⟨g, k', hinit, -⟩ := hmemory.mounted nameEnds_loadedKernel
  exact ⟨by decide, ⟨g, k', hinit⟩, not_enumerated (by decide) (by decide)⟩

end Enumeration

/-! ### `finddir_fs` -/

section Finddir

variable {syms : Symbols} {g : Initrd} {names : List (List UInt8)} {m : Mem} {i a : Nat}
  {s : List UInt8}

theorem strcmp_literal (hne : 0 ∉ s) :
    strcmp ((List.range (s.length + 1)).map fun i => m (a + i)) (s ++ [0]) = some 0 ↔
      StringAt m a s := by
  induction s generalizing a with
  | nil =>
      change (if m a ≠ 0 ∧ m a = 0 then strcmp [] [] else some ((m a).toNat - (0 : Nat) : Int)) =
        some 0 ↔ m a = 0
      rw [if_neg fun hboth => hboth.1 hboth.2, Option.some.injEq, ← UInt8.toNat_inj,
        UInt8.toNat_zero]
      omega
  | cons c s ih =>
      have hc : c ≠ 0 := (List.ne_of_not_mem_cons hne).symm
      have hrest := ih (a := a + 1) (List.not_mem_of_not_mem_cons hne)
      have hbytes : (List.range (s.length + 1 + 1)).map (fun i => m (a + i)) =
          m a :: (List.range (s.length + 1)).map fun i => m (a + 1 + i) := by
        rw [List.range_succ_eq_map, List.map_cons, List.map_map, Nat.add_zero]
        refine congrArg (List.cons (m a)) (List.map_congr_left fun i _ => ?_)
        exact congrArg m (by omega)
      rw [List.length_cons, hbytes, List.cons_append, strcmp]
      by_cases hsame : m a = c
      · rw [if_pos ⟨hsame ▸ hc, hsame⟩, hrest]
        exact ⟨fun hstring => ⟨hsame, hc, hstring⟩, fun hstring => hstring.2.2⟩
      · rw [if_neg fun hboth => hsame hboth.2, Option.some.injEq]
        refine iff_of_false (fun hzero => hsame ?_) fun hstring => hsame hstring.1
        exact UInt8.toNat_inj.mp (by omega)

theorem strcmp_dev (hfits : a + 4 ≤ 4294967296) :
    strcmp (fourBytes m a) (literal "dev") = some 0 ↔ StringAt m a (bytesOf "dev") := by
  have hbytes : fourBytes m a =
      (List.range ((bytesOf "dev").length + 1)).map fun i => m (a + i) := by
    refine List.map_congr_left fun i hi => congrArg m (add32_eq ?_)
    have hlt : i < 4 := List.mem_range.mp hi
    omega
  rw [hbytes]
  exact strcmp_literal (by decide)

theorem strcmp_dev_of_stringAt (hname : StringAt m a s) (hfits : a + s.length < 4294967296) :
    strcmp (fourBytes m a) (literal "dev") = some 0 ↔ s = bytesOf "dev" := by
  -- memory as a pointer sees it that wraps
  have hwrapped : StringAt (fun x => m (x % 4294967296)) a s :=
    hname.congr fun x _ hhi => congrArg m (Nat.mod_eq_of_lt (by omega))
  have hne : 0 ∉ bytesOf "dev" := by decide
  have hiff := strcmp_literal (m := fun x => m (x % 4294967296)) (a := a) hne
  exact hiff.trans ⟨hwrapped.unique, fun heq => heq ▸ hwrapped⟩

theorem Mounted.finddirFs_eq (h : Mounted syms g names m) (a : Nat) :
    finddirFs (finddirCode syms g) g.initrdRoot a m =
      some (initrdFinddir g g.initrdRoot a m) := by
  have hpos := syms.finddir_lt.1
  have hdirectory : read32 m (g.initrdRoot + fsFlags) &&& 0x7 = fsDirectory := by
    rw [h.root.flags]
    rfl
  unfold finddirFs
  rw [h.root.finddir, if_pos ⟨hdirectory, Nat.ne_of_gt hpos⟩, finddirCode, if_pos rfl]
  rfl

theorem Mounted.finddirLoop_eq (h : Mounted syms g names m) (hname : StringAt m a s)
    (hfits : a + 64 < 4294967296) {j rounds : Nat} (hs : names[j + i]? = some s)
    (hother : ∀ l, l < i → names[j + l]? ≠ some s) (hrounds : i < rounds) :
    finddirLoop g a m rounds j = .ok (g.rootNodes + 184 * (j + i)) := by
  induction i generalizing j rounds with
  | zero =>
      obtain ⟨rounds, rfl⟩ : ∃ r, rounds = r + 1 := ⟨rounds - 1, by omega⟩
      rw [Nat.add_zero] at hs
      obtain ⟨hnode, hfit⟩ := h.rootNode_eq hs
      obtain ⟨len, hfile⟩ := h.files j s hs
      have hshort := h.short_of hs
      obtain ⟨diff, hcmp, hdiff⟩ := strcmpAt_of_stringAt hname hfile.name (by omega) (by omega)
      rw [finddirLoop, hnode, hcmp, ok_bind, if_pos (hdiff.2.1.mpr rfl)]
      rfl
  | succ i ih =>
      obtain ⟨rounds, rfl⟩ : ∃ r, rounds = r + 1 := ⟨rounds - 1, by omega⟩
      have hin : j < names.length := by
        obtain ⟨hlt, -⟩ := List.getElem?_eq_some_iff.mp hs
        omega
      have ht : names[j]? = some names[j] := List.getElem?_eq_getElem hin
      obtain ⟨hnode, hfit⟩ := h.rootNode_eq ht
      obtain ⟨len, hfile⟩ := h.files j _ ht
      have hshort := h.short_of hs
      have hshort' := h.short_of ht
      obtain ⟨diff, hcmp, hdiff⟩ := strcmpAt_of_stringAt hname hfile.name (by omega) (by omega)
      have hne : diff ≠ 0 := by
        intro hzero
        refine hother 0 (Nat.succ_pos i) ?_
        rw [Nat.add_zero, hdiff.2.1.mp hzero]
        exact ht
      have hshift : ∀ l, j + 1 + l = j + (l + 1) := fun l => by omega
      have hrest : finddirLoop g a m rounds (j + 1) = .ok (g.rootNodes + 184 * (j + 1 + i)) := by
        refine ih ((hshift i).symm ▸ hs) (fun l hl => ?_) (by omega)
        rw [hshift l]
        exact hother (l + 1) (by omega)
      rw [finddirLoop, hnode, hcmp, ok_bind, if_neg hne, hrest]
      congr 2
      omega

/-- **A file is found by its name**, if no other has the same and it is not `dev`. -/
theorem Mounted.finddir_file (h : Mounted syms g names m) (hnodup : names.Nodup)
    (hdev : bytesOf "dev" ∉ names) (hs : names[i]? = some s) (hname : StringAt m a s)
    (hfits : a + 64 < 4294967296) :
    initrdFinddir g g.initrdRoot a m = .ok (g.rootNodes + 184 * i) := by
  obtain ⟨hi, -⟩ := List.getElem?_eq_some_iff.mp hs
  unfold initrdFinddir
  rw [if_neg, h.count]
  · rw [← Nat.zero_add i] at hs ⊢
    refine h.finddirLoop_eq hname hfits hs (fun l hl heq => ?_) hi
    have hsame := (List.getElem?_inj (by omega) hnodup).mp (heq.trans hs.symm)
    omega
  · rintro ⟨-, hcmp⟩
    have heq := hname.unique ((strcmp_dev (by omega)).mp hcmp)
    exact hdev (heq ▸ List.mem_of_getElem? hs)

/-- The name `dev` leads to the node that has never been initialised. -/
theorem initrdFinddir_dev (g : Initrd) (hname : StringAt m a (bytesOf "dev"))
    (hfits : a + 4 ≤ 4294967296) : initrdFinddir g g.initrdRoot a m = .ok g.initrdDev := by
  unfold initrdFinddir
  rw [if_pos ⟨rfl, (strcmp_dev hfits).mpr hname⟩]

end Finddir

/-! ### What is listed is found -/

/-- The entry of an index is found again by its name, as a node that fits it. -/
def FoundAgain (syms : Symbols) (g : Initrd) (index : Nat) (m : Mem) : Prop :=
  ∃ e m' name node,
    readdirFs (readdirCode syms g) g.initrdRoot index m = some (.ok (e, m')) ∧ e ≠ 0 ∧
      StringAt m' e name ∧
      finddirFs (finddirCode syms g) g.initrdRoot e m' = some (.ok node) ∧ node ≠ 0 ∧
      StringAt m' node name ∧ read32 m' (node + fsInode) = read32 m' (e + direntIno) ∧
      if index = 0 then
        read32 m' (node + fsFlags) &&& 0x7 = fsDirectory ∧ read32 m' (node + fsReaddir) ≠ 0 ∧
          read32 m' (node + fsFinddir) ≠ 0
      else read32 m' (node + fsFlags) &&& 0x7 = fsFile ∧ read32 m' (node + fsRead) ≠ 0

/-- `init_ramdisk` returns a directory named `initrd`, and what is listed in it is found. -/
def RamdiskOk (syms : Symbols) (alloc : Kernel.Allocator) (loc n : Nat) (k : Kernel) : Prop :=
  ∃ g k', initRamdisk syms alloc loc k = .ok (g, k') ∧
    StringAt k'.mem g.initrdRoot (bytesOf "initrd") ∧
    read32 k'.mem (g.initrdRoot + fsFlags) &&& 0x7 = fsDirectory ∧
    ∀ index, index ≤ n → FoundAgain syms g index k'.mem

/-- Bytes that happen to be a directory node named `dev`, with inode 0. -/
structure LooksLikeDev (node : Nat) (m : Mem) : Prop where
  name : StringAt m node (bytesOf "dev")
  inode : read32 m (node + fsInode) = 0
  flags : read32 m (node + fsFlags) &&& 0x7 = fsDirectory
  readdir : read32 m (node + fsReaddir) ≠ 0
  finddir : read32 m (node + fsFinddir) ≠ 0

section Found

variable {syms : Symbols} {g : Initrd} {names : List (List UInt8)} {m m' : Mem} {node index : Nat}

theorem LooksLikeDev.congr (h : LooksLikeDev node m)
    (hsame : SameOn node (node + sizeofFsNode) m m') : LooksLikeDev node m' := by
  have hword : ∀ off, off + 4 ≤ sizeofFsNode → read32 m' (node + off) = read32 m (node + off) :=
    fun off hoff => hsame.read32 (Nat.le_add_right node off) (by omega)
  have hname : SameOn node (node + (bytesOf "dev").length + 1) m m' :=
    hsame.mono (Nat.le_refl _) (Nat.add_le_add_left (show 3 + 1 ≤ sizeofFsNode by decide) node)
  exact ⟨h.name.congr hname,
    (hword fsInode (by decide)).trans h.inode, hword fsFlags (by decide) ▸ h.flags,
    hword fsReaddir (by decide) ▸ h.readdir, hword fsFinddir (by decide) ▸ h.finddir⟩

/-- A file is listed and found, if the bound lets its index pass. -/
theorem Mounted.foundAgain_iff (h : Mounted syms g names m) (hnodup : names.Nodup)
    (hdev : bytesOf "dev" ∉ names) (hpos : 0 < index) (hindex : index ≤ names.length)
    (hlt : index < 4294967296) : FoundAgain syms g index m ↔ index ≤ syms.rootNodes := by
  constructor
  · rintro ⟨e, m', name, node, hlist, he, -⟩
    by_contra hbeyond
    rw [h.readdirFs_eq index, initrdReaddir_beyond hlt (by omega)] at hlist
    exact he (Prod.mk.inj (Except.ok.inj (Option.some.inj hlist))).1.symm
  · intro hbound
    obtain ⟨i, rfl⟩ : ∃ i, index = i + 1 := ⟨index - 1, by omega⟩
    obtain ⟨m', hlist, hframe, name, ino, hentry, hname, hino⟩ := h.answers hbound hindex
    obtain ⟨s, hs, hpair⟩ := Option.map_eq_some_iff.mp hentry
    obtain ⟨rfl, rfl⟩ := Prod.mk.inj hpair
    have hnow := h.congr hframe
    obtain ⟨hdirent, hfits⟩ := syms.dirent_lt
    unfold sizeofDirent at hfits
    have hfound := hnow.finddir_file hnodup hdev hs hname (by omega)
    obtain ⟨len, hfile⟩ := hnow.files i s hs
    have hnode := h.nodes_pos
    have hread := syms.read_lt.1
    refine ⟨syms.dirent, m', s, _, ?_, by omega, hname, ?_, by omega, hfile.name,
      hfile.inode.trans hino.symm, ?_⟩
    · rw [h.readdirFs_eq, hlist]
    · rw [hnow.finddirFs_eq, hfound]
    · rw [if_neg (Nat.succ_ne_zero i), hfile.flags, hfile.read]
      exact ⟨rfl, by omega⟩

/-- `dev` is listed, and what is found is what lies in the block that nobody has initialised. -/
theorem Mounted.foundAgain_zero_iff (h : Mounted syms g names m) (hpos : 0 < g.initrdDev)
    (hapart : g.initrdDev + sizeofFsNode ≤ syms.dirent ∨
      syms.dirent + sizeofDirent ≤ g.initrdDev) :
    FoundAgain syms g 0 m ↔ LooksLikeDev g.initrdDev m := by
  obtain ⟨m', hlist, hname, hino, hframe⟩ := initrdReaddir_zero syms g m
  have hsame : SameOn g.initrdDev (g.initrdDev + sizeofFsNode) m m' := hframe.sameOn hapart
  have hback : SameOn g.initrdDev (g.initrdDev + sizeofFsNode) m' m :=
    fun x hlo hhi => (hsame x hlo hhi).symm
  have hnow := h.congr hframe
  obtain ⟨hdirent, hfits⟩ := syms.dirent_lt
  unfold sizeofDirent at hfits
  have hfound := initrdFinddir_dev g hname (by omega)
  constructor
  · rintro ⟨e, m1, name, node, hlist1, -, hname1, hfind, -, hnode, hinode, hkind⟩
    rw [h.readdirFs_eq, hlist] at hlist1
    obtain ⟨rfl, rfl⟩ := Prod.mk.inj (Except.ok.inj (Option.some.inj hlist1))
    rw [hnow.finddirFs_eq, hfound] at hfind
    obtain rfl := Except.ok.inj (Option.some.inj hfind)
    rw [if_pos rfl] at hkind
    obtain rfl := hname.unique hname1
    have hdev : LooksLikeDev g.initrdDev m' :=
      ⟨hnode, hinode.trans hino, hkind.1, hkind.2.1, hkind.2.2⟩
    exact hdev.congr hback
  · intro hdev
    obtain ⟨hnode, hinode, hflags, hreaddir, hfinddir⟩ := hdev.congr hsame
    refine ⟨syms.dirent, m', _, g.initrdDev, ?_, by omega, hname, ?_, by omega, hnode,
      hinode.trans hino.symm, ?_⟩
    · rw [h.readdirFs_eq, hlist]
    · rw [hnow.finddirFs_eq, hfound]
    · rw [if_pos rfl]
      exact ⟨hflags, hreaddir, hfinddir⟩

end Found

section Root

variable {syms : Symbols} {alloc : Kernel.Allocator} {loc n root dev nodes : Nat}
  {k k1 k2 k3 : Kernel}

namespace RamdiskMemory

theorem not_ramdiskOk (h : RamdiskMemory syms alloc loc n k root dev nodes k1 k2 k3)
    (hends : ∀ i, i < n → NameEnds k.mem loc i) : ¬ RamdiskOk syms alloc loc n k := by
  rintro ⟨g, k', hinit, hname, -⟩
  obtain ⟨g', k'', hinit', hmounted, -⟩ := h.mounted hends
  obtain ⟨rfl, rfl⟩ := Prod.mk.inj (Except.ok.inj (hinit.symm.trans hinit'))
  exact absurd (hname.unique hmounted.root.name) (by decide)

/-- **No ramdisk is set up as it should be**: the root is named `dev`. Every file is found again
that the bound of the list lets pass, and `dev` only if the memory for it already held such a node.
-/
theorem lookup (h : RamdiskMemory syms alloc loc n k root dev nodes k1 k2 k3)
    (hends : ∀ i, i < n → NameEnds k.mem loc i) (hnodup : (fileNames k.mem loc n).Nodup)
    (hdev : bytesOf "dev" ∉ fileNames k.mem loc n) :
    ¬ RamdiskOk syms alloc loc n k ∧ ∃ g k', initRamdisk syms alloc loc k = .ok (g, k') ∧
      DirNode syms (bytesOf "dev") g.initrdRoot k'.mem ∧
      (FoundAgain syms g 0 k'.mem ↔ LooksLikeDev dev k2.mem) ∧
      ∀ index, 0 < index → index ≤ n →
        (FoundAgain syms g index k'.mem ↔ index ≤ syms.rootNodes) := by
  refine ⟨h.not_ramdiskOk hends, ?_⟩
  obtain ⟨g, k', hinit, hmounted, -, rfl, hsame⟩ := h.mounted hends
  have hlength := length_fileNames k.mem loc n
  have hfits := h.image_fits
  have hstatic : (syms.dirent, sizeofDirent) ∈ inUse syms loc n :=
    List.mem_cons_of_mem _ List.mem_cons_self
  have hapart := h.dev_fresh.apart _ (List.mem_cons_of_mem _ hstatic)
  have hzero := hmounted.foundAgain_zero_iff h.dev_fresh.pos hapart.symm
  refine ⟨g, k', hinit, hmounted.root, hzero.trans ⟨fun hlooks => ?_, fun hlooks => ?_⟩, ?_⟩
  · exact hlooks.congr fun x hlo hhi => (hsame x hlo hhi).symm
  · exact hlooks.congr hsame
  · intro index hpos hindex
    exact hmounted.foundAgain_iff hnodup hdev hpos (by omega) (by omega)

end RamdiskMemory

theorem fileNames_loadedKernel : fileNames (loadedKernel 1).mem 0x1000 1 = [bytesOf "a"] := by
  decide

/-- Both files are found again. -/
theorem lookup_twoFiles :
    ¬ RamdiskOk linkMap (Kernel.alloc 8) 0x1000 2 twoFilesKernel ∧
      ∃ g k', initRamdisk linkMap (Kernel.alloc 8) 0x1000 twoFilesKernel = .ok (g, k') ∧
        FoundAgain linkMap g 1 k'.mem ∧ FoundAgain linkMap g 2 k'.mem := by
  obtain ⟨k1, k2, k3, hmemory⟩ := ramdiskMemory_twoFiles (Kernel.alloc 8)
  have hnames : fileNames twoFilesKernel.mem 0x1000 2 = [bytesOf "a", bytesOf "bc"] := by decide
  obtain ⟨hnot, g, k', hinit, -, -, hfiles⟩ :=
    RamdiskMemory.lookup hmemory nameEnds_twoFiles (by rw [hnames]; decide)
      (by rw [hnames]; decide)
  exact ⟨hnot, g, k', hinit, (hfiles 1 (by decide) (by decide)).mpr (by decide),
    (hfiles 2 (by decide) (by decide)).mpr (by decide)⟩

/-- One file, whose name is `a` and ends with a NUL. -/
theorem not_ramdiskOk_smallImage :
    fileNames (loadedKernel 1).mem 0x1000 1 = [bytesOf "a"] ∧
      (∀ i, i < 1 → NameEnds (loadedKernel 1).mem 0x1000 i) ∧
      (∃ g k', initRamdisk linkMap (Kernel.alloc 8) 0x1000 (loadedKernel 1) = .ok (g, k')) ∧
      ¬ RamdiskOk linkMap (Kernel.alloc 8) 0x1000 1 (loadedKernel 1) := by
  obtain ⟨k1, k2, k3, hmemory⟩ := ramdiskMemory_loadedKernel (Kernel.alloc 8) 1
  obtain ⟨g, k', hinit, -⟩ := hmemory.mounted nameEnds_loadedKernel
  exact ⟨fileNames_loadedKernel, nameEnds_loadedKernel, ⟨g, k', hinit⟩,
    hmemory.not_ramdiskOk nameEnds_loadedKernel⟩

end Root

end Vulcanos
