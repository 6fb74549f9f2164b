import Vulcanos.Kernel.Initrd
import Vulcanos.Proof.LibcString

/-!
# What `init_ramdisk` builds

The blocks that `kmalloc` returns overlap neither the image nor each other. Then each round of the
loop makes one node and rewrites one word of its header, and both are apart from all that the rounds
behind it read.
-/

namespace Vulcanos

open Memory Word

/-! ### The image -/

/-- Where the `i`-th file header of an image lies. -/
def headerAddr (loc i : Nat) : Nat := loc + 4 + 76 * i

/-- The name field of the `i`-th header: its bytes up to the first NUL, or all 64. -/
def fileName (m : Mem) (loc i : Nat) : List UInt8 := textIn m (headerAddr loc i + 1) 64

/-- There is a NUL in the name field of the `i`-th header, or right behind it. -/
def NameEnds (m : Mem) (loc i : Nat) : Prop := ∃ j, j ≤ 64 ∧ m (headerAddr loc i + 1 + j) = 0

/-! ### Nodes -/

/-- A node that is a directory of the ramdisk. -/
structure DirNode (syms : Symbols) (name : List UInt8) (node : Nat) (m : Mem) : Prop where
  name : StringAt m node name
  flags : read32 m (node + fsFlags) = fsDirectory
  readdir : read32 m (node + fsReaddir) = syms.initrdReaddir
  finddir : read32 m (node + fsFinddir) = syms.initrdFinddir

/-- A node that is a file of the ramdisk. -/
structure FileNode (syms : Symbols) (name : List UInt8) (length inode node : Nat) (m : Mem) :
    Prop where
  name : StringAt m node name
  flags : read32 m (node + fsFlags) = fsFile
  inode : read32 m (node + fsInode) = inode
  length : read32 m (node + fsLength) = length
  read : read32 m (node + fsRead) = syms.initrdRead

section Nodes

variable {syms : Symbols} {name : List UInt8} {node length inode : Nat} {m m' : Mem}

theorem DirNode.congr (h : DirNode syms name node m) (hname : name.length < 128)
    (hsame : SameOn node (node + 184) m m') : DirNode syms name node m' := by
  have hword : ∀ off, off + 4 ≤ 184 → read32 m' (node + off) = read32 m (node + off) :=
    fun off hoff => hsame.read32 (Nat.le_add_right node off) (by omega)
  exact ⟨h.name.congr (hsame.mono (Nat.le_refl _) (by omega)),
    (hword fsFlags (by decide)).trans h.flags, (hword fsReaddir (by decide)).trans h.readdir,
    (hword fsFinddir (by decide)).trans h.finddir⟩

theorem FileNode.congr (h : FileNode syms name length inode node m) (hname : name.length < 128)
    (hsame : SameOn node (node + 184) m m') : FileNode syms name length inode node m' := by
  have hword : ∀ off, off + 4 ≤ 184 → read32 m' (node + off) = read32 m (node + off) :=
    fun off hoff => hsame.read32 (Nat.le_add_right node off) (by omega)
  exact ⟨h.name.congr (hsame.mono (Nat.le_refl _) (by omega)),
    (hword fsFlags (by decide)).trans h.flags, (hword fsInode (by decide)).trans h.inode,
    (hword fsLength (by decide)).trans h.length, (hword fsRead (by decide)).trans h.read⟩

theorem initDirectory_spec (syms : Symbols) (node : Nat) (m : Mem) (hlen : name.length < 128)
    (hne : 0 ∉ name) :
    DirNode syms name node (initDirectory syms node name m) ∧
      SameOutside node (node + 184) m (initDirectory syms node name m) := by
  obtain ⟨hreaddir, hreaddir'⟩ := syms.readdir_lt
  obtain ⟨hfinddir, hfinddir'⟩ := syms.finddir_lt
  have hstring : StringAt (writeBytes node (name ++ [0]) m) node name := stringAt_writeBytes hne
  have hbytes := sameOutside_writeBytes node (name ++ [0]) m
  rw [List.length_append, List.length_singleton] at hbytes
  unfold initDirectory
  dsimp only
  generalize hws : [(fsLength, 0), (fsInode, 0), (fsGid, 0), (fsUid, 0), (fsMask, 0),
    (fsFlags, fsDirectory), (fsRead, 0), (fsWrite, 0), (fsOpen, 0), (fsClose, 0),
    (fsReaddir, syms.initrdReaddir), (fsFinddir, syms.initrdFinddir), (fsPtr, 0), (fsImpl, 0)] = ws
  have hapart : ws.Pairwise fun v w => v.1 + 4 ≤ w.1 ∨ w.1 + 4 ≤ v.1 := by
    subst hws
    simp [fsLength, fsInode, fsGid, fsUid, fsMask, fsFlags, fsRead, fsWrite, fsOpen, fsClose,
      fsReaddir, fsFinddir, fsPtr, fsImpl]
  have hin : ∀ w ∈ ws, 128 ≤ w.1 ∧ w.1 + 4 ≤ 184 := by
    subst hws
    simp [fsLength, fsInode, fsGid, fsUid, fsMask, fsFlags, fsRead, fsWrite, fsOpen, fsClose,
      fsReaddir, fsFinddir, fsPtr, fsImpl]
  have hwords := sameOutside_writeWords (m := writeBytes node (name ++ [0]) m) (a := node) hin
  refine ⟨⟨hstring.congr (hwords.sameOn (Or.inl (by omega))), ?_, ?_, ?_⟩, ?_⟩
  · exact read32_writeWords (w := (fsFlags, fsDirectory)) (by simp [← hws]) (by decide) hapart
  · exact read32_writeWords (w := (fsReaddir, syms.initrdReaddir)) (by simp [← hws]) hreaddir'
      hapart
  · exact read32_writeWords (w := (fsFinddir, syms.initrdFinddir)) (by simp [← hws]) hfinddir'
      hapart
  · exact (hbytes.mono (Nat.le_refl _) (by omega)).trans
      (hwords.mono (Nat.le_add_right node 128) (Nat.le_refl _))

end Nodes

/-! ### One file -/

section File

variable {syms : Symbols} {g : Initrd} {loc i h node : Nat} {copies copies' : List StringCopy}
  {m m' : Mem}

/-- Header and node are objects that do not overlap. -/
structure FilePlaces (g : Initrd) (i h node : Nat) : Prop where
  header_eq : g.fileHeader i = h
  node_eq : g.rootNode i = node
  header_fits : h + 76 ≤ 4294967296
  node_fits : node + 184 ≤ 4294967296
  apart : h + 76 ≤ node ∨ node + 184 ≤ h
  index_lt : i < 4294967296

theorem initFile_of_ends (hplaces : FilePlaces g i h node)
    (hends : ∃ j, j ≤ 64 ∧ m (h + 1 + j) = 0) :
    ∃ m', initFile syms g loc i copies m =
        .ok (copies ++ [⟨node, h + 1, (textIn m (h + 1) 64).length + 1⟩], m') ∧
      FileNode syms (textIn m (h + 1) 64) (read32 m (h + 72)) i node m' ∧
      read32 m' (h + 68) = add32 (read32 m (h + 68)) loc ∧
      ∀ x, (x < h + 68 ∨ h + 72 ≤ x) → (x < node ∨ node + 184 ≤ x) → m' x = m x := by
  obtain ⟨hheader, hnode, hfits, hfits', hapart, hindex⟩ := hplaces
  obtain ⟨hread, hread'⟩ := syms.read_lt
  have hlen := length_textIn_le m (h + 1) 64
  generalize hm1 : write32 m (h + 68) (add32 (read32 m (h + 68)) loc) = m1
  have hframe1 : ∀ x, (x < h + 68 ∨ h + 72 ≤ x) → m1 x = m x := by
    intro x hx
    rw [← hm1]
    rcases hx with hlt | hge
    · exact write32_apply_of_lt hlt
    · exact write32_apply_of_ge hge
  have hoffset : read32 m1 (h + 68) = add32 (read32 m (h + 68)) loc := by
    rw [← hm1]
    exact read32_write32_self m (h + 68) (add32_lt _ _)
  have hname : StringAt m1 (h + 1) (textIn m (h + 1) 64) :=
    (stringAt_textIn hends).congr fun x _ hhi => hframe1 x (by omega)
  generalize textIn m (h + 1) 64 = s at hlen hname ⊢
  have hcopy : strcpy node (h + 1) m1 = .ok (s.length + 1, copied node (h + 1) (s.length + 1) m1) :=
    strcpy_of_stringAt hname (by omega) (by omega) (by omega)
  -- the node has its name
  have hnamed : StringAt (copied node (h + 1) (s.length + 1) m1) node s := hname.copied
  have hframe2 := sameOutside_copied node (h + 1) (s.length + 1) m1
  generalize copied node (h + 1) (s.length + 1) m1 = m2 at hcopy hnamed hframe2
  have hin3 : ∀ w ∈ [(fsGid, 0), (fsUid, 0), (fsMask, 0)], 128 ≤ w.1 ∧ w.1 + 4 ≤ 184 := by
    simp [fsGid, fsUid, fsMask]
  have hframe3 := sameOutside_writeWords (m := m2) (a := node) hin3
  generalize hm3 : writeWords node [(fsGid, 0), (fsUid, 0), (fsMask, 0)] m2 = m3 at hframe3
  -- the length is not touched before it is read
  have hlength : read32 m3 (h + 72) = read32 m (h + 72) := by
    have h23 : SameOn (h + 72) (h + 76) m2 m3 := hframe3.sameOn (by omega)
    have h12 : SameOn (h + 72) (h + 76) m1 m2 := hframe2.sameOn (by omega)
    have h01 : SameOn (h + 72) (h + 76) m m1 := fun x hlo _ => hframe1 x (Or.inr hlo)
    exact ((h01.trans h12).trans h23).read32 (Nat.le_refl _) (Nat.le_refl _)
  generalize hws : [(fsLength, read32 m3 (h + 72)), (fsInode, i), (fsFlags, fsFile),
    (fsRead, syms.initrdRead), (fsWrite, 0), (fsReaddir, 0), (fsFinddir, 0), (fsOpen, 0),
    (fsClose, 0), (fsImpl, 0)] = ws
  have hapart4 : ws.Pairwise fun v w => v.1 + 4 ≤ w.1 ∨ w.1 + 4 ≤ v.1 := by
    subst hws
    simp [fsLength, fsInode, fsFlags, fsRead, fsWrite, fsOpen, fsClose, fsReaddir, fsFinddir,
      fsImpl]
  have hin4 : ∀ w ∈ ws, 128 ≤ w.1 ∧ w.1 + 4 ≤ 184 := by
    subst hws
    simp [fsLength, fsInode, fsFlags, fsRead, fsWrite, fsOpen, fsClose, fsReaddir, fsFinddir,
      fsImpl]
  have hframe4 := sameOutside_writeWords (m := m3) (a := node) hin4
  refine ⟨writeWords node ws m3, ?_, ⟨?_, ?_, ?_, ?_, ?_⟩, ?_, fun x hx hx' => ?_⟩
  · unfold initFile
    dsimp only
    rw [hheader, hnode, show h + headerOffset = h + 68 from rfl, hm1,
      show h + headerName = h + 1 from rfl, hcopy, ok_bind]
    dsimp only
    rw [hm3, show h + headerLength = h + 72 from rfl, hws]
  · refine hnamed.congr ?_
    exact (hframe3.trans hframe4).sameOn (Or.inl (by omega))
  · exact read32_writeWords (w := (fsFlags, fsFile)) (by simp [← hws]) (by decide) hapart4
  · exact read32_writeWords (w := (fsInode, i)) (by simp [← hws]) hindex hapart4
  · rw [← hlength]
    exact read32_writeWords (w := (fsLength, read32 m3 (h + 72))) (by simp [← hws])
      (read32_lt _ _) hapart4
  · exact read32_writeWords (w := (fsRead, syms.initrdRead)) (by simp [← hws]) hread' hapart4
  · have h12 : SameOn (h + 68) (h + 72) m1 m2 := hframe2.sameOn (by omega)
    have h23 : SameOn (h + 68) (h + 72) m2 m3 := hframe3.sameOn (by omega)
    have h34 : SameOn (h + 68) (h + 72) m3 (writeWords node ws m3) := hframe4.sameOn (by omega)
    rw [← hoffset]
    exact ((h12.trans h23).trans h34).read32 (Nat.le_refl _) (Nat.le_refl _)
  · rw [hframe4 x (by omega), hframe3 x (by omega), hframe2 x (by omega), hframe1 x hx]

/-- A round that finds no end of the name copies more than the 64 bytes and a NUL. -/
theorem len_initFile (hplaces : FilePlaces g i h node)
    (hends : ∀ j, j ≤ 64 → m (h + 1 + j) ≠ 0)
    (hok : initFile syms g loc i copies m = .ok (copies', m')) :
    ∃ c, copies' = copies ++ [c] ∧ 65 < c.len := by
  obtain ⟨hheader, hnode, hfits, hfits', hapart, -⟩ := hplaces
  unfold initFile at hok
  dsimp only at hok
  rw [hheader, hnode, show h + headerOffset = h + 68 from rfl,
    show h + headerName = h + 1 from rfl, bind_eq_ok] at hok
  obtain ⟨⟨len, m1⟩, hcopy, hret⟩ := hok
  obtain ⟨rfl, -⟩ := Prod.mk.inj (Except.ok.inj hret)
  refine ⟨_, rfl, lt_of_strcpy (fun j hj => ?_) (by omega) (by omega) (by omega) hcopy⟩
  rw [write32_apply_of_lt (by omega)]
  exact hends j (by omega)

end File

/-! ### The loop -/

/-- The image and the nodes are in memory, and do not overlap. -/
structure Table (g : Initrd) (loc n nodes : Nat) : Prop where
  initrdHeader : g.initrdHeader = loc
  fileHeaders : g.fileHeaders = add32 loc 4
  rootNodes : g.rootNodes = nodes
  image_fits : loc + 4 + 76 * n ≤ 4294967296
  nodes_fits : nodes + 184 * n ≤ 4294967296
  apart : loc + 4 + 76 * n ≤ nodes ∨ nodes + 184 * n ≤ loc

/-- What `strcpy` copies for the `j`-th node, if the name ends. -/
def nameCopy (m : Mem) (loc nodes j : Nat) : StringCopy :=
  ⟨nodes + 184 * j, headerAddr loc j + 1, (fileName m loc j).length + 1⟩

/-- After `i` rounds from the memory `m0` on, all of whose names have ended. -/
structure Progress (syms : Symbols) (loc n nodes : Nat) (m0 : Mem) (i : Nat)
    (copies : List StringCopy) (m : Mem) : Prop where
  frame : ∀ x, (x < nodes ∨ nodes + 184 * n ≤ x) →
    (∀ j, j < i → x < headerAddr loc j + 68 ∨ headerAddr loc j + 72 ≤ x) → m x = m0 x
  files : ∀ j, j < i → FileNode syms (fileName m0 loc j) (read32 m0 (headerAddr loc j + 72)) j
    (nodes + 184 * j) m
  offsets : ∀ j, j < i → read32 m (headerAddr loc j + 68) =
    add32 (read32 m0 (headerAddr loc j + 68)) loc
  copies : copies = (List.range i).map (nameCopy m0 loc nodes)

section Loop

variable {syms : Symbols} {g : Initrd} {loc n nodes i rounds : Nat} {m0 m m' : Mem}
  {copies copies' : List StringCopy}

theorem Table.places (h : Table g loc n nodes) (hi : i < n) :
    FilePlaces g i (headerAddr loc i) (nodes + 184 * i) := by
  obtain ⟨-, hheaders, hnodes, hfits, hfits', hapart⟩ := h
  unfold headerAddr
  refine ⟨?_, ?_, by omega, by omega, by omega, by omega⟩
  · unfold Initrd.fileHeader sizeofFileHeader
    rw [hheaders, add32_eq (a := loc) (by omega), add32_eq (by omega)]
  · unfold Initrd.rootNode sizeofFsNode
    rw [hnodes, add32_eq (by omega)]

namespace Progress

theorem start (m0 : Mem) : Progress syms loc n nodes m0 0 [] m0 :=
  ⟨fun _ _ _ => rfl, fun _ hj => absurd hj (Nat.not_lt_zero _),
    fun _ hj => absurd hj (Nat.not_lt_zero _), rfl⟩

theorem image (h : Progress syms loc n nodes m0 i copies m) (ht : Table g loc n nodes) {a : Nat}
    (hlo : loc ≤ a) (hhi : a < loc + 4 + 76 * n) (hpast : a < loc + 4 ∨ headerAddr loc i ≤ a) :
    m a = m0 a := by
  have hapart := ht.apart
  refine h.frame a (by omega) fun j hj => ?_
  unfold headerAddr at hpast ⊢
  omega

theorem nfiles (h : Progress syms loc n nodes m0 i copies m) (ht : Table g loc n nodes)
    (hn : read32 m0 loc = n) : read32 m g.initrdHeader = n := by
  rw [ht.initrdHeader, ← hn]
  have hsame : SameOn loc (loc + 4) m0 m :=
    fun a hlo hhi => h.image ht hlo (by omega) (Or.inl hhi)
  exact hsame.read32 (Nat.le_refl _) (Nat.le_refl _)

theorem header (h : Progress syms loc n nodes m0 i copies m) (ht : Table g loc n nodes)
    (hi : i < n) : SameOn (headerAddr loc i) (headerAddr loc i + 76) m0 m := by
  intro a hlo hhi
  refine h.image ht ?_ ?_ (Or.inr hlo) <;> unfold headerAddr at hlo hhi <;> omega

theorem round (h : Progress syms loc n nodes m0 i copies m) (ht : Table g loc n nodes)
    (hi : i < n) (hends : NameEnds m0 loc i) :
    ∃ copies' m', initFile syms g loc i copies m = .ok (copies', m') ∧
      Progress syms loc n nodes m0 (i + 1) copies' m' := by
  have hplaces := ht.places hi
  have hheader := h.header ht hi
  obtain ⟨j, hj, hnul⟩ := hends
  have hends' : ∃ j, j ≤ 64 ∧ m (headerAddr loc i + 1 + j) = 0 :=
    ⟨j, hj, (hheader _ (by omega) (by omega)).trans hnul⟩
  obtain ⟨m', hround, hfile, hoffset, hframe⟩ := initFile_of_ends hplaces hends'
  have hname : textIn m (headerAddr loc i + 1) 64 = fileName m0 loc i :=
    textIn_congr (hheader.mono (by omega) (by omega))
  have hlength : read32 m (headerAddr loc i + 72) = read32 m0 (headerAddr loc i + 72) :=
    hheader.read32 (by omega) (by omega)
  rw [hname] at hround hfile
  have hword : read32 m (headerAddr loc i + 68) = read32 m0 (headerAddr loc i + 68) :=
    hheader.read32 (by omega) (by omega)
  rw [hlength] at hfile
  rw [hword] at hoffset
  refine ⟨_, m', hround, fun x hx hx' => ?_, fun j hj => ?_, fun j hj => ?_, ?_⟩
  · rw [hframe x (hx' i (Nat.lt_succ_self i)) (by omega)]
    exact h.frame x hx fun j hj => hx' j (by omega)
  · rcases Nat.lt_succ_iff_lt_or_eq.mp hj with hlt | rfl
    · -- the nodes before are apart from the new one and from the header
      have hlen := length_textIn_le m0 (headerAddr loc j + 1) 64
      have hapart := ht.apart
      refine (h.files j hlt).congr (Nat.lt_of_le_of_lt hlen (by decide)) fun x hlo hhi => ?_
      refine hframe x ?_ (by omega)
      unfold headerAddr
      omega
    · exact hfile
  · rcases Nat.lt_succ_iff_lt_or_eq.mp hj with hlt | rfl
    · have hapart := ht.apart
      have hkept : SameOn (headerAddr loc j + 68) (headerAddr loc j + 72) m m' := by
        intro x hlo hhi
        unfold headerAddr at hlo hhi
        refine hframe x ?_ (by omega)
        unfold headerAddr
        omega
      rw [hkept.read32 (Nat.le_refl _) (Nat.le_refl _)]
      exact h.offsets j hlt
    · exact hoffset
  · rw [List.range_succ, List.map_append, ← h.copies]
    rfl

end Progress

theorem initFiles_of_ends (syms : Symbols) (ht : Table g loc n nodes)
    (hn : read32 m0 loc = n) (hi : i ≤ n) (hends : ∀ j, j < i → NameEnds m0 loc j) :
    ∃ copies m, Progress syms loc n nodes m0 i copies m ∧ ∀ rounds,
      initFiles syms g loc (i + rounds) 0 [] m0 = initFiles syms g loc rounds i copies m := by
  induction i with
  | zero => exact ⟨[], m0, Progress.start m0, fun rounds => by rw [Nat.zero_add]⟩
  | succ i ih =>
      obtain ⟨copies, m, hprogress, hloop⟩ := ih (by omega) fun j hj => hends j (by omega)
      obtain ⟨copies', m', hround, hnext⟩ :=
        hprogress.round ht (by omega) (hends i (Nat.lt_succ_self i))
      refine ⟨copies', m', hnext, fun rounds => ?_⟩
      have hmore : i < read32 m g.initrdHeader := by
        rw [hprogress.nfiles ht hn]
        omega
      rw [show i + 1 + rounds = i + (rounds + 1) by omega, hloop, initFiles, if_pos hmore, hround,
        ok_bind]

theorem initFiles_of_all_end (syms : Symbols) (ht : Table g loc n nodes) (hn : read32 m0 loc = n)
    (hends : ∀ j, j < n → NameEnds m0 loc j) :
    ∃ copies m, initFiles syms g loc addressSpace 0 [] m0 = .ok (copies, m) ∧
      Progress syms loc n nodes m0 n copies m := by
  obtain ⟨copies, m, hprogress, hloop⟩ :=
    initFiles_of_ends syms ht hn (Nat.le_refl n) hends
  have hlt : n < addressSpace := hn ▸ read32_lt m0 loc
  have hrounds := hloop (addressSpace - n)
  rw [Nat.add_sub_cancel' (Nat.le_of_lt hlt)] at hrounds
  refine ⟨copies, m, hrounds.trans ?_, hprogress⟩
  obtain ⟨rounds, hrest⟩ : ∃ r, addressSpace - n = r + 1 := ⟨addressSpace - n - 1, by omega⟩
  rw [hrest, initFiles, if_neg (by rw [hprogress.nfiles ht hn]; exact Nat.lt_irrefl n)]

theorem prefix_initFiles (h : initFiles syms g loc rounds i copies m = .ok (copies', m')) :
    copies <+: copies' := by
  induction rounds generalizing i copies m with
  | zero =>
      obtain ⟨rfl, -⟩ := Prod.mk.inj (Except.ok.inj h)
      exact List.prefix_refl _
  | succ rounds ih =>
      rw [initFiles] at h
      split at h
      · obtain ⟨⟨copies1, m1⟩, hround, hrest⟩ := bind_eq_ok.mp h
        refine List.IsPrefix.trans ?_ (ih hrest)
        unfold initFile at hround
        obtain ⟨⟨len, m2⟩, -, hret⟩ := bind_eq_ok.mp hround
        obtain ⟨rfl, -⟩ := Prod.mk.inj (Except.ok.inj hret)
        exact List.prefix_append _ _
      · obtain ⟨rfl, -⟩ := Prod.mk.inj (Except.ok.inj h)
        exact List.prefix_refl _

theorem initFiles_overlong (ht : Table g loc n nodes) (hn : read32 m0 loc = n) (hi : i < n)
    (hends : ∀ j, j < i → NameEnds m0 loc j) (hlong : ¬ NameEnds m0 loc i)
    (h : initFiles syms g loc addressSpace 0 [] m0 = .ok (copies', m')) :
    ∃ c, copies'[i]? = some c ∧ 65 < c.len := by
  obtain ⟨copies, m, hprogress, hloop⟩ :=
    initFiles_of_ends syms ht hn (Nat.le_of_lt hi) hends
  have hlt : n < addressSpace := hn ▸ read32_lt m0 loc
  obtain ⟨rounds, hrest⟩ : ∃ r, addressSpace = i + (r + 1) := ⟨addressSpace - i - 1, by omega⟩
  have hmore : i < read32 m g.initrdHeader := by
    rw [hprogress.nfiles ht hn]
    exact hi
  rw [hrest, hloop, initFiles, if_pos hmore, bind_eq_ok] at h
  obtain ⟨⟨copies1, m1⟩, hround, hafter⟩ := h
  have hbytes : ∀ j, j ≤ 64 → m (headerAddr loc i + 1 + j) ≠ 0 := by
    intro j hj hnul
    have hsame := hprogress.header ht hi (headerAddr loc i + 1 + j) (by omega) (by omega)
    exact hlong ⟨j, hj, hsame.symm.trans hnul⟩
  obtain ⟨c, rfl, hlen⟩ := len_initFile (ht.places hi) hbytes hround
  have hlength : copies.length = i := by
    rw [hprogress.copies, List.length_map, List.length_range]
  refine ⟨c, ?_, hlen⟩
  obtain ⟨tail, rfl⟩ := prefix_initFiles hafter
  rw [List.append_assoc, List.getElem?_append_right (Nat.le_of_eq hlength), hlength, Nat.sub_self]
  rfl

end Loop

/-! ### `kmalloc` -/

/-- Memory that `kmalloc` returns: in the address space, and apart from the regions in use, whose
bytes the call leaves alone. -/
structure FreshBlock (used : List (Nat × Nat)) (k : Kernel) (size p : Nat) (k' : Kernel) :
    Prop where
  pos : 0 < p
  fits : p + size ≤ 4294967296
  apart : ∀ u ∈ used, u.1 + u.2 ≤ p ∨ p + size ≤ u.1
  same : ∀ u ∈ used, SameOn u.1 (u.1 + u.2) k.mem k'.mem

/-- The image and the static `dirent`. -/
def inUse (syms : Symbols) (loc n : Nat) : List (Nat × Nat) :=
  [(loc, 4 + 76 * n), (syms.dirent, sizeofDirent)]

/-- The kernel after a block of assignments to the root node. -/
def rooted (syms : Symbols) (root : Nat) (name : List UInt8) (k : Kernel) : Kernel :=
  { k with mem := initDirectory syms root name k.mem }

/-- An image of `n` files in memory, and the three calls of `kmalloc` that `init_ramdisk` makes:
each returns fresh memory, the last one for `n` nodes. -/
structure RamdiskMemory (syms : Symbols) (alloc : Kernel.Allocator) (loc n : Nat) (k : Kernel)
    (root dev nodes : Nat) (k1 k2 k3 : Kernel) : Prop where
  nfiles : read32 k.mem loc = n
  image_fits : loc + 4 + 76 * n ≤ 4294967296
  root_call : Kernel.kmalloc alloc sizeofFsNode k = .ok (root, none, k1)
  root_fresh : FreshBlock (inUse syms loc n) k sizeofFsNode root k1
  dev_call : Kernel.kmalloc alloc sizeofFsNode (rooted syms root (bytesOf "initrd") k1) =
    .ok (dev, none, k2)
  dev_fresh : FreshBlock ((root, sizeofFsNode) :: inUse syms loc n)
    (rooted syms root (bytesOf "initrd") k1) sizeofFsNode dev k2
  nodes_call : Kernel.kmalloc alloc (sizeofFsNode * n % 4294967296)
    (rooted syms root (bytesOf "dev") k2) = .ok (nodes, none, k3)
  nodes_fresh : FreshBlock ((dev, sizeofFsNode) :: (root, sizeofFsNode) :: inUse syms loc n)
    (rooted syms root (bytesOf "dev") k2) (sizeofFsNode * n) nodes k3

/-- The variables when the loop begins. -/
def initrdVars (loc n root dev nodes : Nat) : Initrd :=
  { initrdHeader := loc, fileHeaders := add32 loc sizeofInitrdHeader, initrdRoot := root
    initrdDev := dev, rootNodes := nodes, nrootNodes := n, copies := [] }

section Memory

variable {syms : Symbols} {alloc : Kernel.Allocator} {loc n root dev nodes : Nat}
  {k k1 k2 k3 : Kernel}

theorem mem_rooted (syms : Symbols) (root : Nat) (name : List UInt8) (k : Kernel) :
    (rooted syms root name k).mem = initDirectory syms root name k.mem := rfl

namespace RamdiskMemory

theorem sameOn_rooted {a len : Nat} {name : List UInt8} (hlen : name.length < 128)
    (hne : 0 ∉ name) (hapart : a + len ≤ root ∨ root + sizeofFsNode ≤ a) (k : Kernel) :
    SameOn a (a + len) k.mem (rooted syms root name k).mem :=
  (initDirectory_spec syms root k.mem hlen hne).2.sameOn hapart

theorem image (h : RamdiskMemory syms alloc loc n k root dev nodes k1 k2 k3) :
    SameOn loc (loc + (4 + 76 * n)) k.mem k3.mem := by
  have hin : (loc, 4 + 76 * n) ∈ inUse syms loc n := List.mem_cons_self
  have hapart := h.root_fresh.apart _ hin
  have h1 := h.root_fresh.same _ hin
  have h2 := h.dev_fresh.same _ (List.mem_cons_of_mem _ hin)
  have h3 := h.nodes_fresh.same _ (List.mem_cons_of_mem _ (List.mem_cons_of_mem _ hin))
  have hinitrd : SameOn loc (loc + (4 + 76 * n)) k1.mem
      (rooted syms root (bytesOf "initrd") k1).mem :=
    sameOn_rooted (by decide) (by decide) hapart k1
  have hdev : SameOn loc (loc + (4 + 76 * n)) k2.mem (rooted syms root (bytesOf "dev") k2).mem :=
    sameOn_rooted (by decide) (by decide) hapart k2
  exact (((h1.trans hinitrd).trans h2).trans hdev).trans h3

theorem image_read32 (h : RamdiskMemory syms alloc loc n k root dev nodes k1 k2 k3) :
    read32 k3.mem loc = n :=
  (h.image.read32 (Nat.le_refl _) (by omega)).trans h.nfiles

theorem nameEnds_iff (h : RamdiskMemory syms alloc loc n k root dev nodes k1 k2 k3) {i : Nat}
    (hi : i < n) : NameEnds k3.mem loc i ↔ NameEnds k.mem loc i := by
  unfold NameEnds headerAddr
  refine exists_congr fun j => and_congr_right fun hj => ?_
  rw [h.image _ (by omega) (by omega)]

theorem fileName_eq (h : RamdiskMemory syms alloc loc n k root dev nodes k1 k2 k3) {i : Nat}
    (hi : i < n) : fileName k3.mem loc i = fileName k.mem loc i := by
  refine textIn_congr (h.image.mono ?_ ?_) <;> unfold headerAddr <;> omega

theorem table (h : RamdiskMemory syms alloc loc n k root dev nodes k1 k2 k3) :
    Table (initrdVars loc n root dev nodes) loc n nodes := by
  have hfresh := h.nodes_fresh
  have hin : (loc, 4 + 76 * n) ∈ inUse syms loc n := List.mem_cons_self
  have hapart := hfresh.apart _ (List.mem_cons_of_mem _ (List.mem_cons_of_mem _ hin))
  exact ⟨rfl, rfl, rfl, h.image_fits, hfresh.fits, by dsimp only [sizeofFsNode] at hapart; omega⟩

/-- **The root node** has been made twice, the second time under the name of the other directory.
-/
theorem root_node (h : RamdiskMemory syms alloc loc n k root dev nodes k1 k2 k3) :
    DirNode syms (bytesOf "dev") root k3.mem := by
  have hmade := (initDirectory_spec syms root k2.mem (show (bytesOf "dev").length < 128 by decide)
    (by decide)).1
  have hsame := h.nodes_fresh.same (root, sizeofFsNode)
    (List.mem_cons_of_mem _ List.mem_cons_self)
  exact hmade.congr (by decide) hsame

theorem initRamdisk_eq (h : RamdiskMemory syms alloc loc n k root dev nodes k1 k2 k3) :
    initRamdisk syms alloc loc k = (do
      let (copies, m) ←
        initFiles syms (initrdVars loc n root dev nodes) loc addressSpace 0 [] k3.mem
      .ok ({ initrdVars loc n root dev nodes with copies := copies }, { k3 with mem := m })) := by
  have hnfiles : read32 (rooted syms root (bytesOf "dev") k2).mem loc = n := by
    have hin : (loc, 4 + 76 * n) ∈ inUse syms loc n := List.mem_cons_self
    have hlast := h.nodes_fresh.same _ (List.mem_cons_of_mem _ (List.mem_cons_of_mem _ hin))
    exact (hlast.read32 (Nat.le_refl _) (by omega)).symm.trans h.image_read32
  unfold initRamdisk
  rw [h.root_call, ok_bind]
  dsimp only
  rw [← rooted, h.dev_call, ok_bind]
  dsimp only
  rw [← rooted, ← mem_rooted, hnfiles, h.nodes_call, ok_bind]
  dsimp only
  rw [h.image_read32]
  rfl

end RamdiskMemory

end Memory

end Vulcanos
