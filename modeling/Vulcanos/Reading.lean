import Vulcanos.Directory

/-!
# Reading a file

A read that asks for bytes behind the end of the file gets those up to the end. The guard computes
the end of the request in 32 bits, so a request past the top of the address space is not cut.
-/

namespace Vulcanos

open Memory Word

/-- A node of the ramdisk whose file has `len` bytes from `start` on. -/
structure FileIn (syms : Symbols) (g : Initrd) (node start len : Nat) (m : Mem) : Prop where
  read : read32 m (node + fsRead) = syms.initrdRead
  offset : read32 m (g.fileHeader (read32 m (node + fsInode)) + headerOffset) = start
  length : read32 m (g.fileHeader (read32 m (node + fsInode)) + headerLength) = len
  fits : start + len ≤ 4294967296

/-- A read returns how many of the bytes that are asked for there are, and copies these bytes of the
file to the buffer and nothing else anywhere, whether it is called directly or as `read_fs`. -/
def ReadsFile (syms : Symbols) (g : Initrd) (node start len offset size buffer : Nat) (m : Mem) :
    Prop :=
  ∃ m', initrdRead g node offset size buffer m = (min size (len - offset), m') ∧
    readFs (readCode syms g) node offset size buffer m = some (min size (len - offset), m') ∧
    (∀ j, j < min size (len - offset) → m' (buffer + j) = m (start + offset + j)) ∧
    SameOutside buffer (buffer + min size (len - offset)) m m'

section Read

variable {syms : Symbols} {g : Initrd} {node start len offset size buffer : Nat} {m : Mem}

theorem FileIn.readFs_eq (h : FileIn syms g node start len m) (offset size buffer : Nat) :
    readFs (readCode syms g) node offset size buffer m =
      some (initrdRead g node offset size buffer m) := by
  have hpos := syms.read_lt.1
  unfold readFs
  rw [h.read, if_pos (Nat.ne_of_gt hpos), readCode, if_pos rfl]
  rfl

theorem FileIn.initrdRead_eq (h : FileIn syms g node start len m) :
    initrdRead g node offset size buffer m =
      if offset > len then (0, m)
      else
        let size := if add32 offset size > len then sub32 len offset else size
        (size, memcpy buffer (add32 start offset) size m) := by
  unfold initrdRead
  dsimp only
  rw [h.offset, h.length]

theorem FileIn.length_lt (h : FileIn syms g node start len m) : len < 4294967296 :=
  h.length ▸ read32_lt _ _

theorem FileIn.initrdRead_of_noWrap (h : FileIn syms g node start len m) (buffer : Nat)
    (hoffset : offset ≤ len) (hsum : offset + size < 4294967296) :
    initrdRead g node offset size buffer m =
      (min size (len - offset), memcpy buffer (start + offset) (min size (len - offset)) m) := by
  have hlen := h.length_lt
  have hfits := h.fits
  rw [h.initrdRead_eq, if_neg (by omega), add32_eq hsum, sub32_eq hoffset hlen]
  have hcut : (if offset + size > len then len - offset else size) = min size (len - offset) := by
    split <;> omega
  rw [hcut]
  dsimp only
  rcases Nat.eq_zero_or_pos (min size (len - offset)) with hzero | hpos
  · rw [hzero]
    rfl
  · rw [add32_eq (by omega)]

theorem FileIn.initrdRead_of_wrap (h : FileIn syms g node start len m) (buffer : Nat)
    (hoffset : offset ≤ len) (hsize : size < 4294967296) (hsum : 4294967296 ≤ offset + size) :
    (initrdRead g node offset size buffer m).1 = size := by
  have hlen := h.length_lt
  have hwrapped : add32 offset size = offset + size - 4294967296 := by
    unfold add32
    omega
  rw [h.initrdRead_eq, if_neg (by omega), hwrapped]
  dsimp only
  rw [if_neg (by omega)]

theorem FileIn.not_readsFile (h : FileIn syms g node start len m) (hoffset : offset ≤ len)
    (hsize : size < 4294967296) (hsum : 4294967296 ≤ offset + size) :
    ¬ ReadsFile syms g node start len offset size buffer m := by
  rintro ⟨m', hread, -⟩
  have hall := h.initrdRead_of_wrap buffer hoffset hsize hsum
  rw [hread] at hall
  have hcut : min size (len - offset) = size := hall
  have hlen := h.length_lt
  omega

/-- Copying upwards is right where the destination does not begin behind the source, and also where
the bytes to copy repeat what lies in between. -/
theorem memcpy_exact_iff {dst src n : Nat} (hdst : dst + n ≤ 4294967296)
    (hsrc : src + n ≤ 4294967296) :
    (∀ j, j < n → memcpy dst src n m (dst + j) = m (src + j)) ↔
      dst ≤ src ∨ ∀ j, j < n → m (src + j % (dst - src)) = m (src + j) := by
  have hbyte : ∀ j, j < n → memcpy dst src n m (dst + j) =
      m (src + if src < dst then j % (dst - src) else j) := by
    intro j hj
    rw [memcpy_apply hdst hsrc, if_pos (by omega), Nat.add_sub_cancel_left]
  constructor
  · intro hcopy
    rcases Nat.lt_or_ge src dst with hlt | hge
    · refine Or.inr fun j hj => ?_
      have hj' := hbyte j hj
      rw [if_pos hlt, hcopy j hj] at hj'
      exact hj'.symm
    · exact Or.inl hge
  · intro hplaces j hj
    rw [hbyte j hj]
    split
    · rename_i hlt
      exact (hplaces.resolve_left (Nat.not_le_of_lt hlt)) j hj
    · rfl

/-- **When a read does what it should**: the offset is behind the file or the request ends below
`2 ^ 32`, and the buffer does not begin inside the bytes to copy. -/
theorem readsFile_iff (h : FileIn syms g node start len m) (hsize : size < 4294967296)
    (hbuffer : buffer + min size (len - offset) ≤ 4294967296) :
    ReadsFile syms g node start len offset size buffer m ↔
      (len < offset ∨ offset + size < 4294967296) ∧
        (buffer ≤ start + offset ∨ ∀ j, j < min size (len - offset) →
          m (start + offset + j % (buffer - (start + offset))) = m (start + offset + j)) := by
  have hfits := h.fits
  rcases Nat.lt_or_ge len offset with hbehind | hinside
  · -- nothing to read
    have hnone : min size (len - offset) = 0 := by omega
    have hread : initrdRead g node offset size buffer m = (0, m) := by
      rw [h.initrdRead_eq, if_pos hbehind]
    unfold ReadsFile
    rw [hnone, h.readFs_eq, hread]
    refine iff_of_true ⟨m, rfl, rfl, fun j hj => absurd hj (Nat.not_lt_zero j), fun _ _ => rfl⟩ ?_
    exact ⟨Or.inl hbehind, Or.inr fun j hj => absurd hj (Nat.not_lt_zero j)⟩
  · rcases Nat.lt_or_ge (offset + size) 4294967296 with hsum | hwrap
    · have hread := h.initrdRead_of_noWrap buffer hinside hsum
      have hcopy := memcpy_exact_iff (m := m) hbuffer
        (show start + offset + min size (len - offset) ≤ 4294967296 by omega)
      constructor
      · rintro ⟨m', hread', -, hbytes, -⟩
        obtain ⟨-, rfl⟩ := Prod.mk.inj (hread.symm.trans hread')
        exact ⟨Or.inr hsum, hcopy.mp hbytes⟩
      · rintro ⟨-, hplaces⟩
        refine ⟨_, hread, ?_, hcopy.mpr hplaces, fun x hx => ?_⟩
        · rw [h.readFs_eq, hread]
        · rw [memcpy_apply hbuffer (by omega), if_neg (by omega)]
    · refine iff_of_false (h.not_readsFile hinside hsize hwrap) fun hcond => ?_
      rcases hcond.1 with hlt | hlt <;> omega

end Read

/-! ### The files of a ramdisk -/

section Files

variable {syms : Symbols} {alloc : Kernel.Allocator} {loc n root dev nodes : Nat}
  {k k1 k2 k3 : Kernel}

/-- After `init_ramdisk` each node is a file: it begins in the image where its header says. -/
theorem RamdiskMemory.fileIn (h : RamdiskMemory syms alloc loc n k root dev nodes k1 k2 k3)
    (hends : ∀ i, i < n → NameEnds k.mem loc i) :
    ∃ g k', initRamdisk syms alloc loc k = .ok (g, k') ∧ ∀ i, i < n → ∀ start len,
      start = add32 (read32 k.mem (headerAddr loc i + headerOffset)) loc →
      len = read32 k.mem (headerAddr loc i + headerLength) → start + len ≤ 4294967296 →
        FileIn syms g (g.rootNode i) start len k'.mem := by
  obtain ⟨copies, m, hinit, hprogress⟩ := h.initRamdisk_of_ends hends
  refine ⟨_, _, hinit, fun i hi start len hstart hlen hfits => ?_⟩
  have hnode := h.rootNode_eq hi
  have hheader := (h.table.places hi).header_eq
  have hfile := hprogress.files i hi
  have hapart := h.table.apart
  have hbelow := h.image
  have hword : ∀ off, off + 4 ≤ 76 →
      read32 k3.mem (headerAddr loc i + off) = read32 k.mem (headerAddr loc i + off) := by
    refine fun off hoff => hbelow.read32 ?_ ?_ <;> unfold headerAddr <;> omega
  have hlength : SameOn (headerAddr loc i + 72) (headerAddr loc i + 76) k3.mem m := by
    intro x hlo hhi
    unfold headerAddr at hlo hhi
    refine hprogress.frame x (by omega) fun j hj => ?_
    unfold headerAddr
    omega
  have hinode : read32 m (nodes + 184 * i + fsInode) = i := hfile.inode
  refine ⟨?_, ?_, ?_, hfits⟩
  · change read32 m ((initrdVars loc n root dev nodes).rootNode i + fsRead) = syms.initrdRead
    rw [hnode]
    exact hfile.read
  · change read32 m ((initrdVars loc n root dev nodes).fileHeader
      (read32 m ((initrdVars loc n root dev nodes).rootNode i + fsInode)) + headerOffset) = start
    rw [hnode, hinode, hheader, hstart, ← hword headerOffset (by decide)]
    exact hprogress.offsets i hi
  · change read32 m ((initrdVars loc n root dev nodes).fileHeader
      (read32 m ((initrdVars loc n root dev nodes).rootNode i + fsInode)) + headerLength) = len
    rw [hnode, hinode, hheader, hlen, ← hword headerLength (by decide)]
    exact hlength.read32 (Nat.le_refl _) (Nat.le_refl _)

theorem fileIn_loadedKernel (alloc : Kernel.Allocator) :
    ∃ g k', initRamdisk linkMap alloc 0x1000 (loadedKernel 1) = .ok (g, k') ∧
      FileIn linkMap g (g.rootNode 0) 0x1000 10 k'.mem := by
  obtain ⟨k1, k2, k3, hmemory⟩ := ramdiskMemory_loadedKernel alloc 1
  obtain ⟨g, k', hinit, hfiles⟩ := hmemory.fileIn nameEnds_loadedKernel
  exact ⟨g, k', hinit, hfiles 0 (by decide) 0x1000 10 (by decide) (by decide) (by decide)⟩

/-- A hundred bytes from the second on. -/
theorem readsFile_loadedKernel :
    ∃ g k', initRamdisk linkMap (Kernel.alloc 8) 0x1000 (loadedKernel 1) = .ok (g, k') ∧
      ReadsFile linkMap g (g.rootNode 0) 0x1000 10 2 100 0x400000 k'.mem := by
  obtain ⟨g, k', hinit, hfile⟩ := fileIn_loadedKernel (Kernel.alloc 8)
  refine ⟨g, k', hinit, (readsFile_iff hfile (by decide) (by decide)).mpr ⟨Or.inr (by decide), ?_⟩⟩
  -- the buffer does not overlap the file
  refine Or.inr fun j hj => ?_
  rw [Nat.mod_eq_of_lt (by omega)]

/-- All bytes from the fifth on. -/
theorem not_readsFile_loadedKernel :
    ∃ g k', initRamdisk linkMap (Kernel.alloc 8) 0x1000 (loadedKernel 1) = .ok (g, k') ∧
      FileIn linkMap g (g.rootNode 0) 0x1000 10 k'.mem ∧
      ¬ ReadsFile linkMap g (g.rootNode 0) 0x1000 10 5 0xFFFFFFFF 0x400000 k'.mem := by
  obtain ⟨g, k', hinit, hfile⟩ := fileIn_loadedKernel (Kernel.alloc 8)
  exact ⟨g, k', hinit, hfile, hfile.not_readsFile (by decide) (by decide) (by decide)⟩

end Files

end Vulcanos
