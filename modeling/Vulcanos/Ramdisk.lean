import Vulcanos.HeapSafety
import Vulcanos.Placement
import Vulcanos.Proof.Initrd

/-!
# The ramdisk

What `init_ramdisk` makes of an image, and what can be listed, found and read of it afterwards.
-/

namespace Vulcanos

open Memory Word

/-! ### Before there is a heap -/

section Placement

variable {syms : Symbols} {alloc : Kernel.Allocator} {loc n p : Nat} {k : Kernel}
  {used : List (Nat × Nat)}

/-- The bump allocator returns fresh memory if all that is in use lies below `placement_addr`. -/
theorem FreshBlock.of_placement (alloc : Kernel.Allocator) (size : Nat) (hkheap : k.kheap = 0)
    (hp : k.placementAddr = p) (hpos : 0 < p) (hroom : p + size < 4294967296)
    (hbelow : ∀ u ∈ used, u.1 + u.2 ≤ p) :
    ∃ k', Kernel.kmalloc alloc size k = .ok (p, none, k') ∧ FreshBlock used k size p k' ∧
      k'.kheap = 0 ∧ k'.placementAddr = p + size := by
  subst hp
  have hcall : Kernel.kmalloc alloc size k =
      .ok (k.placementAddr, none, { k with placementAddr := k.placementAddr + size }) :=
    Placing.run_eq (c := .kmalloc size) hkheap ⟨fun haligned => Bool.noConfusion haligned, hroom⟩
  refine ⟨_, hcall, ⟨hpos, Nat.le_of_lt hroom, ?_, fun _ _ _ _ _ => rfl⟩, hkheap, rfl⟩
  exact fun u hu => Or.inl (hbelow u hu)

theorem RamdiskMemory.of_placement (alloc : Kernel.Allocator) (hkheap : k.kheap = 0)
    (hp : k.placementAddr = p) (hnfiles : read32 k.mem loc = n) (himage : loc + (4 + 76 * n) ≤ p)
    (hdirent : syms.dirent + sizeofDirent ≤ p) (hroom : p + 368 + 184 * n < 4294967296) :
    ∃ k1 k2 k3, RamdiskMemory syms alloc loc n k p (p + 184) (p + 368) k1 k2 k3 := by
  have hpos := syms.dirent_lt.1
  have hsize : sizeofFsNode * n % 4294967296 = 184 * n :=
    Nat.mod_eq_of_lt (show 184 * n < 4294967296 by omega)
  have hinUse : ∀ u ∈ inUse syms loc n, u.1 + u.2 ≤ p := by
    intro u hu
    rcases List.mem_cons.mp hu with rfl | hu
    · exact himage
    · obtain rfl := List.mem_singleton.mp hu
      exact hdirent
  have hroot : ∀ u ∈ (p, sizeofFsNode) :: inUse syms loc n, u.1 + u.2 ≤ p + 184 := by
    intro u hu
    rcases List.mem_cons.mp hu with rfl | hu
    · exact Nat.le_refl _
    · exact Nat.le_trans (hinUse u hu) (Nat.le_add_right p 184)
  have hdev : ∀ u ∈ (p + 184, sizeofFsNode) :: (p, sizeofFsNode) :: inUse syms loc n,
      u.1 + u.2 ≤ p + 368 := by
    intro u hu
    rcases List.mem_cons.mp hu with rfl | hu
    · exact Nat.le_refl _
    · exact Nat.le_trans (hroot u hu) (Nat.add_le_add_left (by decide) p)
  obtain ⟨k1, hcall1, hfresh1, hkheap1, hp1⟩ := FreshBlock.of_placement alloc sizeofFsNode
    hkheap hp (by omega) (show p + 184 < 4294967296 by omega) hinUse
  obtain ⟨k2, hcall2, hfresh2, hkheap2, hp2⟩ := FreshBlock.of_placement
    (k := rooted syms p (bytesOf "initrd") k1) alloc sizeofFsNode hkheap1 hp1 (by omega)
    (show p + 184 + 184 < 4294967296 by omega) hroot
  obtain ⟨k3, hcall3, hfresh3, -, -⟩ := FreshBlock.of_placement
    (k := rooted syms p (bytesOf "dev") k2) alloc (184 * n) hkheap2 hp2 (by omega)
    (show p + 184 + 184 + 184 * n < 4294967296 by omega) hdev
  rw [← hsize] at hcall3
  exact ⟨k1, k2, k3, hnfiles, by omega, hcall1, hfresh1, hcall2, hfresh2, hcall3, hfresh3⟩

end Placement

/-! ### A small image -/

/-- An image of one file of ten bytes, loaded at `0x1000`: its name field begins with `len` times
the letter `a`. -/
def smallImage (len : Nat) : Mem :=
  fun a => if a = 0x1000 then 1 else if 0x1005 ≤ a ∧ a < 0x1005 + len then 97
    else if a = 0x104C then 10 else 0

/-- The kernel with such an image in memory, before it has a heap. -/
def loadedKernel (len : Nat) : Kernel := { bareKernel with mem := smallImage len }

def linkMap : Symbols where
  initrdRead := 0x100100
  initrdReaddir := 0x100200
  initrdFinddir := 0x100300
  rootNodes := 0x108000
  dirent := 0x108100
  read_lt := by decide
  readdir_lt := by decide
  finddir_lt := by decide
  dirent_lt := by decide

theorem ramdiskMemory_loadedKernel (alloc : Kernel.Allocator) (len : Nat) :
    ∃ k1 k2 k3, RamdiskMemory linkMap alloc 0x1000 1 (loadedKernel len) 0x200000 (0x200000 + 184)
      (0x200000 + 368) k1 k2 k3 := by
  refine RamdiskMemory.of_placement alloc rfl rfl ?_ (by decide) (by decide) (by decide)
  have hbyte : ∀ a, 0x1000 < a → a < 0x1004 → smallImage len a = 0 := by
    intro a hlo hhi
    unfold smallImage
    rw [if_neg (by omega), if_neg (by omega), if_neg (by omega)]
  change read32 (smallImage len) 0x1000 = 1
  unfold read32
  rw [hbyte 0x1001 (by decide) (by decide), hbyte 0x1002 (by decide) (by decide),
    hbyte 0x1003 (by decide) (by decide)]
  rfl

theorem nameEnds_loadedKernel : ∀ i, i < 1 → NameEnds (loadedKernel 1).mem 0x1000 i := by
  intro i hi
  obtain rfl := Nat.lt_one_iff.mp hi
  exact ⟨1, by decide, by decide⟩

/-- An image of two files, `a` with the ten digits in it and `bc` with three letters. -/
def twoFiles : Mem :=
  fun a => if a = 0x1000 then 2
    else if a = 0x1005 then 97 else if a = 0x1048 then 0x9C else if a = 0x104C then 10
    else if a = 0x1051 then 98 else if a = 0x1052 then 99 else if a = 0x1094 then 0xA6
    else if a = 0x1098 then 3
    else if 0x109C ≤ a ∧ a < 0x10A6 then UInt8.ofNat (48 + (a - 0x109C))
    else if 0x10A6 ≤ a ∧ a < 0x10A9 then UInt8.ofNat (120 + (a - 0x10A6)) else 0

def twoFilesKernel : Kernel := { bareKernel with mem := twoFiles }

theorem ramdiskMemory_twoFiles (alloc : Kernel.Allocator) :
    ∃ k1 k2 k3, RamdiskMemory linkMap alloc 0x1000 2 twoFilesKernel 0x200000 (0x200000 + 184)
      (0x200000 + 368) k1 k2 k3 :=
  RamdiskMemory.of_placement alloc rfl rfl (by decide) (by decide) (by decide) (by decide)

theorem nameEnds_twoFiles : ∀ i, i < 2 → NameEnds twoFilesKernel.mem 0x1000 i := by
  intro i hi
  obtain rfl | rfl : i = 0 ∨ i = 1 := by omega
  · exact ⟨1, by decide, by decide⟩
  · exact ⟨2, by decide, by decide⟩

/-! ### Names -/

/-- `init_ramdisk` returns, and each node has been given the name in its header: at most 65 bytes
are written for it, and all but the last come from the header's name field. -/
def NamesTaken (syms : Symbols) (alloc : Kernel.Allocator) (loc n : Nat) (k : Kernel) : Prop :=
  ∃ g k', initRamdisk syms alloc loc k = .ok (g, k') ∧ ∀ i, i < n →
    StringAt k'.mem (g.rootNode i) (fileName k.mem loc i) ∧
      ∃ c, g.copies[i]? = some c ∧ c.dst = g.rootNode i ∧ c.src = headerAddr loc i + headerName ∧
        c.len ≤ 65 ∧ ∀ j, j + 1 < c.len → c.src + j < headerAddr loc i + headerName + 64

section Names

variable {syms : Symbols} {alloc : Kernel.Allocator} {loc n root dev nodes : Nat}
  {k k1 k2 k3 : Kernel}

theorem exists_first {p : Nat → Prop} {i : Nat} (h : ¬ p i) :
    ∃ j, j ≤ i ∧ ¬ p j ∧ ∀ l, l < j → p l := by
  classical
  have hex : ∃ j, ¬ p j := ⟨i, h⟩
  exact ⟨Nat.find hex, Nat.find_min' hex h, Nat.find_spec hex,
    fun l hl => not_not.mp (Nat.find_min hex hl)⟩

namespace RamdiskMemory

theorem initRamdisk_of_ends (h : RamdiskMemory syms alloc loc n k root dev nodes k1 k2 k3)
    (hends : ∀ i, i < n → NameEnds k.mem loc i) :
    ∃ copies m, initRamdisk syms alloc loc k =
        .ok ({ initrdVars loc n root dev nodes with copies := copies }, { k3 with mem := m }) ∧
      Progress syms loc n nodes k3.mem n copies m := by
  obtain ⟨copies, m, hloop, hprogress⟩ := initFiles_of_all_end syms h.table
    h.image_read32 fun i hi => (h.nameEnds_iff hi).mpr (hends i hi)
  refine ⟨copies, m, ?_, hprogress⟩
  rw [h.initRamdisk_eq, hloop]
  rfl

theorem rootNode_eq (h : RamdiskMemory syms alloc loc n k root dev nodes k1 k2 k3) {i : Nat}
    (hi : i < n) : (initrdVars loc n root dev nodes).rootNode i = nodes + 184 * i :=
  (h.table.places hi).node_eq

theorem namesTaken_of_ends (h : RamdiskMemory syms alloc loc n k root dev nodes k1 k2 k3)
    (hends : ∀ i, i < n → NameEnds k.mem loc i) : NamesTaken syms alloc loc n k := by
  obtain ⟨copies, m, hinit, hprogress⟩ := h.initRamdisk_of_ends hends
  refine ⟨_, _, hinit, fun i hi => ?_⟩
  have hnode := h.rootNode_eq hi
  have hlen := length_textIn_le k3.mem (headerAddr loc i + 1) 64
  refine ⟨?_, nameCopy k3.mem loc nodes i, ?_, hnode.symm, rfl, Nat.succ_le_succ hlen, ?_⟩
  · have hname := (hprogress.files i hi).name
    rw [h.fileName_eq hi, ← hnode] at hname
    exact hname
  · dsimp only
    rw [hprogress.copies, List.getElem?_map, List.getElem?_range hi]
    rfl
  · intro j hj
    have hcopied : (nameCopy k3.mem loc nodes i).len ≤ 65 := Nat.succ_le_succ hlen
    change headerAddr loc i + 1 + j < headerAddr loc i + 1 + 64
    omega

theorem ends_of_namesTaken (h : RamdiskMemory syms alloc loc n k root dev nodes k1 k2 k3)
    (htaken : NamesTaken syms alloc loc n k) : ∀ i, i < n → NameEnds k.mem loc i := by
  obtain ⟨g, k', hinit, hnames⟩ := htaken
  intro i hi
  by_contra hlong
  -- up to the first name that does not end everything goes well
  obtain ⟨j, hj, hlong, hbefore⟩ := exists_first hlong
  rw [h.initRamdisk_eq, bind_eq_ok] at hinit
  obtain ⟨⟨copies, m⟩, hloop, hret⟩ := hinit
  obtain ⟨rfl, -⟩ := Prod.mk.inj (Except.ok.inj hret)
  have hjn : j < n := by omega
  obtain ⟨c, hc, hlen⟩ := initFiles_overlong h.table h.image_read32 hjn
    (fun l hl => (h.nameEnds_iff (by omega)).mpr (hbefore l hl))
    (fun hends => hlong ((h.nameEnds_iff hjn).mp hends)) hloop
  obtain ⟨-, c', hc', -, -, hshort, -⟩ := hnames j hjn
  obtain rfl : c = c' := Option.some.inj (hc.symm.trans hc')
  omega

/-- **The names are taken from their fields** exactly when each field has a NUL in it, or the
padding behind it begins with one. -/
theorem namesTaken_iff (h : RamdiskMemory syms alloc loc n k root dev nodes k1 k2 k3) :
    NamesTaken syms alloc loc n k ↔ ∀ i, i < n → NameEnds k.mem loc i :=
  ⟨h.ends_of_namesTaken, h.namesTaken_of_ends⟩

end RamdiskMemory

/-- Names of one letter and of two. -/
theorem namesTaken_iff_twoFiles :
    NamesTaken linkMap (Kernel.alloc 8) 0x1000 2 twoFilesKernel ∧
      ∀ i, i < 2 → NameEnds twoFilesKernel.mem 0x1000 i := by
  obtain ⟨k1, k2, k3, hmemory⟩ := ramdiskMemory_twoFiles (Kernel.alloc 8)
  exact ⟨(RamdiskMemory.namesTaken_iff hmemory).mpr nameEnds_twoFiles, nameEnds_twoFiles⟩

/-- A name field without a NUL, with padding that is not zero. -/
theorem not_namesTaken :
    ¬ NamesTaken linkMap (Kernel.alloc 8) 0x1000 1 (loadedKernel 65) := by
  intro htaken
  obtain ⟨k1, k2, k3, hmemory⟩ := ramdiskMemory_loadedKernel (Kernel.alloc 8) 65
  obtain ⟨j, hj, hnul⟩ := hmemory.ends_of_namesTaken htaken 0 (by decide)
  change smallImage 65 (0x1005 + j) = 0 at hnul
  unfold smallImage at hnul
  rw [if_neg (by omega), if_pos (by omega)] at hnul
  exact absurd hnul (by decide)

end Names

end Vulcanos
