import Vulcanos.Kernel.Fs
import Vulcanos.Kernel.Kheap

/-!
# `initrd.c`

The ramdisk: an image with a table of file headers, and the nodes that `init_ramdisk` makes of it.
`copies` is no variable of the source: it lists what `strcpy` has copied to the file nodes.
-/

namespace Vulcanos

open Memory Word

/-- Where the linker has put the callbacks, the variable `root_nodes` and the static `dirent`. -/
structure Symbols where
  initrdRead : Nat
  initrdReaddir : Nat
  initrdFinddir : Nat
  rootNodes : Nat
  dirent : Nat
  read_lt : 0 < initrdRead ∧ initrdRead < 4294967296
  readdir_lt : 0 < initrdReaddir ∧ initrdReaddir < 4294967296
  finddir_lt : 0 < initrdFinddir ∧ initrdFinddir < 4294967296
  dirent_lt : 0 < dirent ∧ dirent + sizeofDirent ≤ 4294967296

/-- A call of `strcpy` that has returned, and how many bytes it has copied. -/
structure StringCopy where
  dst : Nat
  src : Nat
  len : Nat
deriving Repr, DecidableEq

/-- The variables of `initrd.c`. -/
structure Initrd where
  initrdHeader : Nat
  fileHeaders : Nat
  initrdRoot : Nat
  initrdDev : Nat
  rootNodes : Nat
  nrootNodes : Nat
  copies : List StringCopy

/-! ### `initrd_file_header_t`

A byte, 64 bytes of name, three bytes of padding and two words. -/

def headerName : Nat := 1
def headerOffset : Nat := 68
def headerLength : Nat := 72

def sizeofFileHeader : Nat := 76

def sizeofInitrdHeader : Nat := 4

def Initrd.fileHeader (g : Initrd) (i : Nat) : Nat := add32 g.fileHeaders (sizeofFileHeader * i)

def Initrd.rootNode (g : Initrd) (i : Nat) : Nat := add32 g.rootNodes (sizeofFsNode * i)

/-! ### `init_ramdisk` -/

section Init

variable (syms : Symbols)

/-- A block of assignments that makes a directory node. Both blocks of the source are about
`initrd_root`. -/
def initDirectory (node : Nat) (name : List UInt8) (m : Mem) : Mem :=
  let m := writeBytes node (name ++ [0]) m
  writeWords node [(fsLength, 0), (fsInode, 0), (fsGid, 0), (fsUid, 0), (fsMask, 0),
    (fsFlags, fsDirectory), (fsRead, 0), (fsWrite, 0), (fsOpen, 0), (fsClose, 0),
    (fsReaddir, syms.initrdReaddir), (fsFinddir, syms.initrdFinddir), (fsPtr, 0), (fsImpl, 0)] m

/-- The body of the loop over the files. -/
def initFile (g : Initrd) (multibootLocation i : Nat) (copies : List StringCopy) (m : Mem) :
    Except Stop (List StringCopy × Mem) := do
  let header := g.fileHeader i
  let node := g.rootNode i
  let m := write32 m (header + headerOffset)
    (add32 (read32 m (header + headerOffset)) multibootLocation)
  let (len, m) ← strcpy node (header + headerName) m
  let m := writeWords node [(fsGid, 0), (fsUid, 0), (fsMask, 0)] m
  let m := writeWords node [(fsLength, read32 m (header + headerLength)), (fsInode, i),
    (fsFlags, fsFile), (fsRead, syms.initrdRead), (fsWrite, 0), (fsReaddir, 0), (fsFinddir, 0),
    (fsOpen, 0), (fsClose, 0), (fsImpl, 0)] m
  .ok (copies ++ [⟨node, header + headerName, len⟩], m)

/-- The loop over the files, which reads `nfiles` again in each round. -/
def initFiles (g : Initrd) (multibootLocation : Nat) :
    Nat → Nat → List StringCopy → Mem → Except Stop (List StringCopy × Mem)
  | 0, _, copies, m => .ok (copies, m)
  | rounds + 1, i, copies, m =>
      if i < read32 m g.initrdHeader then do
        let (copies, m) ← initFile syms g multibootLocation i copies m
        initFiles g multibootLocation rounds (i + 1) copies m
      else .ok (copies, m)

/-- `init_ramdisk`. It returns `initrd_root`. The loop has less than 2^32 rounds. -/
def initRamdisk (alloc : Kernel.Allocator) (multibootLocation : Nat) (k : Kernel) :
    Except Stop (Initrd × Kernel) := do
  let (root, _, k) ← Kernel.kmalloc alloc sizeofFsNode k
  let k := { k with mem := initDirectory syms root (bytesOf "initrd") k.mem }
  let (dev, _, k) ← Kernel.kmalloc alloc sizeofFsNode k
  let k := { k with mem := initDirectory syms root (bytesOf "dev") k.mem }
  let nfiles := read32 k.mem multibootLocation
  let (nodes, _, k) ← Kernel.kmalloc alloc (sizeofFsNode * nfiles % 4294967296) k
  let g : Initrd :=
    { initrdHeader := multibootLocation
      fileHeaders := add32 multibootLocation sizeofInitrdHeader
      initrdRoot := root, initrdDev := dev, rootNodes := nodes
      nrootNodes := read32 k.mem multibootLocation, copies := [] }
  let (copies, m) ← initFiles syms g multibootLocation addressSpace 0 [] k.mem
  .ok ({ g with copies := copies }, { k with mem := m })

end Init

/-! ### The callbacks -/

section Callbacks

variable (syms : Symbols) (g : Initrd)

def initrdRead (node offset size buffer : Nat) (m : Mem) : Nat × Mem :=
  let header := g.fileHeader (read32 m (node + fsInode))
  let headerOff := read32 m (header + headerOffset)
  let headerLen := read32 m (header + headerLength)
  if offset > headerLen then (0, m)
  else
    let size := if add32 offset size > headerLen then sub32 headerLen offset else size
    (size, memcpy buffer (add32 headerOff offset) size m)

/-- `initrd_readdir`. The bound is the address of the variable `root_nodes`. -/
def initrdReaddir (node index : Nat) (m : Mem) : Except Stop (Nat × Mem) :=
  if node = g.initrdRoot ∧ index = 0 then
    let m := writeBytes syms.dirent (literal "dev") m
    let m := write8 m (syms.dirent + 3) 0
    .ok (syms.dirent, write32 m (syms.dirent + direntIno) 0)
  else if sub32 index 1 ≥ syms.rootNodes then .ok (0, m)
  else do
    let entry := g.rootNode (sub32 index 1)
    let (_, m) ← strcpy syms.dirent entry m
    let len ← strlen entry m
    let m := write8 m (add32 syms.dirent len) 0
    .ok (syms.dirent, write32 m (syms.dirent + direntIno) (read32 m (entry + fsInode)))

/-- The loop of `initrd_finddir`, from the `i`-th node on. -/
def finddirLoop (name : Nat) (m : Mem) : Nat → Nat → Except Stop Nat
  | 0, _ => .ok 0
  | n + 1, i => do
      let diff ← strcmpAt name (g.rootNode i) m
      if diff = 0 then .ok (g.rootNode i) else finddirLoop name m n (i + 1)

/-- The four bytes that a comparison with a literal of three can read. -/
def fourBytes (m : Mem) (a : Nat) : List UInt8 :=
  (List.range 4).map fun i => m (add32 a i)

def initrdFinddir (node name : Nat) (m : Mem) : Except Stop Nat :=
  if node = g.initrdRoot ∧ strcmp (fourBytes m name) (literal "dev") = some 0 then .ok g.initrdDev
  else finddirLoop g name m g.nrootNodes 0

/-- What a `read` pointer of a ramdisk's node leads to. -/
def readCode (p : Nat) : Option ReadType :=
  if p = syms.initrdRead then some (initrdRead g) else none

/-- What a `readdir` pointer leads to. -/
def readdirCode (p : Nat) : Option ReaddirType :=
  if p = syms.initrdReaddir then some (initrdReaddir syms g) else none

/-- What a `finddir` pointer leads to. -/
def finddirCode (p : Nat) : Option FinddirType :=
  if p = syms.initrdFinddir then some (initrdFinddir g) else none

end Callbacks

end Vulcanos
