import Vulcanos.Kernel.LibcString

/-!
# `fs.h` and `fs.c`

Nodes are structs in memory: 128 bytes of name, seven words, six function pointers and a pointer to
a node. What code a function pointer leads to is for the file system to say that has set it.
-/

namespace Vulcanos

open Memory

/-! ### `fs_node_t` -/

def fsMask : Nat := 128
def fsUid : Nat := 132
def fsGid : Nat := 136
def fsFlags : Nat := 140
def fsInode : Nat := 144
def fsLength : Nat := 148
def fsImpl : Nat := 152
def fsRead : Nat := 156
def fsWrite : Nat := 160
def fsOpen : Nat := 164
def fsClose : Nat := 168
def fsReaddir : Nat := 172
def fsFinddir : Nat := 176
def fsPtr : Nat := 180

def sizeofFsNode : Nat := 184

def fsFile : Nat := 0x01

def fsDirectory : Nat := 0x02

/-- The `ino` of a `struct dirent`, behind its name. -/
def direntIno : Nat := 120

def sizeofDirent : Nat := 124

/-- `read_type_t`: node, offset, size and buffer. -/
abbrev ReadType := Nat → Nat → Nat → Nat → Mem → Nat × Mem

/-- `write_type_t`, which has the same arguments. -/
abbrev WriteType := ReadType

/-- `open_type_t` and `close_type_t`: the node. -/
abbrev OpenType := Nat → Mem → Mem

/-- `readdir_type_t`: node and index. -/
abbrev ReaddirType := Nat → Nat → Mem → Except Stop (Nat × Mem)

/-- `finddir_type_t`: node and the address of the name. -/
abbrev FinddirType := Nat → Nat → Mem → Except Stop Nat

section Calls

variable (code : Nat → Option ReadType) (dirCode : Nat → Option ReaddirType)
  (findCode : Nat → Option FinddirType) (writeCode : Nat → Option WriteType)
  (openCode : Nat → Option OpenType)

/-- `read_fs`. `none`: the pointer leads to nothing that is modelled. -/
def readFs (node offset size buffer : Nat) (m : Mem) : Option (Nat × Mem) :=
  if read32 m (node + fsRead) ≠ 0 then
    (code (read32 m (node + fsRead))).map fun read => read node offset size buffer m
  else some (0, m)

def writeFs (node offset size buffer : Nat) (m : Mem) : Option (Nat × Mem) :=
  if read32 m (node + fsWrite) ≠ 0 then
    (writeCode (read32 m (node + fsWrite))).map fun write => write node offset size buffer m
  else some (0, m)

def openFs (node : Nat) (m : Mem) : Option Mem :=
  if read32 m (node + fsOpen) ≠ 0 then
    (openCode (read32 m (node + fsOpen))).map fun callback => callback node m
  else some m

def closeFs (node : Nat) (m : Mem) : Option Mem :=
  if read32 m (node + fsClose) ≠ 0 then
    (openCode (read32 m (node + fsClose))).map fun callback => callback node m
  else some m

def readdirFs (node index : Nat) (m : Mem) : Option (Except Stop (Nat × Mem)) :=
  if read32 m (node + fsFlags) &&& 0x7 = fsDirectory ∧ read32 m (node + fsReaddir) ≠ 0 then
    (dirCode (read32 m (node + fsReaddir))).map fun readdir => readdir node index m
  else some (.ok (0, m))

def finddirFs (node name : Nat) (m : Mem) : Option (Except Stop Nat) :=
  if read32 m (node + fsFlags) &&& 0x7 = fsDirectory ∧ read32 m (node + fsFinddir) ≠ 0 then
    (findCode (read32 m (node + fsFinddir))).map fun finddir => finddir node name m
  else some (.ok 0)

end Calls

end Vulcanos
