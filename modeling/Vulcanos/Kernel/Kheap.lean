import Vulcanos.Kernel.Frames

/-!
# `kheap.c` and `get_page`

The allocator, and the part of `paging.c` it is mutually recursive with: `alloc` calls `expand`,
`expand` calls `get_page` to make page tables, `get_page` calls `kmalloc_ap`, and `kmalloc_ap` calls
`alloc`. Everything between two calls of `alloc` takes the allocator as an argument; `alloc` itself
recurses on the number of nested calls it may still make.
-/

namespace Vulcanos

open Memory Word

/-! ### Headers and footers -/

/-- `sizeof(header_t)`: the byte `is_hole` is padded to a word. -/
def sizeofHeader : Nat := 12

def sizeofFooter : Nat := 8

def sizeofHeap : Nat := 32

def kheapStart : Nat := 0xC0000000

def kheapInitialSize : Nat := 0x100000

def heapIndexSize : Nat := 0x20000

def heapMagic : Nat := 0x123890AB

def heapMinSize : Nat := 0x70000

def headerMagic (m : Mem) (head : Nat) : Nat := read32 m head

def headerIsHole (m : Mem) (head : Nat) : Nat := read8 m (head + 4)

def headerSize (m : Mem) (head : Nat) : Nat := read32 m (head + 8)

def footerMagic (m : Mem) (foot : Nat) : Nat := read32 m foot

def footerHeader (m : Mem) (foot : Nat) : Nat := read32 m (foot + 4)

def writeHeader (m : Mem) (head isHole size : Nat) : Mem :=
  write32 (write8 (write32 m head heapMagic) (head + 4) isHole) (head + 8) size

def writeFooter (m : Mem) (foot head : Nat) : Mem :=
  write32 (write32 m foot heapMagic) (foot + 4) head

namespace Kernel

/-- What the callers of `alloc` need of it: a size and the alignment flag. -/
abbrev Allocator := Nat → Nat → Kernel → Except Stop (Nat × Kernel)

/-- Rounding as `expand`, `create_heap` and `kmalloc_int` do it: up to the next page boundary, and a
whole page further when already on one. -/
def nextPage (x : Nat) : Nat :=
  if x &&& 0xFFFFF000 ≠ 0 then add32 (x &&& 0xFFFFF000) 0x1000 else x

/-! ### Pages -/

/-- `get_page(address, 0, dir)`: the address of the page entry, or null. -/
def lookupPage (address : Nat) (k : Kernel) : Nat :=
  let address := address / 0x1000
  let tableIdx := address / 1024
  if k.directory.pageTablesVirtual tableIdx ≠ 0 then
    k.directory.pageTablesVirtual tableIdx + 4 * (address % 1024)
  else 0

/-- `kmalloc_int`, with the word it stores through `phys`. -/
def kmallocInt (alloc : Allocator) (sz align : Nat) (phys : Bool) (k : Kernel) :
    Except Stop (Nat × Option Nat × Kernel) :=
  if k.kheap ≠ 0 then do
    let (addr, k) ← alloc sz (align % 256) k
    let page := k.pages (lookupPage addr k)
    let physAddr := add32 (page.fr * 0x1000 % 4294967296) (addr &&& 0xFFF)
    .ok (addr, if phys then some physAddr else none, k)
  else
    let tmp := if align = 1 then nextPage k.placementAddr else k.placementAddr
    .ok (tmp, if phys then some tmp else none, { k with placementAddr := add32 tmp sz })

def kmallocA (alloc : Allocator) (sz : Nat) (k : Kernel) :
    Except Stop (Nat × Option Nat × Kernel) := kmallocInt alloc sz 1 false k

def kmallocP (alloc : Allocator) (sz : Nat) (k : Kernel) :
    Except Stop (Nat × Option Nat × Kernel) := kmallocInt alloc sz 0 true k

def kmallocAp (alloc : Allocator) (sz : Nat) (k : Kernel) :
    Except Stop (Nat × Option Nat × Kernel) := kmallocInt alloc sz 1 true k

def kmalloc (alloc : Allocator) (sz : Nat) (k : Kernel) :
    Except Stop (Nat × Option Nat × Kernel) := kmallocInt alloc sz 0 false k

/-- The new table of `get_page`: hung into the directory under both addresses, all entries zero. -/
def installTable (tableIdx table tmp : Nat) (k : Kernel) : Kernel :=
  { k with
    directory :=
      { pageTablesVirtual := Function.update k.directory.pageTablesVirtual tableIdx table
        pageTablesPhysical := Function.update k.directory.pageTablesPhysical tableIdx (tmp ||| 7) }
    pages := fun x => if table ≤ x ∧ x < table + 0x1000 then Page.zero else k.pages x }

def getPage (alloc : Allocator) (address make : Nat) (k : Kernel) : Except Stop (Nat × Kernel) :=
  if lookupPage address k ≠ 0 then .ok (lookupPage address k, k)
  else if make ≠ 0 then do
    let (table, tmp, k) ← kmallocAp alloc 0x1000 k
    .ok (table + 4 * (address / 0x1000 % 1024),
      installTable (address / 0x1000 / 1024) table (tmp.getD 0) k)
  else .ok (0, k)

/-- `alloc_frame` on the entry at an address. -/
def allocFrameAt (page isSuper isWrite : Nat) (k : Kernel) : Except Stop Kernel := do
  let (entry, frames) ← Frames.allocFrame (k.pages page) isSuper isWrite k.frames
  .ok { k with pages := Function.update k.pages page entry, frames := frames }

/-- `free_frame` on the entry at an address. -/
def freeFrameAt (page : Nat) (k : Kernel) : Kernel :=
  let (entry, frames) := Frames.freeFrame (k.pages page) k.frames
  { k with pages := Function.update k.pages page entry, frames := frames }

/-! ### `expand` and `contract` -/

def expandLoop (alloc : Allocator) (newSize : Nat) : Nat → Nat → Kernel → Except Stop Kernel
  | 0, _, k => .ok k
  | n + 1, it, k =>
      if it < newSize then do
        let (page, k') ← getPage alloc (add32 k.heap.startAddress it) 1 k
        let k' ← allocFrameAt page (if k'.heap.supervisor ≠ 0 then 1 else 0)
          (if k'.heap.readonly ≠ 0 then 0 else 1) k'
        expandLoop alloc newSize n (add32 it 0x1000) k'
      else .ok k

/-- `expand`. The loop runs at most once for each page of the new size. -/
def expand (alloc : Allocator) (newSize : Nat) (k : Kernel) : Except Stop Kernel := do
  let oldSize := sub32 k.heap.endAddress k.heap.startAddress
  assertThat (oldSize < newSize) "new_size > heap->end_address - heap->start_address"
  let newSize := nextPage newSize
  assertThat (add32 k.heap.startAddress newSize ≤ k.heap.maxAddress)
    "heap->start_address+new_size <= heap->max_address"
  let k ← expandLoop alloc newSize (newSize / 0x1000 + 1) oldSize k
  .ok { k with heap := { k.heap with endAddress := add32 k.heap.startAddress newSize } }

/-- The rounding and the lower bound of `contract`. -/
def contractSize (newSize : Nat) : Nat :=
  let newSize := if newSize &&& 0x1000 ≠ 0 then add32 (newSize &&& 0x1000) 0x1000 else newSize
  if newSize < heapMinSize then heapMinSize else newSize

def contractLoop (newSize : Nat) : Nat → Nat → Kernel → Kernel
  | 0, _, k => k
  | n + 1, it, k =>
      if newSize < it then
        contractLoop newSize n (sub32 it 0x1000)
          (freeFrameAt (lookupPage (add32 k.heap.startAddress it) k) k)
      else k

/-- `contract`. The loop stops above `HEAP_MIN_SIZE`, so it runs once for each page at most. -/
def contract (newSize : Nat) (k : Kernel) : Except Stop (Nat × Kernel) := do
  let oldSize := sub32 k.heap.endAddress k.heap.startAddress
  assertThat (newSize < oldSize) "new_size < heap->end_address-heap->start_address"
  let newSize := contractSize newSize
  let it := sub32 oldSize 0x1000
  let k := contractLoop newSize (it / 0x1000 + 1) it k
  .ok (newSize,
    { k with heap := { k.heap with endAddress := add32 k.heap.startAddress newSize } })

/-! ### `find_smallest_hole` and `create_heap` -/

/-- Whether the loop of `find_smallest_hole` stops at this header. -/
def holeFits (size pageAlign : Nat) (m : Mem) (head : Nat) : Bool :=
  if pageAlign > 0 then
    let data := add32 head sizeofHeader
    let offset := if data &&& 0xFFFFF000 ≠ 0 then 0x1000 - data % 0x1000 else 0
    size ≤ sub32 (headerSize m head) offset
  else size ≤ headerSize m head

def findSmallestHoleFrom (size pageAlign : Nat) (k : Kernel) : Nat → Nat → Option Nat
  | 0, _ => none
  | n + 1, it =>
      if holeFits size pageAlign k.mem (k.heap.index.lookup it k.mem) then some it
      else findSmallestHoleFrom size pageAlign k n (it + 1)

/-- `find_smallest_hole`, `none` where the C code returns -1. -/
def findSmallestHole (size pageAlign : Nat) (k : Kernel) : Option Nat :=
  findSmallestHoleFrom size pageAlign k k.heap.index.size 0

def headerTLessThan (m : Mem) (a b : Nat) : Bool := headerSize m a < headerSize m b

/-- `insert_ordered_array(head, &heap->index)`. -/
def insertHole (head : Nat) (k : Kernel) : Kernel :=
  let (index, mem) := OrderedArray.insert (headerTLessThan k.mem) head k.heap.index k.mem
  { k with mem := mem, heap := { k.heap with index := index } }

/-- `remove_ordered_array(it, &heap->index)`. -/
def removeHole (it : Nat) (k : Kernel) : Kernel :=
  let (index, mem) := OrderedArray.remove it k.heap.index k.mem
  { k with mem := mem, heap := { k.heap with index := index } }

/-- `create_heap`, with the address of the new `heap_t`. -/
def createHeap (alloc : Allocator) (start endAddr max supervisor readonly : Nat) (k : Kernel) :
    Except Stop (Nat × Kernel) := do
  let (heap, _, k) ← kmalloc alloc sizeofHeap k
  assertThat (start % 0x1000 = 0) "start%0x1000 == 0"
  assertThat (endAddr % 0x1000 = 0) "end_addr%0x1000 == 0"
  let (index, mem) := OrderedArray.place start heapIndexSize k.mem
  let start := nextPage (add32 start (4 * heapIndexSize))
  let k := { k with
    heap := ⟨index, start, endAddr, max, supervisor, readonly⟩
    mem := writeHeader mem start 1 (sub32 endAddr start) }
  .ok (heap, insertHole start k)

/-! ### `alloc` -/

/-- The index loop of the expansion path of `alloc`: the entry with the highest address. -/
def highestHole (k : Kernel) : Nat → Nat → Option Nat → Nat → Option Nat
  | 0, _, idx, _ => idx
  | n + 1, it, idx, value =>
      let tmp := k.heap.index.lookup it k.mem
      if tmp > value then highestHole k n (it + 1) (some it) tmp
      else highestHole k n (it + 1) idx value

/-- The expansion path of `alloc` after `expand`: the new bytes become a hole of their own when the
index is empty, and are added to the hole with the highest address otherwise. -/
def growHoles (oldLen oldEndAddr : Nat) (k : Kernel) : Kernel :=
  let newLen := sub32 k.heap.endAddress k.heap.startAddress
  match highestHole k k.heap.index.size 0 none 0 with
  | none =>
      let size := sub32 newLen oldLen
      let mem := writeHeader k.mem oldEndAddr 1 size
      let foot := sub32 (add32 oldEndAddr size) sizeofFooter
      insertHole oldEndAddr { k with mem := writeFooter mem foot oldEndAddr }
  | some idx =>
      let head := k.heap.index.lookup idx k.mem
      let size := add32 (headerSize k.mem head) (sub32 newLen oldLen)
      let foot := sub32 (add32 head size) sizeofFooter
      { k with mem := writeFooter (write32 k.mem (head + 8) size) foot head }

/-- The page-aligning step of `alloc`: the hole keeps its place in the index and shrinks to what
lies before `newLoc`. -/
def alignHole (originHoleP newLoc : Nat) (m : Mem) : Mem :=
  let m := writeHeader m originHoleP 1
    (sub32 (sub32 0x1000 (originHoleP &&& 0xFFF)) sizeofHeader)
  writeFooter m (sub32 newLoc sizeofHeader) originHoleP

/-- The last step of `alloc`: block header and footer at `originHoleP`, and a hole for what is left
of the `originHoleS` bytes. -/
def writeBlock (size newSize originHoleP originHoleS : Nat) (k : Kernel) : Nat × Kernel :=
  let m := writeHeader k.mem originHoleP 0 newSize
  let foot := add32 (add32 originHoleP sizeofHeader) size
  let m := writeFooter m foot originHoleP
  let k := { k with mem := m }
  let rest := sub32 originHoleS newSize
  let k :=
    if rest > 0 then
      let holeHead := add32 foot sizeofFooter
      let m := writeHeader k.mem holeHead 1 rest
      let holeFoot := sub32 (add32 holeHead rest) sizeofFooter
      let m := if holeFoot < k.heap.endAddress then writeFooter m holeFoot holeHead else m
      insertHole holeHead { k with mem := m }
    else k
  (add32 originHoleP sizeofHeader, k)

/-- `alloc` once a hole has been found at index `it`. -/
def carveBlock (it size newSize pageAlign : Nat) (k : Kernel) : Nat × Kernel :=
  let originHoleP := k.heap.index.lookup it k.mem
  let originHoleS := headerSize k.mem originHoleP
  let gap := sub32 originHoleS newSize
  let tooSmall := gap < sizeofHeader + sizeofFooter
  let size := if tooSmall then add32 size gap else size
  let newSize := if tooSmall then originHoleS else newSize
  if pageAlign ≠ 0 ∧ originHoleP &&& 0xFFFFF000 ≠ 0 then
    let newLoc := sub32 (sub32 (add32 originHoleP 0x1000) (originHoleP &&& 0xFFF)) sizeofHeader
    let m := alignHole originHoleP newLoc k.mem
    writeBlock size newSize newLoc (sub32 originHoleS (headerSize m originHoleP))
        { k with mem := m }
  else writeBlock size newSize originHoleP originHoleS (removeHole it k)

/-- `alloc`, at most `fuel` calls deep: the retry after an expansion and the calls for page tables
each count one. -/
def alloc : Nat → Allocator
  | 0, _, _, _ => .error .outOfFuel
  | fuel + 1, size, pageAlign, k =>
      let newSize := add32 size (sizeofHeader + sizeofFooter)
      match findSmallestHole newSize pageAlign k with
      | some it => .ok (carveBlock it size newSize pageAlign k)
      | none => do
          let oldLen := sub32 k.heap.endAddress k.heap.startAddress
          let oldEndAddr := k.heap.endAddress
          let k ← expand (alloc fuel) (add32 oldLen newSize) k
          alloc fuel size pageAlign (growHoles oldLen oldEndAddr k)

/-! ### `free` -/

/-- Where `free` has got to: the header and footer it works with, and whether the header still has
to be added to the index. -/
structure Freeing where
  head : Nat
  foot : Nat
  testFoot : Nat
  addToFreeHole : Bool
  kernel : Kernel

def leftUnify (head foot : Nat) (k : Kernel) : Freeing :=
  let testFoot := sub32 head sizeofFooter
  if footerMagic k.mem testFoot = heapMagic ∧ headerIsHole k.mem (footerHeader k.mem testFoot) =
      1 then
    let cacheS := headerSize k.mem head
    let head := footerHeader k.mem testFoot
    let m := write32 k.mem (foot + 4) head
    let m := write32 m (head + 8) (add32 (headerSize m head) cacheS)
    ⟨head, foot, testFoot, false, { k with mem := m }⟩
  else ⟨head, foot, testFoot, true, k⟩

/-- The loops of `free` that look a header up in the index; the size of the index when it is not
there. -/
def findEntry (head : Nat) (k : Kernel) : Nat → Nat → Nat
  | 0, it => it
  | n + 1, it => if k.heap.index.lookup it k.mem ≠ head then findEntry head k n (it + 1) else it

/-- Right unify. The new footer is computed from `test_foot`, which lies before the freed block, and
not from `test_head`. -/
def rightUnify (f : Freeing) : Except Stop Freeing :=
  let k := f.kernel
  let testHead := add32 f.foot sizeofFooter
  if headerMagic k.mem testHead = heapMagic ∧ headerIsHole k.mem testHead ≠ 0 then do
    let m := write32 k.mem (f.head + 8)
      (add32 (headerSize k.mem f.head) (headerSize k.mem testHead))
    let testFoot := sub32 (add32 f.testFoot (headerSize m testHead)) sizeofFooter
    let k := { k with mem := m }
    let it := findEntry testHead k k.heap.index.size 0
    assertThat (it < k.heap.index.size) "it < heap->index.size"
    .ok { f with testFoot := testFoot, foot := testFoot, kernel := removeHole it k }
  else .ok f

/-- The contraction of `free`. The entry it removes is looked up by `test_head`. -/
def contractHeap (testHead : Nat) (f : Freeing) : Except Stop Freeing :=
  let k := f.kernel
  if add32 f.foot sizeofFooter = k.heap.endAddress then do
    let oldLen := sub32 k.heap.endAddress k.heap.startAddress
    let (newLen, k) ← contract (sub32 f.head k.heap.startAddress) k
    if sub32 (headerSize k.mem f.head) (sub32 oldLen newLen) > 0 then
      let m := write32 k.mem (f.head + 8) (sub32 (headerSize k.mem f.head) (sub32 oldLen newLen))
      let foot := sub32 (add32 f.head (headerSize m f.head)) sizeofFooter
      .ok { f with foot := foot, kernel := { k with mem := writeFooter m foot f.head } }
    else
      let it := findEntry testHead k k.heap.index.size 0
      .ok { f with kernel := if it < k.heap.index.size then removeHole it k else k }
  else .ok f

def free (p : Nat) (k : Kernel) : Except Stop Kernel :=
  if p = 0 then .ok k
  else do
    let head := sub32 p sizeofHeader
    let foot := sub32 (add32 head (headerSize k.mem head)) sizeofFooter
    assertThat (headerMagic k.mem head = heapMagic) "head->magic == HEAP_MAGIC"
    assertThat (footerMagic k.mem foot = heapMagic) "foot->magic == HEAP_MAGIC"
    let f := leftUnify head foot { k with mem := write8 k.mem (head + 4) 1 }
    let testHead := add32 f.foot sizeofFooter
    let f ← rightUnify f
    let f ← contractHeap testHead f
    .ok (if f.addToFreeHole then insertHole f.head f.kernel else f.kernel)

def kfree (p : Nat) (k : Kernel) : Except Stop Kernel := free p k

end Kernel

end Vulcanos
