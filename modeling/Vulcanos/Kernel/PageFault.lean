import Vulcanos.Kernel.Paging

/-!
# `free` with paging on

An access of a byte whose page is not present raises a page fault, and `page_fault` panics. Of the
heap's functions it is `free` that reads behind a heap whose chunks are in order: it looks for a
header behind the chunk it frees, also when that is the last one. Here it is with each of its
accesses to memory checked.
-/

namespace Vulcanos

open Memory Word

namespace Kernel

/-- The byte is on a present page. -/
def present (a : Nat) (k : Kernel) : Bool :=
  lookupPage a k ≠ 0 ∧ (k.pages (lookupPage a k)).pr = 1

/-- Accesses of some bytes. -/
def touch (bytes : List Nat) (k : Kernel) : Except Stop Unit :=
  if bytes.all fun a => present a k then .ok () else .error (.panic "Page fault")

/-- The bytes of the word at an address. -/
def word (a : Nat) : List Nat := [a, a + 1, a + 2, a + 3]

/-- What left unify accesses. -/
def leftWords (head foot : Nat) (k : Kernel) : List Nat :=
  let testFoot := sub32 head sizeofFooter
  if footerMagic k.mem testFoot = heapMagic then
    if headerIsHole k.mem (footerHeader k.mem testFoot) = 1 then
      word testFoot ++ word (testFoot + 4) ++ [footerHeader k.mem testFoot + 4] ++
        word (head + 8) ++ word (foot + 4) ++ word (footerHeader k.mem testFoot + 8)
    else word testFoot ++ word (testFoot + 4) ++ [footerHeader k.mem testFoot + 4]
  else word testFoot

/-- What right unify accesses, but for the index. -/
def rightWords (f : Freeing) : List Nat :=
  let testHead := add32 f.foot sizeofFooter
  if headerMagic f.kernel.mem testHead = heapMagic then
    if headerIsHole f.kernel.mem testHead ≠ 0 then
      word testHead ++ [testHead + 4] ++ word (testHead + 8) ++ word (f.head + 8)
    else word testHead ++ [testHead + 4]
  else word testHead

/-- What the contraction from `f` to `f'` accesses: the footer only if bytes of the hole are left.
-/
def contractWords (f f' : Freeing) : List Nat :=
  let oldLen := sub32 f.kernel.heap.endAddress f.kernel.heap.startAddress
  let newLen := sub32 f'.kernel.heap.endAddress f'.kernel.heap.startAddress
  if add32 f.foot sizeofFooter = f.kernel.heap.endAddress then
    if sub32 (headerSize f.kernel.mem f.head) (sub32 oldLen newLen) > 0 then
      word (f.head + 8) ++ word f'.foot ++ word (f'.foot + 4)
    else word (f.head + 8)
  else []

/-- What the index accesses: its entries, and the sizes of the holes that are in it. -/
def indexWords (k : Kernel) : List Nat :=
  (List.range k.heap.index.size).flatMap fun i =>
    word (k.heap.index.array + 4 * i) ++ word (k.heap.index.lookup i k.mem + 8)

/-- `free`, each access checked against the pages that are there when it is made. -/
def pagedFree (p : Nat) (k : Kernel) : Except Stop Kernel :=
  if p = 0 then .ok k
  else do
    let head := sub32 p sizeofHeader
    touch (word (head + 8) ++ word head) k
    let foot := sub32 (add32 head (headerSize k.mem head)) sizeofFooter
    assertThat (headerMagic k.mem head = heapMagic) "head->magic == HEAP_MAGIC"
    touch (word foot) k
    assertThat (footerMagic k.mem foot = heapMagic) "foot->magic == HEAP_MAGIC"
    touch [head + 4] k
    let k := { k with mem := write8 k.mem (head + 4) 1 }
    touch (leftWords head foot k) k
    let f := leftUnify head foot k
    let testHead := add32 f.foot sizeofFooter
    touch (rightWords f ++ indexWords f.kernel) k
    let f ← rightUnify f
    let f' ← contractHeap testHead f
    touch (contractWords f f' ++ indexWords f'.kernel) f'.kernel
    .ok (if f'.addToFreeHole then insertHole f'.head f'.kernel else f'.kernel)

end Kernel

end Vulcanos
