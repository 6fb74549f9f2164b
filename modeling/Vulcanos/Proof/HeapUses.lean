import Vulcanos.HeapCoalesce
import Vulcanos.Proof.IndexUses

/-!
# The heap's uses of its index

For each function of `kheap.c`, and for `get_page` with it, the calls it makes on the heap's index,
written along the function. A call that stops at an assertion has made those before it.
-/

namespace Vulcanos

open Memory Word Trace

namespace Kernel

/-- What `alloc` does to the index, for its callers. -/
abbrev AllocatorUses := Nat → Nat → Kernel → List IndexUse

def lookupUse (it : Nat) (k : Kernel) : IndexUse := ⟨.lookup it, k.heap.index, k.mem⟩

/-- `insert_ordered_array(head, &heap->index)`. -/
def insertUse (head : Nat) (k : Kernel) : IndexUse :=
  ⟨.insert (headerTLessThan k.mem) head, k.heap.index, k.mem⟩

def removeUse (it : Nat) (k : Kernel) : IndexUse := ⟨.remove it, k.heap.index, k.mem⟩

def findSmallestHoleUses (size pageAlign : Nat) (k : Kernel) : Nat → Nat → List IndexUse
  | 0, _ => []
  | n + 1, it =>
      lookupUse it k ::
        if holeFits size pageAlign k.mem (k.heap.index.lookup it k.mem) then []
        else findSmallestHoleUses size pageAlign k n (it + 1)

def kmallocApUses (uses : AllocatorUses) (sz : Nat) (k : Kernel) : List IndexUse :=
  if k.kheap ≠ 0 then uses sz 1 k else []

def getPageUses (uses : AllocatorUses) (address make : Nat) (k : Kernel) : List IndexUse :=
  if lookupPage address k ≠ 0 then []
  else if make ≠ 0 then kmallocApUses uses 0x1000 k
  else []

def expandLoopUses (alloc : Allocator) (uses : AllocatorUses) (newSize : Nat) :
    Nat → Nat → Kernel → List IndexUse
  | 0, _, _ => []
  | n + 1, it, k =>
      if it < newSize then
        getPageUses uses (add32 k.heap.startAddress it) 1 k ++
          next (getPage alloc (add32 k.heap.startAddress it) 1 k) fun (page, k') =>
            next (allocFrameAt page (if k'.heap.supervisor ≠ 0 then 1 else 0)
                (if k'.heap.readonly ≠ 0 then 0 else 1) k') fun k' =>
              expandLoopUses alloc uses newSize n (add32 it 0x1000) k'
      else []

def expandUses (alloc : Allocator) (uses : AllocatorUses) (newSize : Nat) (k : Kernel) :
    List IndexUse :=
  let oldSize := sub32 k.heap.endAddress k.heap.startAddress
  next (assertThat (oldSize < newSize) "new_size > heap->end_address - heap->start_address")
    fun _ =>
      let newSize := nextPage newSize
      next (assertThat (add32 k.heap.startAddress newSize ≤ k.heap.maxAddress)
          "heap->start_address+new_size <= heap->max_address") fun _ =>
        expandLoopUses alloc uses newSize (newSize / 0x1000 + 1) oldSize k

/-- The calls of the expansion path of `alloc` after `expand`. -/
def growHolesUses (oldLen oldEndAddr : Nat) (k : Kernel) : List IndexUse :=
  (List.range k.heap.index.size).map (fun it => lookupUse it k) ++
    match highestHole k k.heap.index.size 0 none 0 with
    | none =>
        let size := sub32 (sub32 k.heap.endAddress k.heap.startAddress) oldLen
        let mem := writeHeader k.mem oldEndAddr 1 size
        let foot := sub32 (add32 oldEndAddr size) sizeofFooter
        [insertUse oldEndAddr { k with mem := writeFooter mem foot oldEndAddr }]
    | some idx => [lookupUse idx k]

/-- The call of the last step of `alloc`. -/
def writeBlockUses (size newSize originHoleP originHoleS : Nat) (k : Kernel) : List IndexUse :=
  let m := writeHeader k.mem originHoleP 0 newSize
  let foot := add32 (add32 originHoleP sizeofHeader) size
  let m := writeFooter m foot originHoleP
  let rest := sub32 originHoleS newSize
  if rest > 0 then
    let holeHead := add32 foot sizeofFooter
    let m := writeHeader m holeHead 1 rest
    let holeFoot := sub32 (add32 holeHead rest) sizeofFooter
    let m := if holeFoot < k.heap.endAddress then writeFooter m holeFoot holeHead else m
    [insertUse holeHead { k with mem := m }]
  else []

/-- The calls of `alloc` once a hole has been found. -/
def carveBlockUses (it size newSize pageAlign : Nat) (k : Kernel) : List IndexUse :=
  let originHoleP := k.heap.index.lookup it k.mem
  let originHoleS := headerSize k.mem originHoleP
  let gap := sub32 originHoleS newSize
  let tooSmall := gap < sizeofHeader + sizeofFooter
  let size := if tooSmall then add32 size gap else size
  let newSize := if tooSmall then originHoleS else newSize
  lookupUse it k ::
    if pageAlign ≠ 0 ∧ originHoleP &&& 0xFFFFF000 ≠ 0 then
      let newLoc := sub32 (sub32 (add32 originHoleP 0x1000) (originHoleP &&& 0xFFF)) sizeofHeader
      let m := alignHole originHoleP newLoc k.mem
      writeBlockUses size newSize newLoc (sub32 originHoleS (headerSize m originHoleP))
          { k with mem := m }
    else
      removeUse it k :: writeBlockUses size newSize originHoleP originHoleS (removeHole it k)

/-- The calls of `alloc`, those of its nested calls among them. -/
def allocUses : Nat → AllocatorUses
  | 0, _, _, _ => []
  | fuel + 1, size, pageAlign, k =>
      let newSize := add32 size (sizeofHeader + sizeofFooter)
      findSmallestHoleUses newSize pageAlign k k.heap.index.size 0 ++
        match findSmallestHole newSize pageAlign k with
        | some it => carveBlockUses it size newSize pageAlign k
        | none =>
            let oldLen := sub32 k.heap.endAddress k.heap.startAddress
            let oldEndAddr := k.heap.endAddress
            expandUses (alloc fuel) (allocUses fuel) (add32 oldLen newSize) k ++
              next (expand (alloc fuel) (add32 oldLen newSize) k) fun k =>
                growHolesUses oldLen oldEndAddr k ++
                  allocUses fuel size pageAlign (growHoles oldLen oldEndAddr k)

/-! ### `free` -/

/-- The calls of the loops of `free` that look a header up. -/
def findEntryUses (head : Nat) (k : Kernel) : Nat → Nat → List IndexUse
  | 0, _ => []
  | n + 1, it =>
      lookupUse it k ::
        if k.heap.index.lookup it k.mem ≠ head then findEntryUses head k n (it + 1) else []

/-- Looking a header up and, if it is there, removing it. -/
def removeEntryUses (head : Nat) (k : Kernel) : List IndexUse :=
  findEntryUses head k k.heap.index.size 0 ++
    if findEntry head k k.heap.index.size 0 < k.heap.index.size then
      [removeUse (findEntry head k k.heap.index.size 0) k]
    else []

def rightUnifyUses (f : Freeing) : List IndexUse :=
  let k := f.kernel
  let testHead := add32 f.foot sizeofFooter
  if headerMagic k.mem testHead = heapMagic ∧ headerIsHole k.mem testHead ≠ 0 then
    let m := write32 k.mem (f.head + 8)
      (add32 (headerSize k.mem f.head) (headerSize k.mem testHead))
    removeEntryUses testHead { k with mem := m }
  else []

/-- The calls of the contraction of `free`. -/
def contractHeapUses (testHead : Nat) (f : Freeing) : List IndexUse :=
  let k := f.kernel
  if add32 f.foot sizeofFooter = k.heap.endAddress then
    let oldLen := sub32 k.heap.endAddress k.heap.startAddress
    next (contract (sub32 f.head k.heap.startAddress) k) fun (newLen, k) =>
      if sub32 (headerSize k.mem f.head) (sub32 oldLen newLen) > 0 then []
      else removeEntryUses testHead k
  else []

def freeUses (p : Nat) (k : Kernel) : List IndexUse :=
  if p = 0 then []
  else
    let head := sub32 p sizeofHeader
    let foot := sub32 (add32 head (headerSize k.mem head)) sizeofFooter
    next (assertThat (headerMagic k.mem head = heapMagic) "head->magic == HEAP_MAGIC") fun _ =>
      next (assertThat (footerMagic k.mem foot = heapMagic) "foot->magic == HEAP_MAGIC") fun _ =>
        let f := leftUnify head foot { k with mem := write8 k.mem (head + 4) 1 }
        let testHead := add32 f.foot sizeofFooter
        rightUnifyUses f ++ next (rightUnify f) fun f =>
          contractHeapUses testHead f ++ next (contractHeap testHead f) fun f =>
            if f.addToFreeHole then [insertUse f.head f.kernel] else []

end Kernel

/-! ### Every use is made on the index as it is then -/

/-- The uses of a call that leaves a kernel, from its index before to its index after. -/
abbrev IndexTraced {α : Type} (of : α → Kernel) (k : Kernel) (us : List IndexUse)
    (r : Except Stop α) : Prop :=
  Traced IndexUse.array (fun u => u.result.1) IndexUse.Valid (fun x => (of x).heap.index)
    k.heap.index us r

section Uses

variable {k : Kernel} {alloc : Kernel.Allocator} {uses : Kernel.AllocatorUses} {it head n : Nat}

/-- What `alloc` does to the index is traced. -/
def TracedBy (alloc : Kernel.Allocator) (uses : Kernel.AllocatorUses) : Prop :=
  ∀ size pageAlign k, IndexTraced Prod.snd k (uses size pageAlign k) (alloc size pageAlign k)

theorem TracedBy.kmallocAp (h : TracedBy alloc uses) (sz : Nat) (k : Kernel) :
    IndexTraced (fun x => x.2.2) k (Kernel.kmallocApUses uses sz k)
      (Kernel.kmallocAp alloc sz k) := by
  unfold Kernel.kmallocApUses Kernel.kmallocAp Kernel.kmallocInt
  split
  · exact (h sz 1 k).map _ fun _ => rfl
  · exact Traced.ok rfl

theorem TracedBy.getPage (h : TracedBy alloc uses) (address make : Nat) (k : Kernel) :
    IndexTraced Prod.snd k (Kernel.getPageUses uses address make k)
      (Kernel.getPage alloc address make k) := by
  unfold Kernel.getPageUses Kernel.getPage
  split
  · exact Traced.ok rfl
  · split
    · exact (h.kmallocAp 0x1000 k).map _ fun _ => rfl
    · exact Traced.ok rfl

theorem TracedBy.expandLoop (h : TracedBy alloc uses) (newSize n it : Nat) (k : Kernel) :
    IndexTraced id k (Kernel.expandLoopUses alloc uses newSize n it k)
      (Kernel.expandLoop alloc newSize n it k) := by
  induction n generalizing it k with
  | zero => exact Traced.ok rfl
  | succ n ih =>
      rw [Kernel.expandLoopUses, Kernel.expandLoop]
      split
      · apply (h.getPage _ 1 k).bind
        rintro ⟨page, k1⟩ -
        apply Traced.guard
        intro k2 hframe
        have hrest := ih (add32 it 0x1000) k2
        rw [IndexTraced, (allocFrameAt_eq hframe).2] at hrest
        exact hrest
      · exact Traced.ok rfl

theorem TracedBy.expand (h : TracedBy alloc uses) (newSize : Nat) (k : Kernel) :
    IndexTraced id k (Kernel.expandUses alloc uses newSize k) (Kernel.expand alloc newSize k) := by
  unfold Kernel.expandUses Kernel.expand
  apply Traced.guard
  intro _ _
  apply Traced.guard
  intro _ _
  exact (h.expandLoop _ _ _ k).map _ fun _ => rfl

end Uses

/-! ### Runs -/

/-- The calls on the index that a call of the heap makes. -/
def Call.uses : Call → HeapRun → List IndexUse
  | alloc fuel size pageAlign, s => Kernel.allocUses fuel size pageAlign s.kernel
  | free p, s => Kernel.freeUses p s.kernel
  | store _ _, _ => []

end Vulcanos
