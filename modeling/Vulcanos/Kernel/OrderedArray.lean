import Vulcanos.Kernel.LibcString

/-!
# `ordered_array.c`

The array the heap keeps its holes in. It is stored in memory, one word for each slot, and nothing
compares an index with `max_size`: an array that outgrows its storage writes over what comes after.
The comparison is handed in at each call, with the memory it reads already applied.
-/

namespace Vulcanos

open Memory

/-- `ordered_array_t`, less its `less_than` pointer. -/
structure OrderedArray where
  array : Nat
  size : Nat
  maxSize : Nat
deriving Repr, DecidableEq

namespace OrderedArray

/-- `array->array[i]`. -/
def slot (a : OrderedArray) (m : Mem) (i : Nat) : Nat := read32 m (a.array + 4 * i)

/-- `array->array[i] = item`. -/
def setSlot (a : OrderedArray) (i item : Nat) (m : Mem) : Mem := write32 m (a.array + 4 * i) item

/-- The stored items, in slot order. -/
def entries (a : OrderedArray) (m : Mem) : List Nat := (List.range a.size).map (a.slot m)

/-- `place_ordered_array`. -/
def place (addr maxSize : Nat) (m : Mem) : OrderedArray × Mem :=
  (⟨addr, 0, maxSize⟩, memset addr 0 (4 * maxSize) m)

/-- The first loop of `insert_ordered_array`. -/
def insertPosition (lessThan : Nat → Nat → Bool) (item : Nat) (a : OrderedArray) (m : Mem) :
    Nat → Nat → Nat
  | 0, it => it
  | n + 1, it =>
      if it < a.size ∧ lessThan (a.slot m it) item then insertPosition lessThan item a m n (it + 1)
      else it

/-- The second loop of `insert_ordered_array`. -/
def shiftUp (a : OrderedArray) : Nat → Nat → Nat → Mem → Mem
  | 0, _, _, m => m
  | n + 1, it, tmp, m =>
      if it < a.size then shiftUp a n (it + 1) (a.slot m (it + 1)) (a.setSlot (it + 1) tmp m) else m

/-- `insert_ordered_array`. -/
def insert (lessThan : Nat → Nat → Bool) (item : Nat) (a : OrderedArray) (m : Mem) :
    OrderedArray × Mem :=
  let it := insertPosition lessThan item a m a.size 0
  if it = a.size then ({ a with size := a.size + 1 }, a.setSlot a.size item m)
  else
    ({ a with size := a.size + 1 },
      shiftUp a a.size it (a.slot m it) (a.setSlot it item m))

/-- `lookup_ordered_array`. -/
def lookup (i : Nat) (a : OrderedArray) (m : Mem) : Nat := a.slot m i

/-- The loop of `remove_ordered_array`. -/
def shiftDown (a : OrderedArray) : Nat → Nat → Mem → Mem
  | 0, _, m => m
  | n + 1, i, m =>
      if i < a.size then shiftDown a n (i + 1) (a.setSlot i (a.slot m (i + 1)) m) else m

/-- `remove_ordered_array`. -/
def remove (i : Nat) (a : OrderedArray) (m : Mem) : OrderedArray × Mem :=
  ({ a with size := a.size - 1 }, shiftDown a a.size i m)

end OrderedArray

end Vulcanos
