import Vulcanos.HeapSafety
import Vulcanos.Proof.HeapUses

/-!
# The capacity of an ordered array

An ordered array knows its `max_size` and never looks at it. Calls stay within the storage as long
as none of them inserts into a full array or removes from one: the insertion writes behind the
storage, and the removal reads there. The heap's index is such an array, and its calls come from
`alloc` and `free`, with the heap's chunks right behind the storage.
-/

namespace Vulcanos

open Memory Word Trace

/-! ### Calls on an array -/

section Arrays

variable {cs : List IndexCall} {s : OrderedArray × Mem}

end Arrays

/-! ### The index of the heap -/

end Vulcanos
