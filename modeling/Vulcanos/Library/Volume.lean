import Mathlib.Data.List.Basic

/-!
# Volumes that are only read

A directory with one level of entries, each of which is a file with its contents or a directory that
answers nothing. Every request has one answer, whatever has been asked before.
-/

namespace Vulcanos.Volume

variable {ν β : Type}

/-- An entry. The contents of a directory are `none`. -/
structure Entry (ν β : Type) where
  name : ν
  ino : Nat
  contents : Option (List β)

/-- What a request is made on. -/
inductive Handle where
  | root
  | entry (k : Nat)
deriving Repr, DecidableEq

inductive Request (ν : Type) where
  | read (h : Handle) (offset size : Nat)
  | write (h : Handle) (offset size : Nat)
  | opens (h : Handle)
  | closes (h : Handle)
  | readdir (h : Handle) (index : Nat)
  | finddir (h : Handle) (name : ν)
  /-- Work of others, which is no request. -/
  | other
deriving DecidableEq

inductive Answer (ν β : Type) where
  | bytes (bs : List β)
  | count (n : Nat)
  | entry (e : Option (ν × Nat))
  | node (h : Option Handle)
  | done
deriving DecidableEq

/-- The bytes of a file from an offset on, as many of them as there are. -/
def slice (contents : List β) (offset size : Nat) : List β := (contents.drop offset).take size

/-- The contents that a handle leads to. -/
def contentsOf (v : List (Entry ν β)) : Handle → List β
  | .root => []
  | .entry k => (v[k]?.bind Entry.contents).getD []

/-- The answer of the volume. -/
def respond [DecidableEq ν] (v : List (Entry ν β)) : Request ν → Answer ν β
  | .read h offset size => .bytes (slice (contentsOf v h) offset size)
  | .write _ _ _ => .count 0
  | .readdir .root index => .entry (v[index]?.map fun e => (e.name, e.ino))
  | .readdir (.entry _) _ => .entry none
  | .finddir .root name => .node ((v.findIdx? fun e => e.name = name).map .entry)
  | .finddir (.entry _) _ => .node none
  | .opens _ | .closes _ | .other => .done

theorem slice_nil (offset size : Nat) : slice ([] : List β) offset size = [] := by
  rw [slice, List.drop_nil, List.take_nil]

theorem slice_map_range (f : Nat → β) (len offset size : Nat) :
    slice ((List.range len).map f) offset size =
      (List.range (min size (len - offset))).map fun j => f (offset + j) := by
  refine List.ext_getElem ?_ fun j _ _ => ?_
  · simp only [slice, List.length_take, List.length_drop, List.length_map, List.length_range]
  · simp only [slice, List.getElem_take, List.getElem_drop, List.getElem_map, List.getElem_range]

end Vulcanos.Volume
