import Olap.Double

/-!
# Sorting along hierarchies

Each tuple gets a sort path: the keys of its leading member's ancestors, the root first, and its own
key last. Where the paths of two tuples part, the keys at that place decide; a path that ends comes
before those that go on. A sort that breaks the hierarchy keeps the own key alone.
-/

set_option autoImplicit false

namespace Olap

inductive SortKey where
  | number (x : Option Double)
  | text (s : Option String)
  deriving Repr

namespace SortKey

/-- Compares keys; a missing value is lowest. -/
def order : SortKey → SortKey → Ordering
  | number (some x), number (some y) => Double.compareTotal x y
  | number x, number y => compare x.isSome.toNat y.isSome.toNat
  | text (some s), text (some t) => compare s t
  | text s, text t => compare s.isSome.toNat t.isSome.toNat
  | number _, text _ => .lt
  | text _, number _ => .gt

end SortKey

structure SortMode where
  descending : Bool
  /-- Sorts by the keys alone. -/
  breaksHierarchy : Bool
  deriving DecidableEq, Repr

namespace SortMode

/-- The words for the modes. -/
def words : List (String × SortMode) :=
  [("ASC", ⟨false, false⟩), ("DESC", ⟨true, false⟩), ("BASC", ⟨false, true⟩),
    ("BDESC", ⟨true, true⟩)]

def ofWord? (word : String) : Option SortMode := words.lookup word

/-- Compares keys in the direction of the mode. -/
def orderKeys (mode : SortMode) (k l : SortKey) : Ordering :=
  if mode.descending then (k.order l).swap else k.order l

end SortMode

/-- The ordinal and key of each member on the way down to a tuple's leading member. -/
abbrev SortPath := List (Nat × SortKey)

namespace SortPath

/-- Compares paths from the root on; `last` holds the keys of the step just before, which was the
same for both. -/
def orderFrom (mode : SortMode) (last : Ordering) : SortPath → SortPath → Ordering
  | [], [] => last
  | [], _ :: _ => .lt
  | _ :: _, [] => .gt
  | (i, k) :: p, (j, l) :: q =>
    if i = j then orderFrom mode (mode.orderKeys k l) p q
    else (mode.orderKeys k l).then (compare i j)

/-- Compares the paths of two tuples. -/
def order (mode : SortMode) (p q : SortPath) : Ordering := orderFrom mode .eq p q

end SortPath

end Olap
