/-!
# Timing marks

A collector counts how often each named stretch of a query has been run through. Stretches may nest
and overlap.
-/

set_option autoImplicit false

namespace Olap

/-- The marks that are open, the latest first, and the count of each name in the order in which the
names were first counted. -/
structure Timing where
  openMarks : List String := []
  counts : List (String × Nat) := []
  deriving DecidableEq, Repr

namespace Timing

def addTo (name : String) (n : Nat) : List (String × Nat) → List (String × Nat)
  | [] => [(name, n)]
  | (other, count) :: rest =>
    if other == name then (other, count + n) :: rest else (other, count) :: addTo name n rest

def start (t : Timing) (name : String) : Timing := { t with openMarks := name :: t.openMarks }

/-- Closes the latest open mark of a name; without one nothing happens. -/
def finish (t : Timing) (name : String) : Timing :=
  if t.openMarks.contains name then
    { openMarks := t.openMarks.erase name, counts := addTo name 1 t.counts }
  else t

/-- Adds the counts of another collector. -/
def merge (t u : Timing) : Timing :=
  { t with counts := u.counts.foldl (fun counts (name, n) => addTo name n counts) t.counts }

def count? (t : Timing) (name : String) : Option Nat := t.counts.lookup name

end Timing

end Olap
