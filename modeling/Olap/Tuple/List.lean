import Olap.Error
import Olap.Catalog.Member

/-!
# Lists of tuples

A `TupleList` keeps tuples of one arity side by side in a single buffer: tuple `i` takes up the
places from `i * arity` on. Each list carries a limit on the number of its tuples. `TupleList.rows`
is the plain list of tuples that it stands for.
-/

set_option autoImplicit false

namespace Olap

/-- A tuple: one member per column. -/
abbrev Row := List Member

/-- A list of tuples of one arity. -/
structure TupleList where
  arity : Nat
  /-- The largest number of tuples; zero means any number. -/
  limit : Nat
  members : Array Member
  arity_pos : 0 < arity

namespace TupleList

/-- Refuses a number of tuples beyond the limit. -/
def checkLimit (attempted limit : Nat) : Except CalcError Unit :=
  if 0 < limit ∧ limit < attempted then .error (.resourceLimitExceeded attempted limit) else .ok ()

/-- The number of columns of two tuples side by side. It is counted in a machine word, as all numbers
of columns are, and so wraps around; tuples that are really there have fewer columns than that. -/
def joinedArity (left right : Nat) : Nat := (left + right) % UInt64.size

/-- The count is exact as long as it fits a machine word. -/
theorem joinedArity_eq_add {left right : Nat} (h : left + right < UInt64.size) :
    joinedArity left right = left + right := Nat.mod_eq_of_lt h

/-- A list without tuples. Tuples have at least one column. -/
def empty (arity limit : Nat) : TupleList := ⟨max arity 1, limit, #[], by omega⟩

/-- The list that has the given members as its only column. -/
def ofMembers (members : List Member) (limit : Nat) : Except CalcError TupleList := do
  checkLimit members.length limit
  return ⟨1, limit, members.toArray, by decide⟩

/-- The number of tuples. -/
def size (l : TupleList) : Nat := l.members.size / l.arity

def isEmpty (l : TupleList) : Bool := l.size == 0

/-- The tuple at a place of the list. -/
def row (l : TupleList) (i : Nat) : Row :=
  (l.members.extract (i * l.arity) (i * l.arity + l.arity)).toList

/-- The tuple at a place, if the list reaches that far. -/
def row? (l : TupleList) (i : Nat) : Option Row :=
  if i * l.arity + l.arity ≤ l.members.size then some (l.row i) else none

/-- All tuples in order. -/
def rows (l : TupleList) : List Row := (List.range l.size).map l.row

@[simp] theorem rows_empty (arity limit : Nat) : (empty arity limit).rows = [] := by
  simp [rows, size, empty]

@[simp] theorem length_rows (l : TupleList) : l.rows.length = l.size := by simp [rows]

/-- Adds a tuple at the end. -/
def add (l : TupleList) (r : Row) : Except CalcError TupleList := do
  if r.length ≠ l.arity then throw (.arityMismatch l.arity r.length)
  checkLimit (l.size + 1) l.limit
  return { l with members := l.members.appendList r }

/-- Adds tuples one after the other until one is refused; also says why it was. -/
def addAll (l : TupleList) : List Row → TupleList × Option CalcError
  | [] => (l, none)
  | r :: rs =>
    match l.add r with
    | .ok l => l.addAll rs
    | .error e => (l, some e)

/-- Adds all tuples of another list at the end. -/
def append (l m : TupleList) : Except CalcError TupleList :=
  match l.addAll m.rows with
  | (l, none) => .ok l
  | (_, some e) => .error e

/-- What is said about a column that does not exist. -/
def noColumn (column arity : Nat) : CalcError :=
  .invalidArgument "slice" s!"column {column} out of range for arity {arity}"

/-- One column, as a list of its own. -/
def column (l : TupleList) (c : Nat) : Except CalcError TupleList :=
  if c < l.arity then
    .ok ⟨1, l.limit, (l.rows.filterMap (·[c]?)).toArray, by decide⟩
  else .error (noColumn c l.arity)

/-- The tuples from place `start` on, up to but without place `stop`. -/
def subList (l : TupleList) (start stop : Nat) : TupleList :=
  let stop := min stop l.size
  let start := min start stop
  { l with members := l.members.extract (start * l.arity) (stop * l.arity) }

/-- Keeps the first `count` tuples. The length of the buffer is a machine word, and so is the product
that it is cut to. -/
def truncate (l : TupleList) (count : Nat) : TupleList :=
  { l with members := l.members.take (count * l.arity % UInt64.size) }

/-- Drops all tuples. -/
def clear (l : TupleList) : TupleList := l.truncate 0

/-- The tuples at the given places, in the order of the places. -/
def permute (l : TupleList) (places : List Nat) : Except CalcError TupleList :=
  places.foldlM
    (fun out i =>
      match l.row? i with
      | some r => out.add r
      | none => .error (.internal s!"tuple index {i} out of range ({l.size})"))
    (empty l.arity l.limit)

/-- Whether a tuple occurs in the list. -/
def contains (l : TupleList) (r : Row) : Bool := l.rows.any (· == r)

/-- Lists are equal if their tuples and their limits are. -/
instance : BEq TupleList :=
  ⟨fun l m => l.arity == m.arity && l.members == m.members && l.limit == m.limit⟩

end TupleList

end Olap
