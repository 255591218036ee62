import Olap.Error
import Olap.Double
import Olap.Number

/-!
# Operators and aggregates

What the arithmetic operators, the comparisons and the aggregates give on plain numbers and strings.
A missing operand counts as zero beside a sum or a difference, unless both are missing; it makes
every other result missing. Division by zero gives nothing. A whole number that does not fit into 64
bits is an error.
-/

set_option autoImplicit false

namespace Olap

inductive ArithmeticOp where
  | add
  | subtract
  | multiply
  | divide
  deriving DecidableEq, Repr

/-- What is said where a whole number gets too large. -/
def integerOverflow (function : String) : CalcError := .invalidArgument function "integer overflow"

namespace ArithmeticOp

def sign : ArithmeticOp → String
  | add => "+"
  | subtract => "-"
  | multiply => "*"
  | divide => "/"

/-- The operands after missing ones have been filled in, or nothing if the result is missing. -/
def operands {α : Type} (op : ArithmeticOp) (zero : α) : Option α → Option α → Option (α × α)
  | some a, some b => some (a, b)
  | none, none => none
  | a, b =>
    match op with
    | add | subtract => some (a.getD zero, b.getD zero)
    | multiply | divide => none

def onDoubles (op : ArithmeticOp) (a b : Double) : Option Double :=
  match op with
  | add => some (a + b)
  | subtract => some (a - b)
  | multiply => some (a * b)
  | divide => if b == 0 then none else some (a / b)

/-- The operator on the integers of mathematics; division cuts the fraction off. -/
def exact (op : ArithmeticOp) (a b : Int) : Option Int :=
  match op with
  | add => some (a + b)
  | subtract => some (a - b)
  | multiply => some (a * b)
  | divide => if b = 0 then none else some (a.tdiv b)

/-- The operator on 64-bit integers. -/
def onIntegers (op : ArithmeticOp) (a b : Int64) : Except CalcError (Option Int64) :=
  match op.exact a.toInt b.toInt with
  | none => .ok none
  | some n =>
    match int64? n with
    | some i => .ok (some i)
    | none => .error (integerOverflow op.sign)

end ArithmeticOp

def negateInteger (a : Int64) : Except CalcError Int64 :=
  match int64? (-a.toInt) with
  | some i => .ok i
  | none => .error (integerOverflow "-")

inductive Comparison where
  | lt
  | le
  | gt
  | ge
  | eq
  | ne
  deriving DecidableEq, Repr

namespace Comparison

def sign : Comparison → String
  | lt => "<"
  | le => "<="
  | gt => ">"
  | ge => ">="
  | eq => "="
  | ne => "<>"

/-- Whether operands in a given order satisfy the comparison. -/
def test : Comparison → Ordering → Bool
  | lt, o => o == .lt
  | le, o => o != .gt
  | gt, o => o == .gt
  | ge, o => o != .lt
  | eq, o => o == .eq
  | ne, o => o != .eq

end Comparison

/-- The functions that condense many numbers to one. -/
inductive Aggregate where
  | sum
  | avg
  | median
  deriving DecidableEq, Repr

namespace Aggregate

/-- The number in the middle of a sorted list, or the mean of the two in the middle. -/
def middle (sorted : List Double) : Double :=
  let half := sorted.length / 2
  let upper := sorted.getD half 0
  if sorted.length % 2 = 1 then upper else (sorted.getD (half - 1) 0 + upper) / 2

/-- The aggregate of the numbers that are there; of no numbers there is none. -/
def apply (a : Aggregate) (xs : List Double) : Option Double :=
  if xs.isEmpty then none
  else match a with
    | sum => some (Double.sum xs)
    | avg => some (Double.sum xs / Double.ofNat xs.length)
    | median => some (middle (xs.mergeSort fun x y => Double.totalKey x ≤ Double.totalKey y))

end Aggregate

end Olap
