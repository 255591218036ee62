import Olap.Catalog.Cube
import Olap.Decimal.Text
import Olap.Double
import Olap.Tuple.Source

/-!
# Values

What an expression evaluates to. The conversions say as what a value can be seen; a failed one names
the kind of the value and the kind that was wanted.
-/

set_option autoImplicit false

namespace Olap

/-- The result of an evaluation. -/
inductive Value where
  /-- An empty cell, or a missing value. -/
  | null
  | bool (b : Bool)
  | int (i : Int64)
  | double (x : Double)
  | string (s : String)
  /-- A reserved word that stands as an argument. -/
  | symbol (word : String)
  | member (m : Member)
  | tuple (members : Row)
  /-- A set that is held in full. -/
  | list (tuples : TupleList)
  /-- A set that is produced on demand. -/
  | iterable (source : TupleSource)
  | level (l : Level)
  | hierarchy (h : Hierarchy)
  | dimension (d : Dimension)

namespace Value

/-- The value of a cell. -/
def ofCell : Option Double → Value
  | some x => double x
  | none => null

/-- The name of the kind of a value. -/
def kind : Value → String
  | null => "null"
  | bool _ => "boolean"
  | int _ => "integer"
  | double _ => "double"
  | string _ => "string"
  | symbol _ => "symbol"
  | member _ => "member"
  | tuple _ => "tuple"
  | list _ => "list"
  | iterable _ => "iterable"
  | level _ => "level"
  | hierarchy _ => "hierarchy"
  | dimension _ => "dimension"

def isNull : Value → Bool
  | null => true
  | _ => false

/-! ## Conversions -/

/-- The failure to see a value as something else. -/
def mismatch {α : Type} (v : Value) (target : String) : Except CalcError α :=
  .error (.typeConversion v.kind target)

/-- The truth value. Null is false and a number is true unless it is zero. -/
def toBool : Value → Except CalcError Bool
  | null => .ok false
  | bool b => .ok b
  | int i => .ok (i != 0)
  | double x => .ok (x != 0)
  | v => v.mismatch "boolean"

/-- The whole number; a double is cut to one, at the ends of the range if it lies outside. -/
def toInteger : Value → Except CalcError (Option Int64)
  | null => .ok none
  | int i => .ok (some i)
  | double x => .ok (some x.toInt64)
  | bool b => .ok (some (if b then 1 else 0))
  | v => v.mismatch "integer"

/-- The number. -/
def toDouble : Value → Except CalcError (Option Double)
  | null => .ok none
  | double x => .ok (some x)
  | int i => .ok (some (.ofInt64 i))
  | bool b => .ok (some (if b then 1 else 0))
  | v => v.mismatch "double"

/-- The text of a string, number or truth value. -/
def toText : Value → Except CalcError (Option String)
  | null => .ok none
  | string s => .ok (some s)
  | int i => .ok (some (toString i.toInt))
  | double x => .ok (some (Decimal.write x))
  | bool b => .ok (some (if b then "true" else "false"))
  | v => v.mismatch "string"

/-- The member, or the only member of a tuple. -/
def toMember : Value → Except CalcError Member
  | member m => .ok m
  | tuple [m] => .ok m
  | v => v.mismatch "member"

/-- The tuple; a member is a tuple of one column. -/
def toTuple : Value → Except CalcError Row
  | tuple r => .ok r
  | member m => .ok [m]
  | v => v.mismatch "tuple"

def toList : Value → Except CalcError TupleList
  | list l => .ok l
  | v => v.mismatch "list"

/-- The set, whether it is held in full or not. -/
def toSource : Value → Except CalcError TupleSource
  | iterable s => .ok s
  | list l => .ok (.list l)
  | v => v.mismatch "iterable"

def toLevel : Value → Except CalcError Level
  | level l => .ok l
  | v => v.mismatch "level"

def toHierarchy : Value → Except CalcError Hierarchy
  | hierarchy h => .ok h
  | v => v.mismatch "hierarchy"

def toDimension : Value → Except CalcError Dimension
  | dimension d => .ok d
  | v => v.mismatch "dimension"

def toSymbol : Value → Except CalcError String
  | symbol s => .ok s
  | v => v.mismatch "symbol"

/-! ## Equality and text -/

/-- Whether two values are equal as far as their contents tell. Integers and doubles are compared as
doubles, lists by their tuples. Sets that are produced on demand are not compared by content: each
is equal to itself alone. -/
def equals : Value → Value → Bool
  | null, null => true
  | bool a, bool b => a == b
  | int a, int b => a == b
  | double a, double b => a == b
  | int a, double b | double b, int a => Double.ofInt64 a == b
  | string a, string b | symbol a, symbol b => a == b
  | member a, member b => a == b
  | tuple a, tuple b => a == b
  | list a, list b => a.rows == b.rows
  | level a, level b => a == b
  | hierarchy a, hierarchy b => a == b
  | dimension a, dimension b => a == b
  | _, _ => false

/-- Compares two of several values by their places: a set that is produced on demand is equal to
itself, and to nothing else. -/
def equalAt (values : List Value) (i j : Nat) : Bool :=
  match values[i]?, values[j]? with
  | some (iterable _), some (iterable _) => i == j
  | some v, some w => v.equals w
  | _, _ => false

/-- A tuple as text; a single member stands without parentheses. -/
def rowText : Row → String
  | [m] => m.uniqueName
  | r => "(" ++ ", ".intercalate (r.map (·.uniqueName)) ++ ")"

def text : Value → String
  | null => "null"
  | bool b => if b then "true" else "false"
  | int i => toString i.toInt
  | double x => Decimal.write x
  | string s | symbol s => s
  | member m => m.uniqueName
  | tuple r => rowText r
  | list l => "\x7b" ++ ", ".intercalate (l.rows.map rowText) ++ "\x7d"
  | iterable s => s!"<iterable of arity {s.arity}>"
  | level l => l.uniqueName
  | hierarchy h => h.uniqueName
  | dimension d => d.uniqueName

end Value

end Olap
