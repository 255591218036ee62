import Olap.Calc.Dependency
import Olap.Expr

/-!
# Operands

An operand is an expression with the ways to compile it: a caller names the styles of result that it
accepts. The functions here compile an operand to the kind of value that a caller needs, and put
conversions in between where the operand has another kind: a hierarchy stands for its current member,
a member for its cell or for a set of one element, and a set that is produced on demand is held in
full where a list is wanted.
-/

set_option autoImplicit false

namespace Olap

/-- An expression that can be compiled for callers that accept given styles. -/
structure Operand where
  expr : Expr
  compile : List ResultStyle → Except CalcError Calc

namespace Calc

/-- Turns a calculation into one of an accepted style, if it can be. -/
def restyle (c : Calc) (accepted : List ResultStyle) : Except CalcError Calc :=
  let refused : Except CalcError Calc :=
    .error (.internal (s!"{c.name} produces {c.style.text} but caller accepts ["
      ++ ", ".intercalate (accepted.map ResultStyle.name) ++ "]"))
  if accepted.contains c.style || accepted.contains .any then .ok c
  else match c.style with
    | .iterable =>
      if accepted.contains .list then .ok (adapted .materialize c c.type)
      else if accepted.contains .mutableList then
        .ok (adapted .mutableCopy (adapted .materialize c c.type) c.type)
      else refused
    | .list =>
      if accepted.contains .mutableList then .ok (adapted .mutableCopy c c.type)
      else if accepted.contains .iterable then .ok c
      else refused
    | .mutableList => if accepted.contains .iterable then .ok c else refused
    | .valueNotNull => if accepted.contains .value then .ok c else refused
    | _ => refused

end Calc

namespace Operand

def type (o : Operand) : ExprType := o.expr.type

/-- The failure to compile the operand to a kind of value. -/
def mismatch (o : Operand) (expected : String) : Except CalcError Calc :=
  .error (.resolution (.typeMismatch o.expr.text expected o.type.text))

/-- Compiles the operand to one of the accepted styles. -/
def compileAs (o : Operand) (accepted : List ResultStyle) : Except CalcError Calc := do
  (← o.compile accepted).restyle accepted

/-! ## Catalog objects -/

def hierarchy (o : Operand) (styles : List ResultStyle) : Except CalcError Calc :=
  match o.type with
  | .hierarchy _ => o.compile styles
  | .dimension s => do
    return .adapted .dimensionToHierarchy (← o.compile styles) (.hierarchy s)
  | .level s => do return .adapted .levelToHierarchy (← o.compile styles) (.hierarchy s)
  | .member s => do
    return .plain "Hierarchy" (.hierarchy s) .hierarchyOf [← o.compile styles]
  | _ => o.mismatch "hierarchy"

def member (o : Operand) (styles : List ResultStyle) : Except CalcError Calc :=
  match o.type with
  | .member _ | .tuple [_] => o.compile styles
  | .hierarchy _ | .dimension _ => do return .currentMember (← o.hierarchy styles)
  | _ => o.mismatch "member"

def level (o : Operand) (styles : List ResultStyle) : Except CalcError Calc :=
  match o.type with
  | .level _ => o.compile styles
  | _ => o.mismatch "level"

def dimension (o : Operand) (styles : List ResultStyle) : Except CalcError Calc :=
  match o.type with
  | .dimension _ => o.compile styles
  | .hierarchy s | .level s | .member s => do
    return .plain "Dimension" (.dimension { s with hierarchy := none }) .dimensionOf
      [← o.hierarchy styles]
  | _ => o.mismatch "dimension"

def tuple (o : Operand) (styles : List ResultStyle) : Except CalcError Calc :=
  match o.type with
  | .tuple _ => o.compile styles
  | .member s => do return .adapted .memberToTuple (← o.compile styles) (.tuple [s])
  | .hierarchy s | .dimension s => do
    return .adapted .memberToTuple (← o.member styles) (.tuple [s])
  | _ => o.mismatch "tuple"

/-! ## Scalars -/

/-- Compiles to a scalar; members and tuples stand for their cells. -/
def scalar (o : Operand) (styles : List ResultStyle) : Except CalcError Calc :=
  match o.type with
  | .member _ => do return .memberValue [← o.compile styles]
  | .tuple _ => do return .tupleValue (← o.compile styles)
  | .hierarchy _ | .dimension _ => do return .memberValue [← o.member styles]
  | t =>
    if t.isScalar || t == .symbol then o.compileAs [.value, .valueNotNull] else o.mismatch "scalar"

/-- Compiles to a number; whole numbers are widened. -/
def double (o : Operand) (styles : List ResultStyle) : Except CalcError Calc := do
  let c ← o.scalar styles
  return if c.type = .integer then .adapted .integerToDouble c .numeric else c

/-! ## Sets -/

/-- Compiles to a set that is held in full; with `owned`, one that belongs to the caller. -/
def list (o : Operand) (styles : List ResultStyle) (owned : Bool := false) :
    Except CalcError Calc :=
  match o.type with
  | .set _ => o.compileAs (if owned then [.mutableList] else [.list, .mutableList])
  | .member s => do return .adapted .memberToSet (← o.compile styles) (.set (.member s))
  | .tuple ss => do return .adapted .tupleToSet (← o.compile styles) (.set (.tuple ss))
  | .hierarchy s | .dimension s => do
    return .adapted .memberToSet (← o.member styles) (.set (.member s))
  | _ => o.mismatch "set"

/-- Compiles to a set, produced on demand where that is possible. -/
def iterable (o : Operand) (styles : List ResultStyle) : Except CalcError Calc :=
  match o.type with
  | .set _ => o.compileAs [.iterable, .list, .mutableList]
  | _ => o.list styles

/-! ## Conversions -/

/-- Compiles the operand of an implicit conversion. -/
def converted (o : Operand) (target : ExprType) (kind : ConversionKind)
    (styles : List ResultStyle) : Except CalcError Calc :=
  match kind with
  | .identity | .scalarToValue => o.compile styles
  | .numericPromotion => do return .adapted .integerToDouble (← o.compile styles) .numeric
  | .logicalNumeric => do
    let c ← o.scalar styles
    return if target.category = .logical then .plain "ToBoolean" .boolean .toBoolean [c]
      else .plain "ToNumber" .numeric .toNumber [c]
  | .nullToScalar => .ok (.constant .null target)
  | .valueToScalar => do
    let c ← o.scalar styles
    return match target.category with
      | .logical => .plain "ToBoolean" .boolean .toBoolean [c]
      | .integer => .plain "ToInteger" .integer .toInteger [c]
      | .string => .plain "ToString" .string .toText [c]
      | _ => .plain "ToNumber" .numeric .toNumber [c]
  | .cellValue => o.scalar styles
  | .memberToTuple => o.tuple styles
  | .toSet => o.list styles
  | .currentMember => o.member styles
  | .dimensionToHierarchy | .levelToHierarchy => o.hierarchy styles
  | .notConvertible =>
    .error (.resolution (.typeMismatch "implicit conversion" target.text o.type.text))

end Operand

end Olap
