import Olap.Calc.Operand

/-!
# Compiling expressions

`Expr.compile` turns a bound expression into a tree of calculations. Each function compiles its own
calls, from its operands; the styles that the caller of a call accepts are handed on to them unless
an operand is wanted in particular styles.
-/

set_option autoImplicit false

namespace Olap

/-- A bound call with its operands. -/
structure BoundCall where
  definition : Definition
  type : ExprType
  operands : List Operand

namespace BoundCall

def name (c : BoundCall) : String := c.definition.name

/-- The operand at a place. -/
def operand (c : BoundCall) (k : Nat) : Except CalcError Operand :=
  match c.operands[k]? with
  | some o => .ok o
  | none => .error (.internal s!"{c.name} has no argument {k}")

/-- The reserved word at a place, in upper case, if there is an operand. -/
def word? (c : BoundCall) (k : Nat) : Except CalcError (Option String) :=
  match c.operands[k]? with
  | none => .ok none
  | some o =>
    match o.expr.symbol? with
    | some word => .ok (some word.toUpper)
    | none =>
      .error (.invalidArgument c.name
        s!"argument {k + 1} must be a reserved word, found {o.expr.text}")

/-- Whether the overload has a parameter of the category at a place. -/
def takes (c : BoundCall) (k : Nat) (category : Category) : Bool :=
  c.definition.signature.parameters[k]? == some category

/-- Whether the overload gives a whole number. -/
def givesInteger (c : BoundCall) : Bool := c.definition.signature.result == .integer

/-! ## Operators -/

/-- Compiles a binary operator on numbers. -/
def arithmetic (c : BoundCall) (op : ArithmeticOp) (styles : List ResultStyle) :
    Except CalcError Calc := do
  let l ← c.operand 0
  let r ← c.operand 1
  if c.givesInteger then
    return .plain op.sign .integer (.integerArithmetic op) [← l.scalar styles, ← r.scalar styles]
  return .plain op.sign .numeric (.doubleArithmetic op) [← l.double styles, ← r.double styles]

/-- Compiles the negative of a number. -/
def negate (c : BoundCall) (styles : List ResultStyle) : Except CalcError Calc := do
  let o ← c.operand 0
  if c.givesInteger then return .plain "-" .integer .integerNegation [← o.scalar styles]
  return .plain "-" .numeric .doubleNegation [← o.double styles]

/-- Compiles a comparison of strings or numbers. -/
def compare (c : BoundCall) (op : Comparison) (styles : List ResultStyle) :
    Except CalcError Calc := do
  let l ← c.operand 0
  let r ← c.operand 1
  if c.takes 0 .string then
    return .plain op.sign .boolean (.compareTexts op) [← l.scalar styles, ← r.scalar styles]
  return .plain op.sign .boolean (.compareNumbers op) [← l.double styles, ← r.double styles]

/-- Compiles a binary operator on truth values. -/
def logical (c : BoundCall) (name : String) (op : Operation) (styles : List ResultStyle) :
    Except CalcError Calc := do
  let l ← (← c.operand 0).scalar styles
  let r ← (← c.operand 1).scalar styles
  return .plain name .boolean op [l, r]

/-- Compiles a choice between two operands. -/
def choice (c : BoundCall) (styles : List ResultStyle) : Except CalcError Calc := do
  let branch (o : Operand) : Except CalcError Calc :=
    match c.definition.signature.result with
    | .member => o.member styles
    | .set => o.list styles
    | _ => o.scalar styles
  let condition ← (← c.operand 0).scalar styles
  let yes ← branch (← c.operand 1)
  let no ← branch (← c.operand 2)
  return .plain "IIf" c.type .choice [condition, yes, no]

/-! ## Navigation -/

/-- Compiles the members of a level or hierarchy. -/
def members (c : BoundCall) (styles : List ResultStyle) : Except CalcError Calc := do
  let o ← c.operand 0
  if c.takes 0 .level then
    return .plain "Members" c.type .levelMembers [← o.level styles]
  return .plain "Members" c.type .hierarchyMembers [← o.hierarchy styles]

/-- Compiles the descendants of a member. -/
def descendants (c : BoundCall) (styles : List ResultStyle) : Except CalcError Calc := do
  let m ← (← c.operand 0).member styles
  let target : DescendantsTarget :=
    if c.takes 1 .level then .level else if c.takes 1 .integer then .distance else .unbounded
  let flag ←
    match ← c.word? 2 with
    | some word =>
      match DescendantsFlag.ofWord? word with
      | some flag => pure flag
      | none => throw (.invalidArgument "Descendants" s!"unknown flag {word}")
    | none => pure (if target = .unbounded then .selfBeforeAfter else .self)
  let rest ←
    match target with
    | .level => do pure [← (← c.operand 1).level styles]
    | .distance => do pure [← (← c.operand 1).scalar styles]
    | .unbounded => pure []
  return .plain "Descendants" c.type (.descendants target flag) (m :: rest)

/-- Compiles the opening of members. -/
def drilldownMember (c : BoundCall) (styles : List ResultStyle) : Except CalcError Calc := do
  let set ← (← c.operand 0).list styles
  let targets ← (← c.operand 1).list styles
  let recursive := (← c.word? 2).isSome
  return (Calc.plain "DrilldownMember" c.type (.drilldownMember recursive)
    [set, targets]).withRule .butDepends

/-! ## Sets -/

/-- Compiles a cross join; it is produced on demand if the caller accepts that. -/
def crossJoin (c : BoundCall) (styles : List ResultStyle) : Except CalcError Calc := do
  let onDemand := styles.contains .iterable || styles.contains .any
  let l ← (← c.operand 0).iterable styles
  let r ← (← c.operand 1).iterable styles
  return (Calc.plain "CrossJoin" c.type (.crossJoin onDemand) [l, r]).withStyle
    (if onDemand then .iterable else .list)

/-- Compiles a filter. -/
def filter (c : BoundCall) (styles : List ResultStyle) : Except CalcError Calc := do
  let set ← (← c.operand 0).iterable styles
  let condition ← (← c.operand 1).scalar styles
  return (Calc.plain "Filter" c.type .filter [set, condition]).withRule .allButFirst

/-- Compiles a selection of tuples with cells that are not empty. -/
def nonEmpty (c : BoundCall) (styles : List ResultStyle) : Except CalcError Calc := do
  let set ← (← c.operand 0).iterable styles
  let others ←
    if 1 < c.operands.length then do pure [← (← c.operand 1).list styles] else pure []
  return (Calc.plain "NonEmpty" c.type .nonEmpty (set :: others)).withRule .always

/-- Compiles the first tuples of a set. -/
def head (c : BoundCall) (styles : List ResultStyle) : Except CalcError Calc := do
  let set ← (← c.operand 0).list styles
  let count ←
    if 1 < c.operands.length then do pure [← (← c.operand 1).scalar styles] else pure []
  return .plain "Head" c.type .head (set :: count)

/-- Compiles the number of tuples of a set. -/
def count (c : BoundCall) (styles : List ResultStyle) : Except CalcError Calc := do
  let excludeEmpty := (← c.word? 1) == some "EXCLUDEEMPTY"
  let set ← (← c.operand 0).iterable styles
  return ((Calc.plain "Count" .integer (.count excludeEmpty) [set]).withStyle
    .valueNotNull).withRule (if excludeEmpty then .always else .anyChild)

/-- Compiles a sort. -/
def order (c : BoundCall) (styles : List ResultStyle) : Except CalcError Calc := do
  let mode ←
    match ← c.word? 2 with
    | none => pure ⟨false, false⟩
    | some word =>
      match SortMode.ofWord? word with
      | some mode => pure mode
      | none => throw (CalcError.invalidArgument "Order" s!"unknown flag {word}")
  let set ← (← c.operand 0).list styles
  let byText := c.takes 1 .string
  let o ← c.operand 1
  let key ← if byText then o.scalar styles else o.double styles
  return ((Calc.plain "Order" c.type (.order mode byText) [set, key]).withStyle
    .mutableList).withRule .allButFirst

/-- Compiles an element of a set. -/
def element (styles : List ResultStyle) (o : Operand) : Except CalcError Calc :=
  match o.type with
  | .set _ => o.list styles
  | .tuple _ => o.tuple styles
  | _ => o.member styles

/-- Compiles a set of given elements. -/
def set (c : BoundCall) (styles : List ResultStyle) : Except CalcError Calc := do
  let elements ← c.operands.mapM (element styles)
  return (Calc.plain "\x7b\x7d" c.type (.set (max c.type.arity 1)) elements).withStyle .mutableList

/-- Compiles a tuple of members; a single operand is only grouped. -/
def tuple (c : BoundCall) (styles : List ResultStyle) : Except CalcError Calc :=
  match c.operands with
  | [o] => o.compile styles
  | os => do
    let members ← os.mapM (·.member styles)
    return (Calc.plain "()" c.type .tuple members).withStyle .valueNotNull

/-! ## Others -/

/-- Compiles an aggregate over a set, of an expression or else of the current cells. -/
def aggregate (c : BoundCall) (a : Aggregate) (styles : List ResultStyle) :
    Except CalcError Calc := do
  let set ← (← c.operand 0).iterable styles
  let value ←
    match c.operands[1]? with
    | some o => o.double styles
    | none => pure .currentValue
  return (Calc.plain c.name c.type (.aggregate a) [set, value]).withRule .allButFirst

/-- Compiles an operand whose results are kept. -/
def cache (c : BoundCall) (cube : Cube) (styles : List ResultStyle) : Except CalcError Calc := do
  let o ← c.operand 0
  let inner ← if o.type.isSet then o.list styles else o.scalar styles
  return inner.cached cube

/-- Compiles a call by what its function does. -/
def compile (c : BoundCall) (cube : Cube) (styles : List ResultStyle) : Except CalcError Calc :=
  match c.definition.body with
  | .arithmetic op => c.arithmetic op styles
  | .negate => c.negate styles
  | .compare op => c.compare op styles
  | .conjunction => c.logical "AND" .conjunction styles
  | .disjunction => c.logical "OR" .disjunction styles
  | .negation => do
    return .plain "NOT" .boolean .negation [← (← c.operand 0).scalar styles]
  | .choice => c.choice styles
  | .currentMember => do return .currentMember (← (← c.operand 0).hierarchy styles)
  | .members => c.members styles
  | .children => do
    return .plain "Children" c.type .children [← (← c.operand 0).member styles]
  | .parent => do return .plain "Parent" c.type .parent [← (← c.operand 0).member styles]
  | .descendants => c.descendants styles
  | .drilldownMember => c.drilldownMember styles
  | .crossJoin => c.crossJoin styles
  | .filter => c.filter styles
  | .nonEmpty => c.nonEmpty styles
  | .head => c.head styles
  | .count => c.count styles
  | .order => c.order styles
  | .set => c.set styles
  | .tuple => c.tuple styles
  | .aggregate a => c.aggregate a styles
  | .cache => c.cache cube styles
  | .value => do (← c.operand 0).scalar styles
  | .uncompiled reason => .error (.internal reason)

end BoundCall

/-- The value of a literal. -/
def Literal.value : Literal → Value
  | numeric x => .double x
  | integer i => .int i
  | string s => .string s
  | boolean b => .bool b
  | null => .null
  | symbol word => .symbol word

namespace Expr

mutual

/-- Compiles a bound expression for a caller that accepts given styles. -/
def compile (cube : Cube) : Expr → List ResultStyle → Except CalcError Calc
  | literal l, _ => .ok (.constant l.value l.type)
  | member m, _ => .ok (.ofMember m)
  | level l, _ => .ok (.ofLevel l)
  | hierarchy h, _ => .ok (.ofHierarchy h)
  | dimension d, _ => .ok (.ofDimension d)
  | parameter p, _ => .ok (.parameter p.name p.type p.default.value)
  | call name _ _, _ => .error (.resolution (.unresolvedCall name))
  | bound d type args, styles => BoundCall.compile ⟨d, type, operands cube args⟩ cube styles
  | convert e target kind, styles => Operand.converted ⟨e, e.compile cube⟩ target kind styles

/-- Several expressions as operands. -/
def operands (cube : Cube) : List Expr → List Operand
  | [] => []
  | e :: es => ⟨e, e.compile cube⟩ :: operands cube es

end

/-- The styles that a caller accepts who wants nothing in particular, the preferred ones first. -/
def anyStyles : List ResultStyle :=
  [.any, .iterable, .list, .mutableList, .value, .valueNotNull]

/-- The expression as an operand. -/
def toOperand (cube : Cube) (e : Expr) : Operand := ⟨e, e.compile cube⟩

end Expr

end Olap
