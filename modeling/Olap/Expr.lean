import Olap.Function.Conversion
import Olap.Decimal.Text

/-!
# Expressions

Expression trees as they are written, and as they are after binding: a call carries the definition
that it is bound to, and an argument of another category than its parameter is wrapped in a
conversion. `Expr.text` writes a tree; conversions do not show in it.
-/

set_option autoImplicit false

namespace Olap

inductive Literal where
  | numeric (x : Double)
  | integer (i : Int64)
  | string (s : String)
  | boolean (b : Bool)
  | null
  /-- A bare word. -/
  | symbol (word : String)

namespace Literal

def type : Literal → ExprType
  | numeric _ => .numeric
  | integer _ => .integer
  | string _ => .string
  | boolean _ => .boolean
  | null => .null
  | symbol _ => .symbol

def text : Literal → String
  | numeric x => Decimal.write x
  | integer i => toString i.toInt
  | string s => "\"" ++ s ++ "\""
  | boolean b => if b then "true" else "false"
  | null => "NULL"
  | symbol word => word

end Literal

/-- A named parameter of a query. -/
structure Parameter where
  name : String
  type : ExprType
  default : Literal

inductive Expr where
  | literal (l : Literal)
  | member (m : Member)
  | level (l : Level)
  | hierarchy (h : Hierarchy)
  | dimension (d : Dimension)
  | parameter (p : Parameter)
  /-- A call that is not bound to a function. -/
  | call (name : String) (form : CallForm) (args : List Expr)
  /-- A call that is bound, with the type of its result. -/
  | bound (definition : Definition) (type : ExprType) (args : List Expr)
  /-- An implicit conversion. -/
  | convert (operand : Expr) (target : ExprType) (kind : ConversionKind)

namespace Expr

/-- The type of an expression; a call that is not bound has no value. -/
def type : Expr → ExprType
  | literal l => l.type
  | member m => .member (.ofMember m)
  | level l => .level (.ofLevel l)
  | hierarchy h => .hierarchy (.ofHierarchy h)
  | dimension d => .dimension (.ofDimension d)
  | parameter p => p.type
  | call .. => .empty
  | bound _ type _ => type
  | convert _ target _ => target

/-- The word of a symbol. -/
def symbol? : Expr → Option String
  | literal (.symbol word) => some word
  | _ => none

/-- The name of the function that is called. -/
def functionName? : Expr → Option String
  | call name _ _ => some name
  | bound d _ _ => some d.name
  | _ => none

/-- The arguments of a call, or the operand of a conversion. -/
def args : Expr → List Expr
  | call _ _ args => args
  | bound _ _ args => args
  | convert e _ _ => [e]
  | _ => []

mutual

/-- Whether every call in the tree is bound. -/
def isResolved : Expr → Bool
  | call .. => false
  | bound _ _ args => allResolved args
  | convert e _ _ => e.isResolved
  | _ => true

/-- Whether every call in each of several trees is bound. -/
def allResolved : List Expr → Bool
  | [] => true
  | e :: es => e.isResolved && allResolved es

end

/-- Writes a call; operators are parenthesized. -/
def callText (form : CallForm) (name : String) (operands : List String) : String :=
  match form, operands with
  | .infixOp, [_, _] => "(" ++ form.render name operands ++ ")"
  | _, _ => form.render name operands

mutual

def text : Expr → String
  | literal l => l.text
  | member m => m.uniqueName
  | level l => l.uniqueName
  | hierarchy h => h.uniqueName
  | dimension d => d.uniqueName
  | parameter p => s!"Parameter(\"{p.name}\")"
  | call name form args => callText form name (texts args)
  | bound d _ args => callText d.form d.name (texts args)
  | convert e _ _ => e.text

def texts : List Expr → List String
  | [] => []
  | e :: es => e.text :: texts es

end

/-! ## Members that occur in an expression -/

/-- Functions that lead from a member to others of its hierarchy, so that the member itself says
nothing about the result. -/
def navigationFunctions : List String :=
  ["ANCESTOR", "ANCESTORS", "ASCENDANTS", "CHILDREN", "CLOSINGPERIOD", "COUSIN", "DESCENDANTS",
    "DRILLDOWNMEMBER", "FIRSTCHILD", "FIRSTSIBLING", "LAG", "LASTCHILD", "LASTPERIODS",
    "LASTSIBLING", "LEAD", "NEXTMEMBER", "OPENINGPERIOD", "PARALLELPERIOD", "PARENT",
    "PERIODSTODATE", "PREVMEMBER", "SIBLINGS", "YTD", "QTD", "MTD", "WTD"]

/-- Whether the members below a call of the function stand for their whole hierarchy. The case of
ASCII letters does not matter. -/
def mapsToAllMember (function : String) : Bool := navigationFunctions.contains function.toUpper

/-- The member, or with `widened` the default member of its hierarchy. -/
def widenMember (cube : Cube) (widened : Bool) (m : Member) : Member :=
  if widened then (cube.hierarchyOf? m).elim m (·.defaultMember) else m

mutual

/-- The members that occur in an expression, from left to right and with repetitions; with `widened`,
or below a navigation function, the default members of their hierarchies. -/
def memberLeaves (cube : Cube) (widened : Bool) : Expr → List Member
  | member m => [widenMember cube widened m]
  | call name _ args => memberLeavesIn cube (widened || mapsToAllMember name) args
  | bound d _ args => memberLeavesIn cube (widened || mapsToAllMember d.name) args
  | convert e _ _ => e.memberLeaves cube widened
  | _ => []

/-- `memberLeaves` of several expressions. -/
def memberLeavesIn (cube : Cube) (widened : Bool) : List Expr → List Member
  | [] => []
  | e :: es => e.memberLeaves cube widened ++ memberLeavesIn cube widened es

end

/-- The members that occur in an expression, each once, in the order of their first occurrence. -/
def members (e : Expr) (cube : Cube) : List Member :=
  (e.memberLeaves cube false).foldl (fun ms m => if ms.any (· == m) then ms else ms ++ [m]) []

end Expr

/-- Wraps the argument at the conversion's place. -/
def Conversion.applyTo (c : Conversion) (args : List Expr) : Except ResolutionError (List Expr) :=
  match args[c.ordinal]? with
  | some e => .ok (args.set c.ordinal (.convert e c.targetType c.kind))
  | none =>
    .error (.typeMismatch "implicit conversion" s!"argument {c.ordinal}"
      s!"{args.length} arguments")

end Olap
