import Olap.Function.Arithmetic
import Olap.Function.Navigation
import Olap.Function.Sorting
import Olap.Typing.Types
import Olap.Value

/-!
# Calculation trees

A compiled expression is a tree of calculations. Each node has a name, the type of its result, the
style in which it gives it, a rule for its dependencies, and the operation that makes its value from
those of its children. Operations are plain data; what they do is said in `Olap.Evaluation`.
-/

set_option autoImplicit false

namespace Olap

inductive ResultStyle where
  /-- A single value, or null. -/
  | value
  /-- A single value that is never null. -/
  | valueNotNull
  /-- A set in full. -/
  | list
  /-- A set in full that belongs to the caller. -/
  | mutableList
  /-- A set that is produced on demand. -/
  | iterable
  /-- Whatever is cheapest. -/
  | any
  deriving DecidableEq, Repr

namespace ResultStyle

def all : List ResultStyle := [value, valueNotNull, list, mutableList, iterable, any]

def name : ResultStyle → String
  | value => "Value"
  | valueNotNull => "ValueNotNull"
  | list => "List"
  | mutableList => "MutableList"
  | iterable => "Iterable"
  | any => "Any"

def text : ResultStyle → String
  | value => "VALUE"
  | valueNotNull => "VALUE_NOT_NULL"
  | list => "LIST"
  | mutableList => "MUTABLE_LIST"
  | iterable => "ITERABLE"
  | any => "ANY"

def isSet : ResultStyle → Bool
  | list | mutableList | iterable => true
  | _ => false

end ResultStyle

/-- How a calculation's dependence on hierarchies follows from that of its children. -/
inductive DependencyRule where
  /-- It depends on what any child depends on. -/
  | anyChild
  /-- The first child is a set whose tuples are the context of the others. -/
  | allButFirst
  /-- It depends on all that no child fixes. -/
  | butDepends
  /-- It depends on the hierarchy that the first child gives. -/
  | currentOf
  /-- It depends on every hierarchy. -/
  | always
  | never
  deriving DecidableEq, Repr

def DependencyRule.all : List DependencyRule :=
  [anyChild, allButFirst, butDepends, currentOf, always, never]

def DependencyRule.name : DependencyRule → String
  | anyChild => "AnyChild"
  | allButFirst => "AllButFirst"
  | butDepends => "ButDepends"
  | currentOf => "CurrentOf"
  | always => "Always"
  | never => "Never"

/-- The conversions between kinds of value that a compiled tree may need. -/
inductive Adapter where
  | memberToTuple
  | memberToSet
  | tupleToSet
  | dimensionToHierarchy
  | levelToHierarchy
  /-- A set that is produced on demand is held in full. -/
  | materialize
  /-- A set that is held in full is copied for the caller. -/
  | mutableCopy
  | integerToDouble
  deriving DecidableEq, Repr

namespace Adapter

/-- The name of the calculation that makes the conversion. -/
def name : Adapter → String
  | memberToTuple => "MemberToTuple"
  | memberToSet => "MemberToSet"
  | tupleToSet => "TupleToSet"
  | dimensionToHierarchy => "DimensionHierarchy"
  | levelToHierarchy => "LevelHierarchy"
  | materialize => "IterableToList"
  | mutableCopy => "MutableList"
  | integerToDouble => "IntegerToDouble"

def style : Adapter → ResultStyle
  | memberToSet | tupleToSet | mutableCopy => .mutableList
  | materialize => .list
  | _ => .value

end Adapter

/-- Where the target depth of descendants comes from. -/
inductive DescendantsTarget where
  /-- There is none: the whole subtree is wanted. -/
  | unbounded
  | level
  | distance
  deriving DecidableEq, Repr

/-- What a calculation does with the values of its children. -/
inductive Operation where
  | constant (v : Value)
  | parameter (name : String) (default : Value)
  /-- Evaluates all children and gives the value of the last one. -/
  | sequence
  /-- The value of the current cell. -/
  | currentValue
  /-- The value of the cell with the children's members in the context. -/
  | memberValue
  /-- The value of the cell with the child's tuple in the context. -/
  | tupleValue
  | currentMember
  | adapt (a : Adapter)
  /-- Keeps the child's value for each combination of current members of the hierarchies with the
  given ordinals. -/
  | cache (ordinals : List Nat)
  | toBoolean
  | toNumber
  | toInteger
  | toText
  | hierarchyOf
  | dimensionOf
  | integerArithmetic (op : ArithmeticOp)
  | doubleArithmetic (op : ArithmeticOp)
  | integerNegation
  | doubleNegation
  | compareNumbers (c : Comparison)
  | compareTexts (c : Comparison)
  | conjunction
  | disjunction
  | negation
  | choice
  | levelMembers
  | hierarchyMembers
  | children
  | parent
  | descendants (target : DescendantsTarget) (flag : DescendantsFlag)
  | drilldownMember (recursive : Bool)
  | crossJoin (onDemand : Bool)
  | filter
  | nonEmpty
  | head
  | count (excludeEmpty : Bool)
  | order (mode : SortMode) (byText : Bool)
  | set (arity : Nat)
  | tuple
  | aggregate (a : Aggregate)

/-- What is known of a calculation before it is evaluated. -/
structure CalcInfo where
  name : String
  type : ExprType
  style : ResultStyle
  rule : DependencyRule

/-- A tree of calculations. -/
inductive Calc where
  | node (info : CalcInfo) (operation : Operation) (children : List Calc)

namespace Calc

def info : Calc → CalcInfo
  | node info _ _ => info

def operation : Calc → Operation
  | node _ op _ => op

def children : Calc → List Calc
  | node _ _ cs => cs

def name (c : Calc) : String := c.info.name

def type (c : Calc) : ExprType := c.info.type

def style (c : Calc) : ResultStyle := c.info.style

def rule (c : Calc) : DependencyRule := c.info.rule

/-- The style of results of a type, where nothing else is said. -/
def defaultStyle (type : ExprType) : ResultStyle := if type.isSet then .list else .value

/-- A calculation that gives its result in the default style and depends on what its children depend
on. -/
def plain (name : String) (type : ExprType) (op : Operation) (children : List Calc) : Calc :=
  node ⟨name, type, defaultStyle type, .anyChild⟩ op children

def withStyle (c : Calc) (style : ResultStyle) : Calc :=
  node { c.info with style } c.operation c.children

def withRule (c : Calc) (rule : DependencyRule) : Calc :=
  node { c.info with rule } c.operation c.children

/-! ## Calculations of all kinds -/

/-- The style of a fixed value. -/
def constantStyle : Value → ResultStyle
  | .null => .value
  | .list _ => .list
  | .iterable _ => .iterable
  | _ => .valueNotNull

/-- A fixed value. -/
def constant (v : Value) (type : ExprType) : Calc :=
  node ⟨"Literal", type, constantStyle v, .never⟩ (.constant v) []

def ofMember (m : Member) : Calc := constant (.member m) (.member (.ofMember m))

def ofLevel (l : Level) : Calc := constant (.level l) (.level (.ofLevel l))

def ofHierarchy (h : Hierarchy) : Calc := constant (.hierarchy h) (.hierarchy (.ofHierarchy h))

def ofDimension (d : Dimension) : Calc := constant (.dimension d) (.dimension (.ofDimension d))

/-- The value given for a parameter, or else the default. -/
def parameter (name : String) (type : ExprType) (default : Value) : Calc :=
  (plain "Parameter" type (.parameter name default) []).withRule .never

/-- The value of the cell with the given members in the context. -/
def memberValue (members : List Calc) : Calc :=
  (plain "MemberValue" .scalar .memberValue members).withRule .butDepends

/-- The value of the cell with the given tuple in the context. -/
def tupleValue (tuple : Calc) : Calc :=
  (plain "TupleValue" .scalar .tupleValue [tuple]).withRule .butDepends

/-- The value of the current cell. -/
def currentValue : Calc := (plain "CurrentValue" .scalar .currentValue []).withRule .always

def currentMember (hierarchy : Calc) : Calc :=
  let type :=
    match hierarchy.type with
    | .hierarchy s => .member s
    | _ => .anyMember
  ((plain "CurrentMember" type .currentMember [hierarchy]).withStyle .valueNotNull).withRule
    .currentOf

/-- Another kind of value. -/
def adapted (a : Adapter) (c : Calc) (type : ExprType) : Calc :=
  (plain a.name type (.adapt a) [c]).withStyle a.style

end Calc

end Olap
