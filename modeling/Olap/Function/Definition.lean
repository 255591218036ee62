import Olap.Function.Arithmetic
import Olap.Typing.Types

/-!
# Function definitions

A definition is one overload that a call can be bound to: its signature, the words that it knows,
the rule for the type of its result, and what it does.
-/

set_option autoImplicit false

namespace Olap

/-- The scope of a dimensional type; of a tuple none is known. -/
def ExprType.scope : ExprType → Scope
  | member s | level s | hierarchy s | dimension s => s
  | set t => t.scope
  | _ => .unknown

/-- The rules for the type of a call's result. -/
inductive ResultRule where
  /-- The category that the signature declares, on the hierarchy of the first argument. -/
  | declared
  /-- What the second and third argument can both be seen as. -/
  | branches
  /-- A set of tuples with the columns of all arguments. -/
  | joined
  /-- A set of what the arguments, or their elements, can all be seen as. -/
  | elements
  /-- The type of a single argument, or a tuple with the columns of all arguments. -/
  | columns
  /-- The type of the first argument. -/
  | first
  deriving DecidableEq, Repr

namespace ResultRule

/-- The type of a declared category, with what the arguments tell about its scope. -/
def ofCategory (result : Category) (arguments : List ExprType) : ExprType :=
  let first := arguments.head?
  let scope := first.elim Scope.unknown ExprType.scope
  match result with
  | .member => .member scope
  | .set =>
    match first with
    | some (.set t) => .set t
    | some (.tuple scopes) => .set (.tuple scopes)
    | _ => .set (.member scope)
  | .tuple => .tuple (arguments.map ExprType.scope)
  | .level => .level scope
  | .hierarchy => .hierarchy scope
  | c => .ofCategory c

/-- What a value of the type contributes to a set. -/
def elementOf : ExprType → ExprType
  | .set t => t
  | t => t

/-- The common type of several types, or any member if there is none. -/
def commonElement : List ExprType → ExprType
  | [] => .anyMember
  | t :: ts => (ts.foldlM ExprType.common? t).getD .anyMember

/-- The type of the result of a call with arguments of the given types. -/
def apply (rule : ResultRule) (result : Category) (arguments : List ExprType) : ExprType :=
  match rule with
  | declared => ofCategory result arguments
  | branches =>
    match arguments with
    | _ :: t :: u :: _ => (t.common? u).getD t
    | _ => .scalar
  | joined => .set (.tuple (arguments.flatMap ExprType.scopes))
  | elements => .set (commonElement (arguments.map elementOf))
  | columns =>
    match arguments with
    | [t] => t
    | ts => .tuple (ts.flatMap ExprType.scopes)
  | first => arguments.headD .scalar

end ResultRule

/-- What a function does. -/
inductive FunctionBody where
  | arithmetic (op : ArithmeticOp)
  | negate
  | compare (c : Comparison)
  | conjunction
  | disjunction
  | negation
  | choice
  | currentMember
  | members
  | children
  | parent
  | descendants
  | drilldownMember
  | crossJoin
  | filter
  | nonEmpty
  | head
  | count
  | order
  | set
  | tuple
  | aggregate (a : Aggregate)
  | cache
  | value
  /-- Calls can be bound but not compiled; trying it says why. -/
  | uncompiled (reason : String)
  deriving DecidableEq, Repr

/-- An overload that a call can be bound to. -/
structure Definition where
  signature : Signature
  description : String
  /-- The reserved words that may stand as arguments. -/
  reserved : List String
  resultRule : ResultRule
  body : FunctionBody
  deriving DecidableEq, Repr

namespace Definition

def name (d : Definition) : String := d.signature.name

def form (d : Definition) : CallForm := d.signature.form

/-- The type of the result of a call with arguments of the given types. -/
def resultType (d : Definition) (arguments : List ExprType) : ExprType :=
  d.resultRule.apply d.signature.result arguments

end Definition

end Olap
