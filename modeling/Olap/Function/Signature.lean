import Olap.Typing.Category

/-!
# Signatures

A signature is the form in which a function is called, what it gives and what it takes. Short texts
declare signatures: a letter for the form, one for the result and one per parameter, so that
`fxxi` is a function that gives a set, from a set and a whole number.
-/

set_option autoImplicit false

namespace Olap

/-- The ways to write a call. -/
inductive CallForm where
  /-- Written `Name(a, b)`. -/
  | function
  /-- Written `a.Name(b)`. -/
  | method
  /-- Written `a.Name`. -/
  | property
  /-- Written `a op b`. -/
  | infixOp
  /-- Written `op a`. -/
  | prefixOp
  /-- Written as a list in braces. -/
  | braces
  /-- Written `(a, b)`. -/
  | parentheses
  /-- Never written. -/
  | internal
  deriving DecidableEq, Repr

namespace CallForm

def all : List CallForm :=
  [function, method, property, infixOp, prefixOp, braces, parentheses, internal]

def name : CallForm → String
  | function => "Function"
  | method => "Method"
  | property => "Property"
  | infixOp => "Infix"
  | prefixOp => "Prefix"
  | braces => "Braces"
  | parentheses => "Parentheses"
  | internal => "Internal"

/-- The form that a letter declares. -/
def ofLetter? : Char → Option CallForm
  | 'f' => some function
  | 'm' => some method
  | 'p' => some property
  | 'i' => some infixOp
  | 'P' => some prefixOp
  | 'B' => some braces
  | 'T' => some parentheses
  | 'I' => some internal
  | _ => none

/-- Writes a call whose operands have been written already. A form that does not fit the number of
operands is written as a function. -/
def render (form : CallForm) (name : String) (operands : List String) : String :=
  let listed := ", ".intercalate
  match form, operands with
  | method, object :: rest => object ++ "." ++ name ++ "(" ++ listed rest ++ ")"
  | property, [object] => object ++ "." ++ name
  | infixOp, [l, r] => l ++ " " ++ name ++ " " ++ r
  | prefixOp, [operand] => name ++ " " ++ operand
  | braces, operands => "\x7b" ++ listed operands ++ "\x7d"
  | parentheses, operands => "(" ++ listed operands ++ ")"
  | _, operands => name ++ "(" ++ listed operands ++ ")"

/-- Writes the shape of a call: each operand by the name of its category. A property shows its first
operand only. -/
def signature (form : CallForm) (name : String) (parameters : List Category) : String :=
  let operands := parameters.map fun c => "<" ++ c.name ++ ">"
  match form, operands with
  | property, [] => name
  | property, object :: _ => object ++ "." ++ name
  | form, operands => form.render name operands

/-- The number of parameters of a form that fixes it. -/
def fixedArity? : CallForm → Option Nat
  | infixOp => some 2
  | prefixOp | property => some 1
  | _ => none

end CallForm

/-- The category that a letter declares. -/
def Category.ofLetter? : Char → Option Category
  | 'n' => some numeric
  | 'i' => some integer
  | 's' => some string
  | 'b' => some logical
  | 'm' => some member
  | 't' => some tuple
  | 'x' => some set
  | 'l' => some level
  | 'h' => some hierarchy
  | 'd' => some dimension
  | 'y' => some symbol
  | 'v' => some value
  | 'e' => some empty
  | 'U' => some null
  | _ => none

/-- One overload of a function. -/
structure Signature where
  name : String
  form : CallForm
  result : Category
  parameters : List Category
  deriving DecidableEq, Repr

namespace Signature

/-- Reads the letters of a signature, or says what is wrong with them. -/
def read (name : String) (letters : String) : Except String Signature := do
  match letters.toList with
  | [] => throw "missing or unknown syntax flag"
  | f :: rest =>
    let some form := CallForm.ofLetter? f | throw "missing or unknown syntax flag"
    let some result := rest.head?.bind Category.ofLetter? | throw "missing or unknown return type"
    let some parameters := rest.tail.mapM Category.ofLetter? | throw "unknown parameter type"
    if let some arity := form.fixedArity? then
      if parameters.length ≠ arity then
        throw s!"{form.name} syntax takes {arity} parameter(s), {parameters.length} declared"
    return ⟨name, form, result, parameters⟩

/-- The shape of a call that the signature describes. -/
def text (s : Signature) : String := s.form.signature s.name s.parameters

end Signature

end Olap
