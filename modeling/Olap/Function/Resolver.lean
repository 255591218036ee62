import Olap.Expr

/-!
# Overload resolution

A resolver knows the overloads of one function name and form. Given the arguments it adds up, for
each overload, the costs of the conversions that the arguments need; the cheapest overload wins, and
a tie is ambiguous. That no overload fits is an outcome and not an error.
-/

set_option autoImplicit false

namespace Olap

/-- An overload that fits. -/
structure Candidate where
  definition : Definition
  cost : Nat
  conversions : List Conversion
  deriving Repr

/-- What came of matching arguments with the overloads of one resolver. -/
inductive Outcome where
  | resolved (winner : Candidate)
  | noMatch
  /-- Several overloads fit at the same lowest cost. -/
  | ambiguous (candidates : List String) (cost : Nat)
  deriving Repr

namespace Outcome

def cost? : Outcome → Option Nat
  | resolved winner => some winner.cost
  | ambiguous _ cost => some cost
  | noMatch => none

/-- Picks the cheapest candidate. -/
def ofCandidates (cs : List Candidate) : Outcome :=
  match (cs.map (·.cost)).min? with
  | none => noMatch
  | some best =>
    match cs.filter (·.cost == best) with
    | [winner] => resolved winner
    | winners => ambiguous (winners.map (·.definition.signature.text)) best

end Outcome

/-- A function with a fixed list of overloads. -/
structure Overloads where
  name : String
  description : String
  form : CallForm
  signatures : List Signature
  reserved : List String
  resultRule : ResultRule
  body : FunctionBody
  deriving DecidableEq, Repr

namespace Overloads

def definitions (o : Overloads) : List Definition :=
  o.signatures.map fun s => ⟨s, o.description, o.reserved, o.resultRule, o.body⟩

/-- The overloads that fit the arguments. -/
def candidates (o : Overloads) (args : List Expr) : List Candidate :=
  o.definitions.filterMap fun d =>
    (matchParameters d.signature.parameters (args.map Expr.type)).map fun (cost, conversions) =>
      ⟨d, cost, conversions⟩

/-- Reads overloads from the letters that declare them. All must have the same form. -/
def ofLetters (name description : String) (letters : List String) (reserved : List String)
    (body : FunctionBody) : Except ResolutionError Overloads := do
  let signatures ← letters.mapM (Signature.ofLetters name)
  match signatures with
  | [] => throw (.malformedSignature name "" "no overloads declared")
  | s :: _ =>
    if let some odd := signatures.find? (·.form != s.form) then
      throw (.malformedSignature name (",".intercalate letters)
        s!"overloads mix {s.form.name} and {odd.form.name} syntax")
    return ⟨name, description, s.form, signatures, reserved, .declared, body⟩

end Overloads

/-- Which arguments a function with any number of parameters takes. -/
inductive VariadicRule where
  /-- Members, tuples and sets in any mix. -/
  | elements
  /-- A single argument of any kind, or two and more members. -/
  | columns
  deriving DecidableEq, Repr

namespace VariadicRule

/-- The parameters for arguments of the given categories, if they can be taken. A hierarchy or a
dimension is taken for its current member. -/
def parameters? : VariadicRule → List Category → Option (List Category)
  | elements, cs => cs.mapM fun
    | .member => some .member
    | .tuple => some .tuple
    | .set => some .set
    | .hierarchy | .dimension => some .member
    | _ => none
  | columns, [] => none
  | columns, [c] => some [c]
  | columns, cs => cs.mapM fun
    | .member | .hierarchy | .dimension => some .member
    | _ => none

/-- The parameters for the arguments, if they can be taken. The rule looks at their categories only. -/
def matches? (rule : VariadicRule) (args : List Expr) : Option (List Category) :=
  rule.parameters? (args.map (·.type.category))

end VariadicRule

/-- A function that takes any number of arguments. -/
structure Variadic where
  name : String
  description : String
  form : CallForm
  result : Category
  /-- The parameters for the arguments, if they can be taken. -/
  parameters? : List Expr → Option (List Category)
  resultRule : ResultRule
  body : FunctionBody

namespace Variadic

/-- The overload with the given parameters. -/
def definition (v : Variadic) (parameters : List Category) : Definition :=
  ⟨⟨v.name, v.form, v.result, parameters⟩, v.description, [], v.resultRule, v.body⟩

/-- The overload for the arguments, if they can be taken. -/
def candidate? (v : Variadic) (args : List Expr) : Option Candidate := do
  let parameters ← v.parameters? args
  let (cost, conversions) ← matchParameters parameters (args.map Expr.type)
  return ⟨v.definition parameters, cost, conversions⟩

end Variadic

/-- What knows the overloads of a function. -/
inductive Resolver where
  | fixed (overloads : Overloads)
  | variadic (function : Variadic)

namespace Resolver

def name : Resolver → String
  | fixed o => o.name
  | variadic v => v.name

def form : Resolver → CallForm
  | fixed o => o.form
  | variadic v => v.form

def description : Resolver → String
  | fixed o => o.description
  | variadic v => v.description

/-- The words that may stand as arguments. -/
def reserved : Resolver → List String
  | fixed o => o.reserved
  | variadic _ => []

/-- The overloads that fit the arguments. -/
def candidates (r : Resolver) (args : List Expr) : List Candidate :=
  match r with
  | fixed o => o.candidates args
  | variadic v => (v.candidate? args).toList

/-- Matches the arguments with the overloads. -/
def resolve (r : Resolver) (args : List Expr) : Outcome := .ofCandidates (r.candidates args)

/-- Whether no overload takes a set at place `k`. Of the functions with any number of arguments only
those in braces take sets. -/
def requiresScalarAt (r : Resolver) (k : Nat) : Bool :=
  match r with
  | fixed o => !o.signatures.any fun s => s.parameters[k]? == some .set
  | variadic v => v.form != .braces

/-- The shapes of all overloads. -/
def signatures : Resolver → List String
  | fixed o => o.signatures.map Signature.text
  | variadic v => [s!"{v.form.signature v.name []} ..."]

end Resolver

end Olap
