import Olap.Function.Resolver

/-!
# Function tables

A table holds resolvers in the order of their registration. Calls find them by form and by name,
where the case of ASCII letters does not matter; a name may be shared by several resolvers, whose
cheapest overloads then compete.
-/

set_option autoImplicit false

namespace Olap

structure FunctionTable where
  resolvers : List Resolver

namespace FunctionTable

def empty : FunctionTable := ⟨[]⟩

/-- Adds a resolver behind all others. -/
def register (t : FunctionTable) (r : Resolver) : FunctionTable := ⟨t.resolvers ++ [r]⟩

/-- What a call is found by. -/
def key (name : String) (form : CallForm) : String × CallForm := (name.toUpper, form)

/-- The resolvers for a name and form. -/
def lookup (t : FunctionTable) (name : String) (form : CallForm) : List Resolver :=
  t.resolvers.filter fun r => key r.name r.form == key name form

def isReserved (t : FunctionTable) (word : String) : Bool :=
  t.resolvers.any fun r => r.reserved.any (·.toUpper == word.toUpper)

/-- The number of different names, each form counted for itself. -/
def size (t : FunctionTable) : Nat := (t.resolvers.map fun r => key r.name r.form).eraseDups.length

/-- Whether argument `k` of a known function must be a scalar. -/
def requiresScalarAt (t : FunctionTable) (name : String) (form : CallForm) (k : Nat) : Bool :=
  let resolvers := t.lookup name form
  !resolvers.isEmpty && resolvers.all (·.requiresScalarAt k)

/-- The winners among outcomes at the lowest cost `best`: the shapes of all that attain it, and the
last overload that attains it alone within its resolver. -/
def winnersAt (best : Nat) : List Outcome → List String × Option Candidate
  | [] => ([], none)
  | o :: os =>
    let (shapes, later) := winnersAt best os
    match o with
    | .resolved winner =>
      if winner.cost = best then
        (winner.definition.signature.text :: shapes, later.or (some winner))
      else (shapes, later)
    | .ambiguous tied cost => if cost = best then (tied ++ shapes, later) else (shapes, later)
    | .noMatch => (shapes, later)

/-- The cheapest overload for the arguments. A tie at the lowest cost, within a resolver or across
resolvers, is an error. -/
def select (t : FunctionTable) (name : String) (form : CallForm) (args : List Expr) :
    Except ResolutionError Candidate :=
  let resolvers := t.lookup name form
  if resolvers.isEmpty then .error (.unknownFunction name form)
  else
    let shape := form.signature name (args.map (·.type.category))
    let outcomes := resolvers.map (·.resolve args)
    match (outcomes.filterMap Outcome.cost?).min? with
    | none => .error (.noMatchingOverload name shape)
    | some best =>
      match winnersAt best outcomes with
      | ([_], some winner) => .ok winner
      | ([], _) => .error (.noMatchingOverload name shape)
      | ([_], none) => .error (.noMatchingOverload name shape)
      | (shapes, _) => .error (.ambiguousOverload name shape shapes)

/-- Binds a call to the cheapest overload and converts its arguments. All conversions are checked
before any of them is applied. -/
def resolveCall (t : FunctionTable) (name : String) (form : CallForm) (args : List Expr) :
    Except ResolutionError (Definition × List Expr) := do
  let winner ← t.select name form args
  winner.conversions.forM Conversion.checkValid
  let args ← winner.conversions.foldlM (fun args c => c.applyTo args) args
  return (winner.definition, args)

end FunctionTable

end Olap
