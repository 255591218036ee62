import Olap.Function.Table

/-!
# Validation

Validation binds every call of an expression to an overload, from the leaves up: the arguments of a
call are validated first, so that their types are known. On the way it collects the parameters that
the expression uses. What was collected before an error stays collected.
-/

set_option autoImplicit false

namespace Olap

/-- The parameters seen so far, in the order in which they were first seen; names are unique. -/
abbrev ParameterRegistry := List Parameter

namespace ParameterRegistry

def find? (r : ParameterRegistry) (name : String) : Option Parameter :=
  List.find? (fun p : Parameter => p.name == name) r

/-- The parameter of a given name. -/
def parameter (r : ParameterRegistry) (name : String) : Except ResolutionError Parameter :=
  match r.find? name with
  | some p => .ok p
  | none => .error (.unknownParameter name)

/-- Declares a parameter. Of two declarations the first one counts; they must have the same type. -/
def define (r : ParameterRegistry) (p : Parameter) : Except ResolutionError ParameterRegistry :=
  match r.find? p.name with
  | none => .ok (List.append r [p])
  | some q =>
    if q.type = p.type then .ok r
    else .error (.typeMismatch s!"parameter {p.name}" q.type.text p.type.text)

end ParameterRegistry

/-- A step of validation: it may add parameters, and may fail. -/
abbrev ValidateM := ExceptT ResolutionError (StateM ParameterRegistry)

namespace ValidateM

/-- A step that adds no parameters. -/
def lift {α : Type} : Except ResolutionError α → ValidateM α
  | .ok a => pure a
  | .error e => throw e

/-- Declares a parameter. -/
def define (p : Parameter) : ValidateM Unit := do
  set (← lift ((← get).define p))

end ValidateM

/-- Refuses symbols that the function does not know; the case of ASCII letters does not matter. -/
def Definition.checkSymbols (d : Definition) : List Expr → Except ResolutionError Unit
  | [] => .ok ()
  | e :: es =>
    match e.symbol? with
    | none => d.checkSymbols es
    | some word =>
      if d.reserved.any (·.toUpper == word.toUpper) then d.checkSymbols es
      else .error (.invalidSymbol d.name word)

/-- Binds a call whose arguments are validated. -/
def FunctionTable.bind (t : FunctionTable) (name : String) (form : CallForm) (args : List Expr) :
    Except ResolutionError Expr := do
  let (d, args) ← t.resolveCall name form args
  d.checkSymbols args
  return .bound d (d.resultType (args.map Expr.type)) args

namespace Expr

mutual

/-- Binds every call of an expression. Calls that are bound stay bound to their definition; only
their arguments are validated. -/
def validate (t : FunctionTable) : Expr → ValidateM Expr
  | call name form args => do
    let args ← validateAll t args
    ValidateM.lift (t.bind name form args)
  | parameter p => do
    ValidateM.define p
    return parameter p
  | convert e target kind => do return convert (← e.validate t) target kind
  | bound d type args => do return bound d type (← validateAll t args)
  | e => return e

/-- Validates several expressions from left to right. -/
def validateAll (t : FunctionTable) : List Expr → ValidateM (List Expr)
  | [] => return []
  | e :: es => do
    let e ← e.validate t
    let es ← validateAll t es
    return e :: es

end

end Expr

end Olap
