import Olap.Catalog.Error
import Olap.Function.Signature

/-!
# Errors of binding, compiling and evaluating

Each error is named for its cause; `message` and `code` give its text and its number.
-/

set_option autoImplicit false

namespace Olap

inductive ResolutionError where
  /-- No function has this name and form. -/
  | unknownFunction (name : String) (form : CallForm)
  /-- No overload takes these arguments. -/
  | noMatchingOverload (name signature : String)
  /-- Several overloads take them at the same lowest cost. -/
  | ambiguousOverload (name signature : String) (candidates : List String)
  /-- The categories could be converted, but not this operand. -/
  | invalidConversion (source target : Category) (reason : String)
  | malformedSignature (name letters reason : String)
  | unresolvedCall (name : String)
  /-- A word stands as an argument that the function does not know. -/
  | invalidSymbol (name word : String)
  | typeMismatch (context expected found : String)
  | unknownParameter (name : String)
  /-- There is no conversion between the two categories. -/
  | coercion (source target : Category)
  deriving DecidableEq, Repr

namespace ResolutionError

/-- The name of the kind of failure. -/
def kind : ResolutionError → String
  | unknownFunction .. => "UnknownFunction"
  | noMatchingOverload .. => "NoMatchingOverload"
  | ambiguousOverload .. => "AmbiguousOverload"
  | invalidConversion .. => "InvalidConversion"
  | malformedSignature .. => "MalformedSignature"
  | unresolvedCall _ => "UnresolvedCall"
  | invalidSymbol .. => "InvalidSymbol"
  | typeMismatch .. => "TypeMismatch"
  | unknownParameter _ => "UnknownParameter"
  | coercion .. => "Coercion"

def message : ResolutionError → String
  | unknownFunction name form =>
    s!"No function matches name '{name}' with syntax {form.name}"
  | noMatchingOverload _ signature => s!"No function matches signature '{signature}'"
  | ambiguousOverload _ signature candidates =>
    s!"More than one function matches signature '{signature}': "
      ++ ", ".intercalate candidates
  | invalidConversion source target reason =>
    s!"Cannot convert {source.name} to {target.name}: {reason}"
  | malformedSignature name letters reason =>
    s!"Malformed signature '{letters}' for function '{name}': {reason}"
  | unresolvedCall name => s!"Function call '{name}' has not been resolved"
  | invalidSymbol name word => s!"Symbol '{word}' is not a reserved word of function '{name}'"
  | typeMismatch context expected found =>
    s!"Type mismatch in {context}: expected {expected}, found {found}"
  | unknownParameter name => s!"Unknown parameter: {name}"
  | coercion source target => Category.noConversionMessage source target

def code : ResolutionError → ErrorCode
  | unknownFunction .. => .unknownFunction
  | noMatchingOverload .. => .noMatchingOverload
  | ambiguousOverload .. => .ambiguousOverload
  | invalidConversion .. | coercion .. => .invalidConversion
  | unresolvedCall _ => .unresolvedCall
  | invalidSymbol .. => .invalidReservedWord
  | typeMismatch .. => .typeMismatch
  | unknownParameter _ => .unknownParameter
  | malformedSignature .. => .internalError

end ResolutionError

/-- Reads a signature from the letters that declare it. -/
def Signature.ofLetters (name letters : String) : Except ResolutionError Signature :=
  match Signature.read name letters with
  | .ok s => .ok s
  | .error reason => .error (.malformedSignature name letters reason)

/-- Why compiling or evaluating an expression fails. -/
inductive CalcError where
  /-- A list of tuples would outgrow the limit on results. -/
  | resourceLimitExceeded (attempted limit : Nat)
  /-- A value of one kind cannot be seen as another. -/
  | typeConversion (source target : String)
  | cancelled
  | timeout (milliseconds : Nat)
  /-- So many cells are queued that they have to be loaded before the evaluation goes on. -/
  | quantumExceeded
  /-- A tuple does not have as many members as its list has columns. -/
  | arityMismatch (expected actual : Nat)
  | internal (text : String)
  | invalidArgument (function text : String)
  | resolution (error : ResolutionError)
  | recursionLimit (limit : Nat)
  | unknownMember (name : String)
  deriving DecidableEq, Repr

namespace CalcError

/-- The name of the kind of failure; a call that cannot be bound has a kind of its own for every
cause. -/
def kind : CalcError → String
  | resourceLimitExceeded .. => "ResourceLimitExceeded"
  | typeConversion .. => "TypeConversion"
  | cancelled => "Cancelled"
  | timeout _ => "Timeout"
  | quantumExceeded => "QuantumExceeded"
  | arityMismatch .. => "ArityMismatch"
  | internal _ => "Internal"
  | invalidArgument .. => "InvalidArgument"
  | resolution error => error.kind
  | recursionLimit _ => "RecursionLimit"
  | unknownMember _ => "UnknownMember"

def message : CalcError → String
  | resourceLimitExceeded attempted limit =>
    s!"Size of tuple list ({attempted}) exceeded limit ({limit})"
  | typeConversion source target => s!"Cannot convert {source} to {target}"
  | cancelled => "Query canceled"
  | timeout milliseconds => s!"Query timeout of {milliseconds} ms reached"
  | quantumExceeded => "Cell request quantum exceeded"
  | arityMismatch expected actual => s!"Tuple arity mismatch: expected {expected}, got {actual}"
  | internal text => s!"Internal evaluation error: {text}"
  | invalidArgument function text => s!"Invalid argument to {function}: {text}"
  | resolution error => error.message
  | recursionLimit limit => s!"Maximum evaluation depth ({limit}) exceeded"
  | unknownMember name => s!"Member not found: {name}"

def code : CalcError → ErrorCode
  | resourceLimitExceeded .. => .resultLimit
  | typeConversion .. => .typeConversion
  | cancelled => .cancelled
  | timeout _ => .timeout
  | quantumExceeded => .quantumExceeded
  | arityMismatch .. => .arityMismatch
  | internal _ => .internalError
  | invalidArgument .. => .invalidArgument
  | resolution error => error.code
  | recursionLimit _ => .depthLimit
  | unknownMember _ => .memberNotFound

/-- A catalog failure met while evaluating: only a missing member is no defect. -/
def ofCatalog : CatalogError → CalcError
  | .memberNotFound name => unknownMember name
  | e => internal e.message

def toQueryError (e : CalcError) : QueryError := { code := e.code, message := e.message }

end CalcError

end Olap
