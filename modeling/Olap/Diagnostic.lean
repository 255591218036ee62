/-!
# Error codes and diagnostics

Every failure that a query can report carries a numeric code. The code alone fixes the stage of
the query's life in which the failure arose (`ErrorCode.stage`) and the description and help that
a user is shown (`ErrorCode.info`). A `QueryError` is a code with a message and, once somebody who
knows it has attached it, the text of the query; a `Diagnostic` is the report made from it.
-/

set_option autoImplicit false

namespace Olap

/-- Where in a query's life an error arises. -/
inductive Stage where
  | validation
  | evaluation
  | catalog
  | system
  deriving DecidableEq, Repr

/-- The name under which a stage is reported. -/
def Stage.name : Stage → String
  | .validation => "validation"
  | .evaluation => "evaluation"
  | .catalog => "catalog"
  | .system => "system"

/-- A numbered kind of failure. -/
structure ErrorCode where
  number : Nat
  deriving DecidableEq, Repr

/-- What users are told about a code. -/
structure ErrorInfo where
  description : String
  help : Option String := none
  deriving DecidableEq, Repr

namespace ErrorCode

/-! ## The codes in use -/

def unknownFunction : ErrorCode := ⟨100⟩
def noMatchingOverload : ErrorCode := ⟨101⟩
def ambiguousOverload : ErrorCode := ⟨102⟩
def invalidConversion : ErrorCode := ⟨103⟩
def unresolvedCall : ErrorCode := ⟨104⟩
def invalidReservedWord : ErrorCode := ⟨105⟩
def typeMismatch : ErrorCode := ⟨106⟩
def unknownParameter : ErrorCode := ⟨107⟩
def evaluationFailed : ErrorCode := ⟨200⟩
def typeConversion : ErrorCode := ⟨201⟩
def invalidArgument : ErrorCode := ⟨202⟩
def depthLimit : ErrorCode := ⟨203⟩
def cancelled : ErrorCode := ⟨204⟩
def timeout : ErrorCode := ⟨205⟩
def quantumExceeded : ErrorCode := ⟨206⟩
def resultLimit : ErrorCode := ⟨207⟩
def memberNotFound : ErrorCode := ⟨300⟩
def hierarchyNotFound : ErrorCode := ⟨301⟩
def inconsistentCatalog : ErrorCode := ⟨302⟩
def internalError : ErrorCode := ⟨400⟩
def configuration : ErrorCode := ⟨401⟩
def arityMismatch : ErrorCode := ⟨402⟩

/-! ## What a code says -/

/-- Each stage owns one block of a hundred codes; all codes outside the first three blocks belong
to the system. -/
def stage (c : ErrorCode) : Stage :=
  if 100 ≤ c.number ∧ c.number < 200 then .validation
  else if 200 ≤ c.number ∧ c.number < 300 then .evaluation
  else if 300 ≤ c.number ∧ c.number < 400 then .catalog
  else .system

/-- The printed code: its number with at least four digits. -/
def text (c : ErrorCode) : String :=
  let digits := toString c.number
  "MDX" ++ "".pushn '0' (4 - digits.length) ++ digits

/-- Description and help of a code; codes that are not in use are unknown errors. -/
def info (c : ErrorCode) : ErrorInfo :=
  match c.number with
  | 100 => ⟨"Unknown function", none⟩
  | 101 => ⟨"No function matches signature", some "Check the number and types of the arguments"⟩
  | 102 =>
    ⟨"More than one function matches signature",
      some "Add an explicit conversion to disambiguate the call"⟩
  | 103 => ⟨"Invalid implicit conversion", none⟩
  | 104 => ⟨"Function call has not been resolved", none⟩
  | 105 => ⟨"Invalid reserved word", none⟩
  | 106 => ⟨"Type mismatch", none⟩
  | 107 => ⟨"Unknown parameter", none⟩
  | 200 => ⟨"Evaluation failed", none⟩
  | 201 => ⟨"Type conversion failed", none⟩
  | 202 => ⟨"Invalid argument", none⟩
  | 203 => ⟨"Evaluation depth limit exceeded", none⟩
  | 204 => ⟨"Query canceled", none⟩
  | 205 => ⟨"Query timeout", none⟩
  | 206 => ⟨"Cell request quantum exceeded", none⟩
  | 207 =>
    ⟨"Result limit exceeded", some "Narrow the query or raise the configured result limit"⟩
  | 300 => ⟨"Member not found", none⟩
  | 301 => ⟨"Hierarchy not found", none⟩
  | 302 => ⟨"Inconsistent catalog", none⟩
  | 400 => ⟨"Internal error", none⟩
  | 401 => ⟨"Configuration error", none⟩
  | 402 => ⟨"Tuple arity mismatch", none⟩
  | _ => ⟨"Unknown error", none⟩

end ErrorCode

/-! ## Reports -/

/-- Whether a report is about a query that failed, or about one that ran. -/
inductive Severity where
  | error
  | warning
  deriving DecidableEq, Repr

/-- The name under which a severity is reported. -/
def Severity.name : Severity → String
  | .error => "error"
  | .warning => "warning"

/-- A report to the user about one query. -/
structure Diagnostic where
  severity : Severity
  code : ErrorCode
  stage : Stage
  message : String
  query : Option String
  help : Option String
  deriving DecidableEq, Repr

namespace Diagnostic

/-- A report with the stage and the help that belong to its code. -/
def ofCode (severity : Severity) (code : ErrorCode) (message : String) : Diagnostic :=
  ⟨severity, code, code.stage, message, none, code.info.help⟩

def error (code : ErrorCode) (message : String) : Diagnostic := ofCode .error code message

def warning (code : ErrorCode) (message : String) : Diagnostic := ofCode .warning code message

/-- The printed report: one line, then a line each for the query and the help if there are any. -/
def text (d : Diagnostic) : String :=
  s!"{d.severity.name}[{d.code.text}] {d.stage.name}: {d.message}"
    ++ (d.query.elim "" fun q => "\n  in query: " ++ q)
    ++ (d.help.elim "" fun h => "\n  help: " ++ h)

end Diagnostic

/-- A failure at the query boundary. -/
structure QueryError where
  code : ErrorCode
  message : String
  query : Option String := none
  deriving DecidableEq, Repr

namespace QueryError

/-- Attaches the text of the query; the text attached first is kept. -/
def withContext (e : QueryError) (query : String) : QueryError :=
  { e with query := e.query.or (some query) }

/-- The printed error: code and message. -/
def text (e : QueryError) : String := s!"{e.code.text}: {e.message}"

def toDiagnostic (e : QueryError) : Diagnostic :=
  { Diagnostic.error e.code e.message with query := e.query }

theorem query_withContext (e : QueryError) (q : String) :
    (e.withContext q).query = some (e.query.getD q) := by
  cases h : e.query <;> simp [withContext, h]

end QueryError

end Olap
