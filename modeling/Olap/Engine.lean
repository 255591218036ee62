import Olap.Calc.Compile
import Olap.Evaluation.Run
import Olap.Execution.Phase
import Olap.Execution.Timing
import Olap.Function.Builtins
import Olap.Validation

/-!
# Engines

An engine validates and compiles an expression once and can then execute it any number of times. An
execution runs in phases, each of which evaluates the whole tree from a fresh start; between phases
the queued cells are loaded. What executions share, the cells that are loaded and the counts of
evaluations, is the engine's store.
-/

set_option autoImplicit false

namespace Olap

/-- What expressions are prepared and executed with. -/
structure Engine where
  cube : Cube
  config : EngineConfig
  functions : FunctionTable

/-- A validated and compiled expression. -/
structure PreparedQuery where
  /-- The number by which the query's calculations are told from those of other queries. -/
  number : Nat
  /-- The expression as it was given. -/
  text : String
  /-- The expression after validation. -/
  expression : Expr
  tree : Calc
  /-- The unique names of the hierarchies whose current members can change the result. -/
  dependencies : List String

namespace PreparedQuery

def type (q : PreparedQuery) : ExprType := q.tree.type

def dependsOn (q : PreparedQuery) (hierarchy : String) : Bool := q.dependencies.contains hierarchy

/-- The address of the query's outermost calculation. -/
def address (q : PreparedQuery) : Address := [q.number]

end PreparedQuery

/-- What the executions of an engine share. -/
structure EngineStore where
  reader : CellReader
  calls : CallCounts := ∅

/-- The outcome of an execution. -/
structure QueryResult where
  value : Value
  phases : Nat
  timing : Timing
  /-- The evaluations of the query's calculations in all executions so far. -/
  profile : Profile

namespace Engine

/-- An engine with the built-in functions. -/
def make (cube : Cube) (config : EngineConfig) : Except QueryError Engine := do
  config.validate
  return ⟨cube, config, .builtin⟩

/-- Attaches the text of a query to an error. -/
def explain {ε α : Type} (toQueryError : ε → QueryError) (text : String) :
    Except ε α → Except QueryError α
  | .ok a => .ok a
  | .error e => .error ((toQueryError e).withContext text)

/-- Declares parameters, then validates an expression. -/
def validate (e : Engine) (declared : List Parameter) (expr : Expr) :
    Except ResolutionError Expr := do
  let registry ← declared.foldlM ParameterRegistry.define []
  ((expr.validate e.functions).run registry).1

/-- Validates and compiles an expression, after declaring parameters. -/
def prepare (e : Engine) (number : Nat) (expr : Expr) (declared : List Parameter := []) :
    Except QueryError PreparedQuery := do
  let text := expr.text
  let bound ← explain (CalcError.toQueryError ∘ .resolution) text (e.validate declared expr)
  let tree ← explain CalcError.toQueryError text (bound.compile e.cube Expr.anyStyles)
  return ⟨number, text, bound, tree, (tree.dependentHierarchies e.cube).map (·.uniqueName)⟩

/-- A new execution. -/
def newExecution (e : Engine) : Execution := { timeout := e.config.timeout? }

/-- An execution on its way: the store, the execution itself, and the marks collected. -/
structure Run where
  store : EngineStore
  execution : Execution
  timing : Timing := {}

/-- The name of the mark of each phase. -/
def executeMark : String := "execute"

/-- Evaluates a query from a fresh start. A set that is produced on demand is held in full before it
is handed over. -/
def phase (e : Engine) (q : PreparedQuery) (parameters : List (String × Value)) (run : Run) :
    Except CalcError Value × Run :=
  let start := EvalState.start e.cube run.store.reader run.execution run.store.calls
  let action : EvalM Value := do EvalM.held (← q.tree.evaluate q.address)
  let (result, s) := action.exec ⟨e.cube, e.config, parameters⟩ start
  let marks := (({} : Timing).start executeMark).finish executeMark
  (result, ⟨⟨s.reader, s.calls⟩, s.execution, run.timing.merge marks⟩)

/-- The phases of an execution. -/
def phased (e : Engine) (q : PreparedQuery) (parameters : List (String × Value)) :
    Phased Run Value where
  phase := e.phase q parameters
  pending run := run.store.reader.pendingCount
  load run := { run with store := { run.store with reader := run.store.reader.load.2 } }

/-- Executes a query. The store and the execution are handed back also if it fails. -/
def execute (e : Engine) (q : PreparedQuery) (store : EngineStore) (execution : Execution)
    (parameters : List (String × Value) := []) :
    Except QueryError QueryResult × EngineStore × Execution :=
  let (outcome, run) := (e.phased q parameters).run e.config.maxPhases ⟨store, execution, {}⟩
  let result := (explain CalcError.toQueryError q.text outcome).map fun o =>
    ⟨o.value, o.phases, run.timing, q.tree.profile run.store.calls q.address⟩
  (result, run.store, run.execution)

/-- Prepares an expression and executes it. -/
def evaluate (e : Engine) (number : Nat) (expr : Expr) (store : EngineStore) :
    Except QueryError QueryResult × EngineStore :=
  match e.prepare number expr with
  | .error error => (.error error, store)
  | .ok q =>
    let (result, store, _) := e.execute q store e.newExecution
    (result, store)

end Engine

end Olap
