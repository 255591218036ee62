import Olap.Calc.Basic
import Olap.Cell.Reader
import Olap.Config.Basic
import Olap.Execution.Cancellation
import Std.Data.HashMap

/-!
# The state of an evaluation

A calculation is evaluated at one current member per hierarchy, the context, and with a flag that asks
set functions to leave out tuples whose cells are empty. Every change of either is noted on an undo
stack, so that `EvalState.restore` can go back to any earlier mark; `EvalM.restoring` goes back when an
action is over, whether it succeeds or fails.
-/

set_option autoImplicit false

namespace Olap

/-- Where a calculation stands: the places of the children on the way to it, the last step first,
behind them the number of the tree. -/
abbrev Address := List Nat

/-- What a kept result is found by: the calculation, the flag for cells that are not empty, and the
unique names of the current members that matter. -/
abbrev CacheKey := Address × Bool × List String

/-- How often the calculation at each address has been evaluated. -/
abbrev CallCounts := Std.HashMap Address Nat

def CallCounts.record (counts : CallCounts) (address : Address) : CallCounts :=
  counts.insert address (counts.getD address 0 + 1)

/-- What stays the same during an evaluation. -/
structure Environment where
  cube : Cube
  config : EngineConfig
  /-- The values given for parameters. -/
  parameters : List (String × Value) := []

/-- One change of the context that can be taken back. -/
inductive Change where
  | member (ordinal : Nat) (previous : Member)
  | nonEmpty (previous : Bool)

structure EvalState where
  /-- The current member of each hierarchy, in the order of the hierarchies. -/
  context : List Member
  /-- Whether set functions leave out tuples whose cells are empty. -/
  nonEmpty : Bool
  /-- The changes of the context that can be taken back, the latest first. -/
  undo : List Change
  /-- The number of calculations that are being evaluated. -/
  depth : Nat
  reader : CellReader
  execution : Execution
  /-- The results that are kept. -/
  cache : Std.HashMap CacheKey Value
  calls : CallCounts

namespace EvalState

/-- The state before an evaluation: every hierarchy stands at its default member. -/
def start (cube : Cube) (reader : CellReader) (execution : Execution) (calls : CallCounts := ∅) :
    EvalState :=
  ⟨cube.defaultMembers, false, [], 0, reader, execution, ∅, calls⟩

/-- Makes a member the current one of its hierarchy. -/
def setMember (s : EvalState) (m : Member) : EvalState :=
  match s.context[m.hierarchyOrdinal]? with
  | some previous =>
    { s with
      context := s.context.set m.hierarchyOrdinal m
      undo := .member m.hierarchyOrdinal previous :: s.undo }
  | none => s

/-- Makes the members of a tuple current, from left to right. -/
def setRow (s : EvalState) (r : Row) : EvalState := r.foldl setMember s

def setNonEmpty (s : EvalState) (b : Bool) : EvalState :=
  { s with nonEmpty := b, undo := .nonEmpty s.nonEmpty :: s.undo }

/-- The height of the undo stack, to which `restore` can go back. -/
def mark (s : EvalState) : Nat := s.undo.length

def undoOne (s : EvalState) : EvalState :=
  match s.undo with
  | [] => s
  | .member ordinal previous :: rest =>
    { s with context := s.context.set ordinal previous, undo := rest }
  | .nonEmpty previous :: rest => { s with nonEmpty := previous, undo := rest }

@[simp] theorem undoOne_setNonEmpty (s : EvalState) (b : Bool) : (s.setNonEmpty b).undoOne = s :=
  rfl

/-- Making a member current and taking that back changes nothing. -/
theorem undoOne_setMember (s : EvalState) (m : Member)
    (h : m.hierarchyOrdinal < s.context.length) : (s.setMember m).undoOne = s := by
  simp [setMember, undoOne, List.getElem?_eq_getElem h]

/-- Takes back the latest changes, as many as given. -/
def undoMany : Nat → EvalState → EvalState
  | 0, s => s
  | n + 1, s => undoMany n s.undoOne

/-- Takes back all changes made since the undo stack had the given height. -/
def restore (s : EvalState) (mark : Nat) : EvalState := undoMany (s.undo.length - mark) s

@[simp] theorem restore_mark (s : EvalState) : s.restore s.mark = s := by
  simp [restore, mark, undoMany]

end EvalState

/-- An action in the course of an evaluation. A failure does not take back what it has done to the
state. -/
abbrev EvalM := ReaderT Environment (ExceptT CalcError (StateM EvalState))

namespace EvalM

def exec {α : Type} (x : EvalM α) (env : Environment) (s : EvalState) :
    Except CalcError α × EvalState :=
  x env s

/-- A result that needs no state. -/
def lift {α : Type} : Except CalcError α → EvalM α
  | .ok a => pure a
  | .error e => throw e

/-- A result that needs no state, from the catalog. -/
def liftCatalog {α : Type} : Except CatalogError α → EvalM α
  | .ok a => pure a
  | .error e => throw (.ofCatalog e)

/-- Runs an action and hands its failure over as a result. -/
def attempt {α : Type} (x : EvalM α) : EvalM (Except CalcError α) :=
  tryCatch (do return .ok (← x)) fun e => return .error e

/-- Runs an action and then takes back its changes of the context, also if it failed. -/
def restoring {α : Type} (x : EvalM α) : EvalM α := do
  let mark := (← get).mark
  let result ← attempt x
  modify (·.restore mark)
  lift result

/-- Runs an action with a tuple in the context. -/
def withRow {α : Type} (r : Row) (x : EvalM α) : EvalM α :=
  restoring do
    modify (·.setRow r)
    x

/-- Asks whether to go on, if it is the round for it. -/
def poll (round : Nat) : EvalM Unit := do
  let interval := (← read).config.checkInterval
  let s ← get
  let (answer, execution) := s.execution.checkRound interval round
  set { s with execution }
  lift answer

def resultLimit : EvalM Nat := return (← read).config.resultLimit

/-! ## Cells -/

/-- The value of the cell at the context. A cell that is not loaded yet counts as empty for now; when
enough of them are queued the evaluation stops. -/
def currentCell : EvalM Value := do
  let s ← get
  let (answer, reader) := s.reader.get s.context
  set { s with reader }
  match answer with
  | .ready value => return .ofCell value
  | .pending =>
    if max (← read).config.cellBatchSize 1 ≤ reader.pendingCount then throw .quantumExceeded
    else return .null

/-- Whether the cell at the context is empty. -/
def isEmptyCell : EvalM Bool := return (← currentCell).isNull

def currentMember (h : Hierarchy) : EvalM Member := do
  match (← get).context[h.ordinal]? with
  | some m => return m
  | none =>
    throw (.internal s!"hierarchy {h.uniqueName} is not part of cube {(← read).cube.name}")

/-! ## Nested calculations -/

def enter : EvalM Unit := do
  let limit := (← read).config.maxEvalDepth
  let s ← get
  if limit ≤ s.depth then throw (.recursionLimit limit)
  set { s with depth := s.depth + 1 }

def leave : EvalM Unit := modify fun s => { s with depth := s.depth - 1 }

def countCall (address : Address) : EvalM Unit := do
  if (← read).config.profiling then
    modify fun s => { s with calls := s.calls.record address }

/-- Runs an action as the evaluation of the calculation at an address. -/
def calculation {α : Type} (address : Address) (x : EvalM α) : EvalM α := do
  enter
  let result ← attempt x
  countCall address
  leave
  lift result

end EvalM

end Olap
