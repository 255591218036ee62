import Olap.Error

/-!
# Cancellation and timeouts

Long loops count their rounds, and every so many rounds ask the execution that they belong to whether
it should go on. What the clock says is an input here: an execution knows whether it has run past its
timeout, not how long it has run.
-/

set_option autoImplicit false

namespace Olap

/-- One run of a query, as far as stopping it is concerned. -/
structure Execution where
  cancelled : Bool := false
  /-- The timeout in milliseconds, if there is one. -/
  timeout : Option Nat := none
  /-- Whether the timeout has passed. -/
  expired : Bool := false
  /-- How often the execution has been asked whether to go on. -/
  checks : Nat := 0
  deriving DecidableEq, Repr

namespace Execution

def cancel (e : Execution) : Execution := { e with cancelled := true }

/-- Why the execution has to stop, if it has to. -/
def stopped? (e : Execution) : Option CalcError :=
  if e.cancelled then some .cancelled
  else match e.timeout with
    | some ms => if e.expired then some (.timeout ms) else none
    | none => none

/-- Asks whether to go on. -/
def check (e : Execution) : Except CalcError Unit × Execution :=
  let asked := { e with checks := e.checks + 1 }
  match e.stopped? with
  | some error => (.error error, asked)
  | none => (.ok (), asked)

end Execution

/-- Whether the round of a given number asks, when every `interval`-th round does; an interval of zero
means none. -/
def isPollingRound (interval : Nat) (round : Int) : Bool :=
  interval != 0 && round % interval == 0

/-- Asks the execution if it is the round for it. -/
def Execution.checkRound (e : Execution) (interval : Nat) (round : Int) :
    Except CalcError Unit × Execution :=
  if isPollingRound interval round then e.check else (.ok (), e)

end Olap
