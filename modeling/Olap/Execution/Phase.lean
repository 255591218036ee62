import Olap.Error

/-!
# Phases

A phase that misses cells goes on with placeholders, or stops when enough requests are queued. In
both cases its result is worthless: what is queued is loaded and the phase starts again. A phase that
ends with nothing queued has seen true cells only, and its result stands.
-/

set_option autoImplicit false

namespace Olap

/-- Something that runs in phases over a state of type `σ`. -/
structure Phased (σ α : Type) where
  phase : σ → Except CalcError α × σ
  /-- The number of queued requests. -/
  pending : σ → Nat
  /-- Loads what is queued. -/
  load : σ → σ

/-- A result and the number of phases that it took. -/
structure PhaseOutcome (α : Type) where
  value : α
  phases : Nat
  deriving Repr

namespace Phased

variable {σ α : Type}

/-- What is said when the phases are used up. -/
def exhausted (limit : Nat) : CalcError :=
  .internal s!"evaluation did not complete within {limit} phases"

/-- Runs the phases that are left; `limit - left` have been run. -/
def runFrom (p : Phased σ α) (limit : Nat) : Nat → σ → Except CalcError (PhaseOutcome α) × σ
  | 0, s => (.error (exhausted limit), s)
  | left + 1, s =>
    match p.phase s with
    | (.ok value, s) =>
      if p.pending s = 0 then (.ok ⟨value, limit - left⟩, s)
      else p.runFrom limit left (p.load s)
    | (.error .quantumExceeded, s) => p.runFrom limit left (p.load s)
    | (.error e, s) => (.error e, s)

/-- Runs phases until one ends with nothing queued or fails; there is at least one. -/
def run (p : Phased σ α) (maxPhases : Nat) (s : σ) : Except CalcError (PhaseOutcome α) × σ :=
  p.runFrom (max maxPhases 1) (max maxPhases 1) s

end Phased

end Olap
