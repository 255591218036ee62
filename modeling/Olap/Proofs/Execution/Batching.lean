import Olap.Engine
import Olap.Proofs.Calc.Compile
import Olap.Proofs.Evaluation.Mirrors
import Olap.Proofs.Validation

/-!
# Reading cells in batches

A query that reads cells in batches runs in phases. A phase that ends with nothing queued has the
outcome that the facts give, and so has a query whose phases do not run out, unless a phase fails
that has requests queued (`Engine.execute_batched`): an error other than the signal to load cells ends
the query at once, although it may come from a placeholder.
-/

set_option autoImplicit false

namespace Olap

theorem CellReader.pendingCount_load (r : CellReader) : r.load.2.pendingCount = 0 := by
  rcases r with facts | ⟨inner, loaded, _ | ⟨κ, queue⟩, batches⟩ <;> rfl

/-! ## Trees of prepared queries -/

theorem Engine.explain_eq_ok {ε α : Type} {toQueryError : ε → QueryError} {text : String}
    {x : Except ε α} {a : α} (h : explain toQueryError text x = .ok a) : x = .ok a := by
  cases x with
  | ok b => exact congrArg Except.ok (Except.ok.inj h)
  | error e => cases h

theorem Engine.prepare_within {e : Engine} {number : Nat} {expr : Expr} {declared : List Parameter}
    {q : PreparedQuery} {D : Domain} (h : e.prepare number expr declared = .ok q)
    (hw : expr.Within D) : q.tree.Within D := by
  obtain ⟨bound, hvalid, h⟩ := bind_eq_ok.1 h
  obtain ⟨tree, hcompile, h⟩ := bind_eq_ok.1 h
  cases h
  obtain ⟨registry, -, hvalid⟩ := bind_eq_ok.1 (explain_eq_ok hvalid)
  have hbound : bound.Within D := Expr.validate_within hw hvalid
  have hformed : tree.Formed e.cube D False :=
    Expr.compile_formed hbound (fun h => h.elim) (explain_eq_ok hcompile)
  exact hformed.mono fun _ h => h.within

/-! ## Phases -/

namespace Phased

variable {σ α : Type} {p : Phased σ α} {limit left : Nat} {s t : σ} {v : α} {err : CalcError}

theorem runFrom_settled (h : p.phase s = (.ok v, t)) (hp : p.pending t = 0) :
    p.runFrom limit (left + 1) s = (.ok ⟨v, limit - left⟩, t) := by
  rw [runFrom, h]
  exact if_pos hp

theorem runFrom_pending (h : p.phase s = (.ok v, t)) (hp : p.pending t ≠ 0) :
    p.runFrom limit (left + 1) s = p.runFrom limit left (p.load t) := by
  rw [runFrom, h]
  exact if_neg hp

theorem runFrom_signal (h : p.phase s = (.error .quantumExceeded, t)) :
    p.runFrom limit (left + 1) s = p.runFrom limit left (p.load t) := by
  rw [runFrom, h]

theorem runFrom_error (h : p.phase s = (.error err, t)) (herr : err ≠ .quantumExceeded) :
    p.runFrom limit (left + 1) s = (.error err, t) := by
  rw [runFrom, h]
  cases err <;> first | rfl | exact absurd rfl herr

end Phased

namespace Engine

/-- What holds of a run before and after a phase. -/
structure Run.Ready (c : Cube) (facts : List Fact) (run : Run) : Prop where
  reader : run.store.reader.Faithful c facts
  running : run.execution.stopped? = none

theorem Run.ready_of_memory (c : Cube) {facts : List Fact} {run : Run}
    (hr : run.store.reader = .memory facts) (hx : run.execution.stopped? = none) :
    run.Ready c facts :=
  ⟨hr ▸ .memory, hx⟩

variable {e : Engine} {q : PreparedQuery} {parameters : List (String × Value)} {facts : List Fact}
variable {run run' : Run}

theorem start_live (h : run.Ready e.cube facts) :
    (EvalState.start e.cube run.store.reader run.execution run.store.calls).Live e.cube facts where
  within := by
    refine ⟨(Cube.coordinate_defaultMembers e.cube).within, fun k v hk => ?_⟩
    simp [EvalState.start] at hk
  coordinate := Cube.coordinate_defaultMembers e.cube
  reader := h.reader
  running := h.running

section
variable (hc : e.cube.Regular) (hq : q.tree.Within (Domain.ofCube e.cube))
variable (hp : Environment.Within ⟨e.cube, e.config, parameters⟩ (Domain.ofCube e.cube))
include hc hq hp

/-- The evaluation of which a phase consists goes like the one over the facts. -/
theorem phase_mirrors :
    EvalM.Mirrors ⟨e.cube, e.config, parameters⟩ facts
      (q.tree.evaluate q.address >>= EvalM.held) (Value.Within (Domain.ofCube e.cube)) := by
  have htree : EvalM.Mirrors ⟨e.cube, e.config, parameters⟩ facts (q.tree.evaluate q.address)
      (Value.Within (Domain.ofCube e.cube)) := Calc.evaluate_mirrors hc hp hq q.address
  refine htree.bind fun v hv => ?_
  have hheld : EvalM.Composed ⟨e.cube, e.config, parameters⟩ (Domain.ofCube e.cube) False
      (fun _ => False) (EvalM.held v) (Value.Within (Domain.ofCube e.cube)) := .held hv
  exact EvalM.Mirrors.of_composed hc (fun _ h => h.elim) hheld

theorem phase_ready (h : run.Ready e.cube facts) : (e.phase q parameters run).2.Ready e.cube facts := by
  have hlive := (phase_mirrors hc hq hp).live (start_live h)
  exact ⟨hlive.reader, hlive.running⟩

/-- A phase that starts with nothing queued ends with requests queued, or as over the facts. -/
theorem phase_outcome (h : run.Ready e.cube facts) (hsettled : run.store.reader.pendingCount = 0)
    (hr : run'.store.reader = .memory facts) (hx : run'.execution.stopped? = none) :
    (e.phase q parameters run).2.store.reader.pendingCount ≠ 0 ∨
      (e.phase q parameters run).1 = (e.phase q parameters run').1 ∧
        (e.phase q parameters run').1 ≠ .error .quantumExceeded := by
  have htracks : EvalState.Tracks e.cube facts
      (.start e.cube run.store.reader run.execution run.store.calls)
      (.start e.cube run'.store.reader run'.execution run'.store.calls) :=
    ⟨start_live h, hsettled, rfl, rfl, rfl, rfl, hr, hx⟩
  rcases (phase_mirrors hc hq hp).outcome _ _ htracks with hpending | ⟨hres, -, hne⟩
  · exact .inl hpending
  · exact .inr ⟨hres, hne⟩

/-- Over the facts one phase is enough. -/
theorem run_memory (hr : run.store.reader = .memory facts) (hx : run.execution.stopped? = none)
    (maxPhases : Nat) :
    ((e.phased q parameters).run maxPhases run).1.map (·.value) = (e.phase q parameters run).1 := by
  have hready := run.ready_of_memory e.cube hr hx
  have hmirrors : EvalM.Mirrors ⟨e.cube, e.config, parameters⟩ facts
      (q.tree.evaluate q.address >>= EvalM.held) (Value.Within (Domain.ofCube e.cube)) :=
    phase_mirrors hc hq hp
  obtain ⟨hframe, -, -⟩ := hmirrors.keeps _ (start_live hready).within
  have hsettled : (e.phase q parameters run).2.store.reader = .memory facts :=
    hframe.reader_memory hr
  have hlimit : max maxPhases 1 = max maxPhases 1 - 1 + 1 := by omega
  rcases hph : e.phase q parameters run with ⟨err | v, after⟩
  · rcases phase_outcome hc hq hp hready (by rw [hr]; rfl) hr hx with h | ⟨-, hne⟩
    · rw [hsettled] at h
      exact absurd rfl h
    · rw [hph] at hne
      rw [Phased.run, hlimit, Phased.runFrom_error hph (fun heq => hne (by rw [heq]))]
      rfl
  · rw [hph] at hsettled
    have hpending : (e.phased q parameters).pending after = 0 := by
      show after.store.reader.pendingCount = 0
      rw [hsettled]
      rfl
    rw [Phased.run, hlimit, Phased.runFrom_settled hph hpending]
    rfl

/-- Phases that start with nothing queued run out, or end as the one over the facts, or fail with
requests queued. -/
theorem runFrom_batched (h : run.Ready e.cube facts) (hsettled : run.store.reader.pendingCount = 0)
    (hr : run'.store.reader = .memory facts) (hx : run'.execution.stopped? = none)
    (limit left : Nat) :
    ((e.phased q parameters).runFrom limit left run).1 = .error (Phased.exhausted limit) ∨
      ((e.phased q parameters).runFrom limit left run).1.map (·.value) =
        (e.phase q parameters run').1 ∨
      (∃ err, ((e.phased q parameters).runFrom limit left run).1 = .error err) ∧
        ((e.phased q parameters).runFrom limit left run).2.store.reader.pendingCount ≠ 0 := by
  induction left generalizing run with
  | zero => exact .inl rfl
  | succ left ih =>
    have hready := phase_ready hc hq hp h
    have houtcome := phase_outcome hc hq hp h hsettled hr hx
    rcases hph : e.phase q parameters run with ⟨r, after⟩
    rw [hph] at hready houtcome
    -- what is queued is loaded before the next phase
    have hload : ((e.phased q parameters).load after).Ready e.cube facts :=
      ⟨hready.reader.load hc, hready.running⟩
    have hnext := ih hload (CellReader.pendingCount_load _)
    rcases r with err | v
    · by_cases herr : err = .quantumExceeded
      · subst herr
        rw [Phased.runFrom_signal hph]
        exact hnext
      · rw [Phased.runFrom_error hph herr]
        rcases houtcome with hpending | ⟨hres, -⟩
        · exact .inr (.inr ⟨⟨err, rfl⟩, hpending⟩)
        · exact .inr (.inl hres)
    · by_cases hpending : after.store.reader.pendingCount = 0
      · rw [Phased.runFrom_settled hph hpending]
        rcases houtcome with hne | ⟨hres, -⟩
        · exact absurd hpending hne
        · exact .inr (.inl hres)
      · rw [Phased.runFrom_pending hph hpending]
        exact hnext

end

/-! ## Queries -/

theorem explain_map {ε α β : Type} (toQueryError : ε → QueryError) (text : String) (f : α → β)
    (r : Except ε α) : (explain toQueryError text r).map f = explain toQueryError text (r.map f) := by
  cases r <;> rfl

section
variable (e : Engine) (q : PreparedQuery) (store : EngineStore) (x : Execution)
variable (parameters : List (String × Value))

/-- The value or error of an execution is that of its phases, with the text of the query attached. -/
theorem execute_value :
    (e.execute q store x parameters).1.map (·.value) =
      explain CalcError.toQueryError q.text
        (((e.phased q parameters).run e.config.maxPhases ⟨store, x, {}⟩).1.map (·.value)) := by
  rw [← explain_map]
  unfold execute
  rcases (e.phased q parameters).run e.config.maxPhases ⟨store, x, {}⟩ with ⟨_ | v, run⟩ <;> rfl

theorem execute_error {err : CalcError}
    (h : ((e.phased q parameters).run e.config.maxPhases ⟨store, x, {}⟩).1 = .error err) :
    (e.execute q store x parameters).1 = .error (err.toQueryError.withContext q.text) := by
  unfold execute
  rcases hrun : (e.phased q parameters).run e.config.maxPhases ⟨store, x, {}⟩ with ⟨_ | v, run⟩
  all_goals
    rw [hrun] at h
    cases h
  rfl

end

/-- A query over the cube that reads cells in batches runs out of phases, or gives the value or error
that it gives over the facts, or fails with requests queued. -/
theorem execute_batched {e : Engine} (hc : e.cube.Built) {number : Nat} {expr : Expr}
    {declared : List Parameter} {q : PreparedQuery} (hq : e.prepare number expr declared = .ok q)
    (hw : expr.Within (Domain.ofCube e.cube)) (facts : List Fact) (calls calls' : CallCounts)
    {x x' : Execution} (hx : x.stopped? = none) (hx' : x'.stopped? = none) :
    (e.execute q ⟨(CellReader.memory facts).batched, calls⟩ x).1 =
        .error ((Phased.exhausted (max e.config.maxPhases 1)).toQueryError.withContext q.text) ∨
      (e.execute q ⟨(CellReader.memory facts).batched, calls⟩ x).1.map (·.value) =
        (e.execute q ⟨.memory facts, calls'⟩ x').1.map (·.value) ∨
      (∃ err, (e.execute q ⟨(CellReader.memory facts).batched, calls⟩ x).1 = .error err) ∧
        (e.execute q ⟨(CellReader.memory facts).batched, calls⟩ x).2.1.reader.pendingCount ≠ 0 := by
  have hregular := hc.regular
  have htree := prepare_within hq hw
  have hparameters : Environment.Within ⟨e.cube, e.config, []⟩ (Domain.ofCube e.cube) := by
    rintro p ⟨⟩
  let run : Run := ⟨⟨(CellReader.memory facts).batched, calls⟩, x, {}⟩
  let run' : Run := ⟨⟨.memory facts, calls'⟩, x', {}⟩
  have hready : run.Ready e.cube facts := ⟨CellReader.faithful_batched e.cube facts, hx⟩
  have hdirect : ((e.phased q []).run e.config.maxPhases run').1.map (·.value) =
      (e.phase q [] run').1 := run_memory hregular htree hparameters rfl hx' e.config.maxPhases
  have hready' : run'.store.reader = .memory facts := rfl
  have hphases := runFrom_batched hregular htree hparameters hready rfl hready' hx'
    (max e.config.maxPhases 1) (max e.config.maxPhases 1)
  rw [← hdirect] at hphases
  rcases hphases with hout | hsame | ⟨⟨err, herr⟩, hpending⟩
  · exact .inl (execute_error e q _ x [] hout)
  · refine .inr (.inl ?_)
    rw [execute_value, execute_value]
    exact congrArg _ hsame
  · exact .inr (.inr ⟨⟨_, execute_error e q _ x [] herr⟩, hpending⟩)

end Engine

/-! ## An error from a placeholder -/

namespace Sample

def engine : Engine := ⟨cube, { profiling := false }, .builtin⟩

/-- `9223372036854775807 + (1 - Count(NonEmpty(\x7b[Measures].[Amount]\x7d)))`: it overflows where the
cell of the amount is empty. -/
def overflowing : Expr :=
  .call "+" .infixOp [.literal (.integer 9223372036854775807),
    .call "-" .infixOp [.literal (.integer 1),
      .call "Count" .function
        [.call "NonEmpty" .function [.call "\x7b\x7d" .braces [.member amount]]]]]

def facts : List Fact := [⟨[amount], 5⟩]

def query : PreparedQuery :=
  match engine.prepare 0 overflowing with
  | .ok q => q
  | .error _ => ⟨0, "", overflowing, .currentValue, []⟩

theorem prepare_overflowing : engine.prepare 0 overflowing = .ok query := by
  have hsome : (engine.prepare 0 overflowing).toOption.isSome = true := by decide +kernel
  obtain ⟨q, hq⟩ := exists_ok_of_isSome hsome
  rw [query, hq]

theorem overflowing_within : overflowing.Within (Domain.ofCube cube) :=
  ⟨trivial, ⟨trivial, ⟨⟨⟨measure_mem (by decide), trivial⟩, trivial⟩, trivial⟩, trivial⟩, trivial⟩

def reading (reader : CellReader) : String :=
  match (engine.execute query ⟨reader, ∅⟩ {}).1.map (·.value) with
  | .ok v => v.text
  | .error err => err.message

theorem readings :
    reading (CellReader.memory facts).batched = "Invalid argument to +: integer overflow" ∧
      reading (.memory facts) = "9223372036854775807" := by
  decide +kernel

/-- The cell is there, but the first phase takes it for empty and fails. -/
theorem execute_batched_placeholder :
    engine.prepare 0 overflowing = .ok query ∧
      ¬ ((engine.execute query ⟨(CellReader.memory facts).batched, ∅⟩ {}).1 =
          .error ((Phased.exhausted (max engine.config.maxPhases 1)).toQueryError.withContext
            query.text) ∨
        (engine.execute query ⟨(CellReader.memory facts).batched, ∅⟩ {}).1.map (·.value) =
          (engine.execute query ⟨.memory facts, ∅⟩ {}).1.map (·.value)) := by
  refine ⟨prepare_overflowing, ?_⟩
  obtain ⟨hbatched, hmemory⟩ := readings
  rintro (h | h)
  · rw [reading, h] at hbatched
    revert hbatched
    decide
  · rw [reading, h] at hbatched
    rw [reading, hbatched] at hmemory
    revert hmemory
    decide

theorem execute_batched_sample :
    cube.Built ∧ engine.prepare 0 overflowing = .ok query ∧
      overflowing.Within (Domain.ofCube cube) ∧ engine.newExecution.stopped? = none ∧
      ((engine.execute query ⟨(CellReader.memory facts).batched, ∅⟩ engine.newExecution).1 =
          .error ((Phased.exhausted (max engine.config.maxPhases 1)).toQueryError.withContext
            query.text) ∨
        (engine.execute query ⟨(CellReader.memory facts).batched, ∅⟩ engine.newExecution).1.map
            (·.value) =
          (engine.execute query ⟨.memory facts, ∅⟩ engine.newExecution).1.map (·.value) ∨
        (∃ err, (engine.execute query ⟨(CellReader.memory facts).batched, ∅⟩
            engine.newExecution).1 = .error err) ∧
          (engine.execute query ⟨(CellReader.memory facts).batched, ∅⟩
            engine.newExecution).2.1.reader.pendingCount ≠ 0) :=
  ⟨cube_built, prepare_overflowing, overflowing_within, rfl,
    Engine.execute_batched (e := engine) cube_built prepare_overflowing overflowing_within facts ∅ ∅
      rfl rfl⟩

end Sample

end Olap
