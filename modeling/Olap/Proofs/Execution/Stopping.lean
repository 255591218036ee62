import Olap.Engine
import Olap.Proofs.Calc.Compile
import Olap.Proofs.Evaluation.Laziness

/-!
# Stopping loops over tuples

A loop over tuples asks in its first round whether to go on, so an execution that is cancelled already
is stopped by the first tuple (`Expr.evaluate_cancelled`). The one loop that never asks is the plain
count of the tuples of a set: it gives the number, whatever the execution says.
-/

set_option autoImplicit false

namespace Olap

/-! ## The loops of operations -/

/-- Whether calls are compiled to an operation that loops over tuples. -/
def FunctionBody.Loops : FunctionBody → Prop
  | filter | nonEmpty | count | order | drilldownMember | crossJoin | aggregate _ => True
  | _ => False

namespace Operation

/-- Whether the operation loops over tuples. -/
def Loops : Operation → Prop
  | filter | nonEmpty | count _ | order _ _ | drilldownMember _ | crossJoin _ | aggregate _ => True
  | _ => False

/-- Whether the loop of an operation is run under a flag, and asks whether to go on. A join on demand
leaves the loop to whoever wants its tuples, unless the flag is set. -/
def Polls (flag : Bool) : Operation → Prop
  | count excludeEmpty => excludeEmpty = true
  | crossJoin onDemand => onDemand = true → flag = true
  | _ => True

open EvalM in
/-- The tuples that the loop of an operation runs over. The children that come before the loop are
evaluated for it. Members are drilled down in sets of one column only. -/
def loopRows : Operation → List (EvalM Value) → EvalM (List Row)
  | filter, [x, _] | aggregate _, [x, _] | nonEmpty, [x] | count _, x :: _ => do
    let s ← asSource x
    return s.rows
  | nonEmpty, [x, y] => do
    let s ← asSource x
    let _ ← asList y
    return s.rows
  | order _ _, [x, _] => do
    let l ← asList x
    return l.rows
  | drilldownMember _, [x, y] => do
    let l ← asList x
    let _ ← asList y
    return if l.arity = 1 then l.rows else []
  | crossJoin _, [x, y] => do
    let l ← asSource x
    let r ← asSource y
    return (TupleSource.cross l r).rows
  | _, _ => throw (.internal "no loop over tuples")

end Operation

/-- The tuples that the loop of a calculation runs over. -/
def Calc.loopRows (a : Address) (c : Calc) : EvalM (List Row) :=
  c.operation.loopRows (evaluations a 0 c.children)

/-- There is a tuple for a loop to run over, or the search for it has been cancelled. -/
def MustStop : Except CalcError (List Row) → Prop
  | .ok rows => rows ≠ []
  | .error e => e = .cancelled

/-- Calls that are to loop over tuples are compiled to operations that do. -/
theorem BoundCall.compile_loops {c : BoundCall} {cube : Cube} {styles : List ResultStyle}
    (h : c.definition.body.Loops) :
    Produces (fun t : Calc => t.operation.Loops) (c.compile cube styles) := by
  have hpair {f g : Except CalcError Operand} {p q : Operand → Except CalcError Calc}
      {tree : Calc → Calc → Calc} (htree : ∀ x y, (tree x y).operation.Loops) :
      Produces (fun t : Calc => t.operation.Loops) (do
        let x ← p (← f)
        let y ← q (← g)
        return tree x y) :=
    .bind .anything fun _ _ => .bind .anything fun x _ => .bind .anything fun _ _ =>
      .bind .anything fun y _ => .ok (htree x y)
  unfold compile
  cases hbody : c.definition.body <;> rw [hbody] at h <;> try exact h.elim
  case filter => exact hpair fun _ _ => trivial
  case crossJoin => exact hpair fun _ _ => trivial
  case nonEmpty =>
    refine .bind .anything fun _ _ => .bind .anything fun x _ => ?_
    split
    · exact .bind .anything fun _ _ => .bind .anything fun y _ => .ok trivial
    · exact .ok trivial
  case count =>
    exact .bind .anything fun _ _ => .bind .anything fun _ _ => .bind .anything fun _ _ => .ok trivial
  case drilldownMember =>
    exact .bind .anything fun _ _ => .bind .anything fun _ _ => .bind .anything fun _ _ =>
      .bind .anything fun _ _ => .bind .anything fun _ _ => .ok trivial
  case order =>
    rw [BoundCall.order_eq]
    refine .bind .anything fun _ _ => .bind .anything fun _ _ => .bind .anything fun _ _ =>
      .bind .anything fun _ _ => ?_
    split
    · exact .bind .anything fun _ _ => .ok trivial
    · exact .bind .anything fun _ _ => .ok trivial
  case aggregate f =>
    refine .bind .anything fun _ _ => .bind .anything fun _ _ => ?_
    split
    · exact .bind .anything fun _ _ => .ok trivial
    · exact .ok trivial

namespace EvalM

variable {env : Environment} {flag : Bool} {α β : Type}

/-! ## Actions in a cancelled execution -/

/-- In a cancelled execution, under a flag, the action fails with the cancellation. -/
def Stops (env : Environment) (flag : Bool) (x : EvalM α) : Prop :=
  ∀ s : EvalState, s.execution.cancelled = true → s.nonEmpty = flag →
    (x.exec env s).1 = .error .cancelled

/-- In a cancelled execution, under a flag, the second action fails with the cancellation if the tuples
that the first one gives call for it. -/
def Heeds (env : Environment) (flag : Bool) (x : EvalM (List Row)) (y : EvalM β) : Prop :=
  ∀ s : EvalState, s.execution.cancelled = true → s.nonEmpty = flag → MustStop (x.exec env s).1 →
    (y.exec env s).1 = .error .cancelled

/-- The action does not touch the flag, nor whether the execution is cancelled. -/
def Steady (env : Environment) (x : EvalM α) : Prop :=
  ∀ s : EvalState, (x.exec env s).2.execution.cancelled = s.execution.cancelled ∧
    (x.exec env s).2.nonEmpty = s.nonEmpty

theorem Stops.bind {x : EvalM α} (hx : Stops env flag x) (f : α → EvalM β) :
    Stops env flag (x >>= f) := by
  intro s hs hflag
  have h := hx s hs hflag
  rcases hexec : x.exec env s with ⟨e | a, t⟩
  · rw [hexec] at h
    rw [exec_bind_error hexec]
    exact congrArg Except.error (Except.error.inj h)
  · rw [hexec] at h
    cases h

theorem stops_reading {x : EvalM α} {f : α → EvalM β} (hx : ∀ s, ∃ a, x.exec env s = (.ok a, s))
    (hf : ∀ a, Stops env flag (f a)) : Stops env flag (x >>= f) := by
  intro s hs hflag
  obtain ⟨a, ha⟩ := hx s
  rw [exec_bind_ok ha]
  exact hf a s hs hflag

theorem Steady.heeds_bind {z : EvalM α} {f : α → EvalM (List Row)} {g : α → EvalM β}
    (hz : Steady env z) (hf : ∀ a, Heeds env flag (f a) (g a)) :
    Heeds env flag (z >>= f) (z >>= g) := by
  intro s hs hflag hstop
  obtain ⟨hcancelled, hnonEmpty⟩ := hz s
  rcases hexec : z.exec env s with ⟨e | a, t⟩
  · rw [exec_bind_error hexec] at hstop ⊢
    exact congrArg Except.error hstop
  · rw [hexec] at hcancelled hnonEmpty
    rw [exec_bind_ok hexec] at hstop ⊢
    exact hf a t (hcancelled.trans hs) (hnonEmpty.trans hflag) hstop

theorem heeds_of_stops {rows : List Row} {y : EvalM β} (h : rows ≠ [] → Stops env flag y) :
    Heeds env flag (pure rows) y :=
  fun s hs hflag hstop => h hstop s hs hflag

theorem Steady.bind_lift {x : EvalM α} (hx : Steady env x) (f : α → Except CalcError β) :
    Steady env (x >>= fun a => lift (f a)) := by
  intro s
  rw [exec_bind_lift]
  exact hx s

theorem steady_evaluate (c : Calc) (a : Address) : Steady env (c.evaluate a) := by
  intro s
  have hframe := c.evaluate_frame a env s
  obtain ⟨checks, hexecution⟩ := hframe.execution
  exact ⟨by rw [hexecution], hframe.nonEmpty⟩

/-! ## Loops -/

/-- A loop is stopped in its first round. -/
theorem stops_foldM {set : TupleSource} {f : β → Row → EvalM β} {b : β} (hrows : set.rows ≠ [])
    (hf : ∀ r, Stops env flag (f b r)) : Stops env flag (set.foldM f b) := by
  obtain ⟨r, rest, hcons⟩ := List.exists_cons_of_ne_nil hrows
  rw [TupleSource.foldM_eq_foldlM_rows, hcons, List.foldlM_cons]
  exact (hf r).bind _

section
variable (hk : 0 < env.config.checkInterval)
include hk

theorem stops_poll : Stops env flag (poll 0) := by
  intro s hs _
  have hround : isPollingRound env.config.checkInterval 0 = true := by
    simp [isPollingRound, Nat.ne_of_gt hk]
  have hstopped : s.execution.stopped? = some .cancelled := by simp [Execution.stopped?, hs]
  rw [exec_poll]
  show (s.execution.checkRound env.config.checkInterval 0).1 = _
  rw [Execution.checkRound, if_pos hround, Execution.check, hstopped]

theorem stops_forEachRow {set : TupleSource} (f : Row → EvalM α) (hrows : set.rows ≠ []) :
    Stops env flag (forEachRow set f) :=
  (stops_foldM hrows fun _ => (stops_poll hk).bind _).bind _

theorem heeds_forEachRow {x : EvalM Value} (hx : Steady env (asSource x)) {f : Row → EvalM α}
    (g : TupleSource → List α → EvalM β) :
    Heeds env flag (asSource x >>= fun set => pure set.rows)
      (asSource x >>= fun set => forEachRow set f >>= g set) :=
  hx.heeds_bind fun _ => heeds_of_stops fun h => (stops_forEachRow hk f h).bind _

theorem stops_materialize {set : TupleSource} (hrows : set.rows ≠ []) :
    Stops env flag (materialize set) :=
  stops_reading (fun _ => ⟨_, rfl⟩) fun _ =>
    (stops_foldM hrows fun _ => (stops_poll hk).bind _).bind _

theorem stops_crossJoin {left right : TupleSource} (hrows : (TupleSource.cross left right).rows ≠ []) :
    Stops env flag (crossJoin left right) := by
  have hright : right.rows ≠ [] := fun h => hrows (by simp [TupleSource.rows, h])
  exact (stops_materialize hk hright).bind _

theorem stops_drillDown (cube : Cube) (targets : List Member) (recursive : Bool) {members : List Member}
    (hmembers : members ≠ []) : Stops env flag (drillDown cube targets recursive 0 members) := by
  obtain ⟨m, ms, rfl⟩ := List.exists_cons_of_ne_nil hmembers
  exact (stops_poll hk).bind _

end

end EvalM

/-! ## Operations -/

namespace Operation

open EvalM

variable {env : Environment} {flag : Bool} {op : Operation} {children : List (EvalM Value)}

theorem run_heeds (hk : 0 < env.config.checkInterval) (hloops : op.Loops) (hpolls : op.Polls flag)
    (hchildren : ∀ x ∈ children, Steady env x) (a : Address) :
    Heeds env flag (op.loopRows children) (op.run a children) := by
  have hsource {x : EvalM Value} (hx : x ∈ children) : Steady env (asSource x) :=
    (hchildren x hx).bind_lift _
  have hlist {x : EvalM Value} (hx : x ∈ children) : Steady env (asList x) :=
    (hchildren x hx).bind_lift _
  unfold loopRows
  split
  case h_1 x c => exact heeds_forEachRow hk (hsource (by simp)) _
  case h_2 f x y => exact heeds_forEachRow hk (hsource (by simp)) _
  case h_3 x => exact heeds_forEachRow hk (hsource (by simp)) _
  case h_4 excludeEmpty x xs =>
    obtain rfl : excludeEmpty = true := hpolls
    exact heeds_forEachRow hk (hsource (by simp)) _
  case h_5 x y =>
    exact (hsource (by simp)).heeds_bind fun src => (hlist (by simp)).heeds_bind fun others =>
      heeds_of_stops fun h => (stops_forEachRow hk _ h).bind _
  case h_6 mode byText x y =>
    refine (hlist (by simp)).heeds_bind fun l => heeds_of_stops fun h => ?_
    have hrows : (TupleSource.list l).rows ≠ [] := h
    exact ((stops_forEachRow hk _ hrows).bind _).bind _
  case h_7 recursive x y =>
    refine (hlist (by simp)).heeds_bind fun l => (hlist (by simp)).heeds_bind fun targets =>
      heeds_of_stops fun h => ?_
    have harity : l.arity = 1 := by
      by_contra hother
      exact h (if_neg hother)
    have hmembers : l.members.toList ≠ [] := by
      rintro hnil
      rw [if_pos harity, TupleList.rows_of_arity_one harity, hnil] at h
      exact h rfl
    rw [if_neg (not_not_intro harity)]
    exact stops_reading (fun _ => ⟨_, rfl⟩) fun env =>
      (stops_drillDown hk _ _ _ hmembers).bind _
  case h_8 onDemand x y =>
    refine (hsource (by simp)).heeds_bind fun l => (hsource (by simp)).heeds_bind fun r =>
      heeds_of_stops fun h => ?_
    rintro s hs rfl
    have hflag : (onDemand && !s.nonEmpty) = false := by
      cases onDemand
      · rfl
      · simp [hpolls rfl]
    rw [exec_bind_ok exec_get, hflag]
    exact (stops_crossJoin hk h).bind _ s hs rfl
  case h_9 =>
    intro s _ _ hstop
    cases hstop

/-- The search for tuples does not get past a child that fails. -/
theorem loopRows_error {e : CalcError} {s : EvalState}
    (hchildren : ∀ x ∈ children, x.exec env s = (.error e, s)) :
    ((op.loopRows children).exec env s).1 = .error e ∨
      ((op.loopRows children).exec env s).1 = .error (.internal "no loop over tuples") := by
  have hfails {x : EvalM Value} (hx : x ∈ children) {α β : Type} (f : Value → Except CalcError α)
      (g : α → EvalM β) : (((x >>= fun v => lift (f v)) >>= g).exec env s).1 = .error e :=
    congrArg Prod.fst (exec_bind_error (exec_bind_error (hchildren x hx)))
  unfold loopRows
  split
  case h_9 => exact .inr rfl
  all_goals exact .inl (hfails (by simp) _ _)

theorem run_count (a : Address) {s : EvalState} {rows : List Row}
    (h : ((loopRows (.count false) children).exec env s).1 = .ok rows) :
    ((run a (.count false) children).exec env s).1 = .ok (.int (Int64.ofNat rows.length)) := by
  rcases children with _ | ⟨x, xs⟩
  · cases h
  · change ((asSource x >>= fun set => pure set.rows).exec env s).1 = _ at h
    show ((asSource x >>= fun set => pure (Value.int (Int64.ofNat set.size))).exec env s).1 = _
    rw [exec_bind_pure] at h ⊢
    rcases hx : (asSource x).exec env s with ⟨e | set, t⟩
    · rw [hx] at h
      cases h
    · rw [hx] at h
      obtain rfl : set.rows = rows := Except.ok.inj h
      rw [TupleSource.length_rows]
      rfl

end Operation

namespace Calc

open EvalM

variable {env : Environment} {s : EvalState}

theorem depth_lt_of_loopRows {c : Calc} {a : Address}
    (h : ∀ e, ((c.loopRows a).exec env (entered s)).1 = .error e → e = .cancelled) :
    s.depth < env.config.maxEvalDepth := by
  by_contra hdeep
  have hlimited : env.config.maxEvalDepth ≤ (entered s).depth := by
    show _ ≤ s.depth + 1
    omega
  have hchildren (x : EvalM Value) (hx : x ∈ evaluations a 0 c.children) :
      x.exec env (entered s) =
        (.error (.recursionLimit env.config.maxEvalDepth), entered s) := by
    obtain ⟨_, child, -, rfl⟩ := mem_evaluations hx
    exact child.exec_evaluate_limited _ hlimited
  have hfails : ((c.loopRows a).exec env (entered s)).1 = _ ∨ _ := Operation.loopRows_error hchildren
  rcases hfails with hfail | hfail
  · cases h _ hfail
  · cases h _ hfail

/-- The evaluation of a calculation whose loop has a tuple to run over is stopped. -/
theorem stopped_evaluate {c : Calc} (hk : 0 < env.config.checkInterval)
    (hs : s.execution.cancelled = true) (hloops : c.operation.Loops)
    (hpolls : c.operation.Polls s.nonEmpty) {a : Address}
    (hstop : MustStop ((c.loopRows a).exec env (entered s)).1) :
    ((c.evaluate a).exec env s).1 = .error .cancelled := by
  have hdepth : s.depth < env.config.maxEvalDepth := by
    refine depth_lt_of_loopRows (c := c) (a := a) fun e he => ?_
    rw [he] at hstop
    exact hstop
  obtain ⟨info, op, children⟩ := c
  have hsteady (x : EvalM Value) (hx : x ∈ evaluations a 0 children) : Steady env x := by
    obtain ⟨_, child, -, rfl⟩ := mem_evaluations hx
    exact steady_evaluate child _
  rw [evaluate, exec_calculation a _ hdepth]
  exact Operation.run_heeds hk hloops hpolls hsteady a (entered s) hs rfl hstop

/-- A plain count gives the number of tuples, whether the execution is cancelled or not. -/
theorem evaluate_count {c : Calc} (hop : c.operation = .count false) {a : Address} {rows : List Row}
    (hrows : ((c.loopRows a).exec env (entered s)).1 = .ok rows) :
    ((c.evaluate a).exec env s).1 = .ok (.int (Int64.ofNat rows.length)) := by
  have hdepth : s.depth < env.config.maxEvalDepth := by
    refine depth_lt_of_loopRows (c := c) (a := a) fun e he => ?_
    rw [hrows] at he
    cases he
  obtain ⟨info, op, children⟩ := c
  obtain rfl : op = .count false := hop
  rw [evaluate, exec_calculation a _ hdepth]
  exact Operation.run_count a hrows

end Calc

namespace Engine

variable {e : Engine} {q : PreparedQuery} {parameters : List (String × Value)}

/-- A cancelled phase does not hold a set that has a tuple. -/
theorem phase_cancelled (hk : 0 < e.config.checkInterval) {run : Run}
    (hrun : run.execution.cancelled = true) {set : TupleSource} (hset : set.rows ≠ [])
    (hvalue : ((q.tree.evaluate q.address).exec ⟨e.cube, e.config, parameters⟩
      (.start e.cube run.store.reader run.execution run.store.calls)).1 = .ok (.iterable set)) :
    (e.phase q parameters run).1 = .error .cancelled := by
  let env : Environment := ⟨e.cube, e.config, parameters⟩
  let start := EvalState.start e.cube run.store.reader run.execution run.store.calls
  have hsteady : EvalM.Steady env (q.tree.evaluate q.address) := EvalM.steady_evaluate q.tree _
  obtain ⟨hcancelled, -⟩ := hsteady start
  rcases hexec : (q.tree.evaluate q.address).exec env start with ⟨r, t⟩
  rw [hexec] at hcancelled
  obtain rfl : r = .ok (.iterable set) := (congrArg Prod.fst hexec).symm.trans hvalue
  show (EvalM.exec (q.tree.evaluate q.address >>= EvalM.held) env start).1 = _
  rw [EvalM.exec_bind_ok hexec]
  exact (EvalM.stops_materialize hk hset).bind _ t (hcancelled.trans hrun) rfl

/-- The first phase that fails with the cancellation ends the execution. -/
theorem execute_cancelled {store : EngineStore} {execution : Execution}
    (h : (e.phase q parameters ⟨store, execution, {}⟩).1 = .error .cancelled) :
    (e.execute q store execution parameters).1 =
      .error (CalcError.cancelled.toQueryError.withContext q.text) := by
  have hrun : ((e.phased q parameters).run e.config.maxPhases ⟨store, execution, {}⟩).1 =
      .error .cancelled := by
    obtain ⟨n, hn⟩ : ∃ n, max e.config.maxPhases 1 = n + 1 := ⟨max e.config.maxPhases 1 - 1, by omega⟩
    rcases hphase : e.phase q parameters ⟨store, execution, {}⟩ with ⟨r, run⟩
    rw [hphase] at h
    obtain rfl : r = .error .cancelled := h
    rw [Phased.run, hn, Phased.runFrom]
    simp only [phased, hphase]
  simp only [execute, hrun, explain]
  rfl

end Engine

/-- In a cancelled execution, the evaluation of a call that loops over tuples ends with the
cancellation if there is a tuple to loop over, and so does an execution whose result is a set on
demand. It is only the plain count of tuples that goes on. -/
theorem Expr.evaluate_cancelled {env : Environment} (hk : 0 < env.config.checkInterval) :
    (∀ {d : Definition} {type : ExprType} {args : List Expr} {styles : List ResultStyle} {c : Calc},
      d.body.Loops → (Expr.bound d type args).compile env.cube styles = .ok c →
        ∀ (a : Address) (s : EvalState), s.execution.cancelled = true →
          (c.operation.Polls s.nonEmpty →
            MustStop ((c.loopRows a).exec env (EvalM.entered s)).1 →
              ((c.evaluate a).exec env s).1 = .error .cancelled) ∧
          (c.operation = .count false →
            ∀ rows, ((c.loopRows a).exec env (EvalM.entered s)).1 = .ok rows →
              ((c.evaluate a).exec env s).1 = .ok (.int (Int64.ofNat rows.length)))) ∧
    ∀ (functions : FunctionTable) (q : PreparedQuery) (store : EngineStore) (execution : Execution),
      execution.cancelled = true → ∀ set : TupleSource, set.rows ≠ [] →
        ((q.tree.evaluate q.address).exec env
          (.start env.cube store.reader execution store.calls)).1 = .ok (.iterable set) →
          (Engine.execute ⟨env.cube, env.config, functions⟩ q store execution env.parameters).1 =
            .error (CalcError.cancelled.toQueryError.withContext q.text) := by
  refine ⟨fun hloops hcompile a s hs => ⟨fun hpolls hstop => ?_, fun hop rows => ?_⟩, ?_⟩
  · exact Calc.stopped_evaluate hk hs (BoundCall.compile_loops hloops _ hcompile) hpolls hstop
  · exact Calc.evaluate_count hop
  · intro functions q store execution hexecution set hset hvalue
    exact Engine.execute_cancelled (Engine.phase_cancelled hk hexecution hset hvalue)

namespace Sample

def cancelled : Execution := { cancelled := true }

/-- A fresh start of an execution that is cancelled. -/
def stopped : EvalState := .start cube (.memory []) cancelled

def isJoin : Expr → Bool
  | .bound d _ _ => d.body == .crossJoin
  | _ => false

/-- The calculation joins sets at once, and there is a tuple. -/
def joinsAtOnce (c : Calc) : Bool :=
  match c.operation with
  | .crossJoin false =>
    ((c.loopRows [0]).exec environment (EvalM.entered stopped)).1.toOption.any fun rows =>
      !rows.isEmpty
  | _ => false

theorem mustStop_of_joinsAtOnce {c : Calc} (h : joinsAtOnce c = true) :
    c.operation.Polls stopped.nonEmpty ∧
      MustStop ((c.loopRows [0]).exec environment (EvalM.entered stopped)).1 := by
  unfold joinsAtOnce at h
  split at h
  · rename_i hop
    obtain ⟨rows, hrows, hfilled⟩ := exists_ok_of_any h
    rw [hrows]
    refine ⟨by rw [hop]; exact nofun, ?_⟩
    rintro rfl
    cases hfilled
  · cases h

/-- The set on demand that a calculation gives, if it gives one that has a tuple. -/
def filledSource? (c : Calc) : Option TupleSource :=
  match ((c.evaluate [0]).exec environment stopped).1 with
  | .ok (.iterable set) => if set.rows.isEmpty then none else some set
  | _ => none

/-- The pairs of measures are not joined in a cancelled execution, neither at once nor when they are
handed over. -/
theorem evaluate_cancelled_pairs : 0 < environment.config.checkInterval ∧
    cancelled.cancelled = true ∧
    (∃ d type args c, bindings pairs = .bound d type args ∧ d.body.Loops ∧
      (Expr.bound d type args).compile environment.cube [.list] = .ok c ∧
      MustStop ((c.loopRows [0]).exec environment (EvalM.entered stopped)).1 ∧
      ((c.evaluate [0]).exec environment stopped).1 = .error .cancelled) ∧
    ∃ c, (bindings pairs).compile environment.cube [.iterable] = .ok c ∧
      (Engine.execute ⟨environment.cube, environment.config, .builtin⟩
          ⟨0, pairs.text, bindings pairs, c, []⟩ ⟨.memory [], ∅⟩ cancelled environment.parameters).1 =
        .error (CalcError.cancelled.toQueryError.withContext pairs.text) := by
  obtain ⟨hcall, hjoin, hsource⟩ :
      isJoin (bindings pairs) = true ∧
      ((bindings pairs).compile environment.cube [.list]).toOption.map joinsAtOnce = some true ∧
      ((bindings pairs).compile environment.cube [.iterable]).toOption.map (fun c =>
        (filledSource? c).isSome) = some true := by
    decide +kernel
  have hinterval : 0 < environment.config.checkInterval := by decide
  obtain ⟨hcalls, hexecutes⟩ := Expr.evaluate_cancelled hinterval
  refine ⟨hinterval, rfl, ?_, ?_⟩
  · obtain ⟨c, hcompile, hc⟩ := exists_ok_of_map hjoin
    obtain ⟨hpolls, hstop⟩ := mustStop_of_joinsAtOnce hc
    unfold isJoin at hcall
    split at hcall
    · rename_i d type args hbound
      have hloops : d.body.Loops := by
        rw [eq_of_beq hcall]
        trivial
      rw [hbound] at hcompile
      exact ⟨d, type, args, c, hbound, hloops, hcompile, hstop,
        (hcalls hloops hcompile [0] stopped rfl).1 hpolls hstop⟩
    · cases hcall
  · obtain ⟨c, hcompile, hc⟩ := exists_ok_of_map hsource
    refine ⟨c, hcompile, ?_⟩
    unfold filledSource? at hc
    split at hc
    · rename_i set hset
      split at hc
      · cases hc
      · rename_i hrows
        exact hexecutes _ ⟨0, pairs.text, bindings pairs, c, []⟩ ⟨.memory [], ∅⟩ cancelled rfl set
          (by simpa using hrows) hset
    · cases hc

end Sample

end Olap
