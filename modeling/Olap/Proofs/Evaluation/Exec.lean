import Olap.Evaluation.Run

/-!
# Running actions

What `EvalM.exec` gives for each way to build an action: the result and the state left behind. Facts
about evaluations are derived from these equations, so that nothing else opens the monad.
-/

set_option autoImplicit false

namespace Olap

namespace EvalM

variable {α β : Type} {env : Environment} {s t : EvalState}

/-! ## The monad -/

@[simp] theorem exec_pure (a : α) : exec (pure a) env s = (.ok a, s) := rfl

@[simp] theorem exec_throw (e : CalcError) : exec (throw e : EvalM α) env s = (.error e, s) := rfl

@[simp] theorem exec_read : exec read env s = (.ok env, s) := rfl

@[simp] theorem exec_get : exec get env s = (.ok s, s) := rfl

@[simp] theorem exec_set (t : EvalState) : exec (set t) env s = (.ok (), t) := rfl

@[simp] theorem exec_modify (f : EvalState → EvalState) :
    exec (modify f) env s = (.ok (), f s) := rfl

@[simp] theorem exec_lift (r : Except CalcError α) : exec (lift r) env s = (r, s) := by
  cases r <;> rfl

theorem exec_bind (x : EvalM α) (f : α → EvalM β) :
    exec (x >>= f) env s =
      match x.exec env s with
      | (.ok a, t) => (f a).exec env t
      | (.error e, t) => (.error e, t) := by
  unfold exec
  simp only [bind, ReaderT.bind, ExceptT.bind, ExceptT.mk, StateT.bind, ExceptT.bindCont]
  rcases x env s with ⟨r, t⟩
  cases r <;> rfl

theorem exec_bind_ok {x : EvalM α} {f : α → EvalM β} {a : α} (h : x.exec env s = (.ok a, t)) :
    exec (x >>= f) env s = (f a).exec env t := by
  rw [exec_bind, h]

theorem exec_bind_error {x : EvalM α} {f : α → EvalM β} {e : CalcError}
    (h : x.exec env s = (.error e, t)) : exec (x >>= f) env s = (.error e, t) := by
  rw [exec_bind, h]

/-- A value is looked at when the action is over. -/
theorem exec_bind_lift (x : EvalM α) (f : α → Except CalcError β) :
    (x >>= fun a => lift (f a)).exec env s = ((x.exec env s).1 >>= f, (x.exec env s).2) := by
  rcases hx : x.exec env s with ⟨e | a, t⟩
  · exact exec_bind_error hx
  · rw [exec_bind_ok hx, exec_lift]
    rfl

theorem exec_bind_pure (x : EvalM α) (f : α → β) :
    (x >>= fun a => pure (f a)).exec env s = (f <$> (x.exec env s).1, (x.exec env s).2) := by
  rcases hx : x.exec env s with ⟨e | a, t⟩
  · exact exec_bind_error hx
  · exact exec_bind_ok hx

theorem exec_attempt (x : EvalM α) :
    exec (attempt x) env s = (.ok (x.exec env s).1, (x.exec env s).2) := by
  unfold exec
  simp only [attempt, tryCatch, tryCatchThe, MonadExceptOf.tryCatch, bind, ReaderT.bind,
    ExceptT.bind, ExceptT.mk, StateT.bind, ExceptT.bindCont, ExceptT.tryCatch]
  rcases x env s with ⟨r, t⟩
  cases r <;> rfl

/-! ## Changes of the context that are taken back -/

theorem exec_restoring (x : EvalM α) :
    exec (restoring x) env s = ((x.exec env s).1, (x.exec env s).2.restore s.mark) := by
  rw [restoring, exec_bind_ok exec_get, exec_bind_ok (exec_attempt x),
    exec_bind_ok (exec_modify _), exec_lift]

theorem exec_withRow (r : Row) (x : EvalM α) :
    exec (withRow r x) env s =
      ((x.exec env (s.setRow r)).1, (x.exec env (s.setRow r)).2.restore s.mark) := by
  rw [withRow, exec_restoring, exec_bind_ok (exec_modify _)]

/-- Making one member current is making a tuple of one column current. -/
theorem restoring_setMember (m : Member) (x : EvalM α) :
    (restoring do modify (·.setMember m); x) = withRow [m] x := rfl

/-! ## Asking whether to go on -/

theorem exec_poll (round : Nat) :
    exec (poll round) env s =
      ((s.execution.checkRound env.config.checkInterval round).1,
        { s with execution := (s.execution.checkRound env.config.checkInterval round).2 }) := by
  rw [poll, exec_bind_ok exec_read, exec_bind_ok exec_get]
  exact (exec_bind_ok (exec_set _)).trans (exec_lift _)

/-! ## Cells -/

theorem exec_currentCell_ready {v : Option Double} {r : CellReader}
    (h : s.reader.get s.context = (.ready v, r)) :
    exec currentCell env s = (.ok (.ofCell v), { s with reader := r }) := by
  rw [currentCell, exec_bind_ok exec_get, h]
  exact exec_bind_ok (exec_set _)

theorem exec_currentCell_pending {r : CellReader} (h : s.reader.get s.context = (.pending, r)) :
    exec currentCell env s =
      (if max env.config.cellBatchSize 1 ≤ r.pendingCount then .error .quantumExceeded
        else .ok .null,
        { s with reader := r }) := by
  rw [currentCell, exec_bind_ok exec_get, h]
  refine (exec_bind_ok (exec_set _)).trans ((exec_bind_ok exec_read).trans ?_)
  split <;> rfl

/-! ## Nested calculations -/

theorem exec_calculation_limited (a : Address) (x : EvalM α)
    (h : env.config.maxEvalDepth ≤ s.depth) :
    exec (calculation a x) env s = (.error (.recursionLimit env.config.maxEvalDepth), s) := by
  refine exec_bind_error ?_
  rw [enter, exec_bind_ok exec_read, exec_bind_ok exec_get, if_pos h]
  rfl

def entered (s : EvalState) : EvalState := { s with depth := s.depth + 1 }

/-- The state that a calculation leaves behind, from that of its body. -/
def left (env : Environment) (a : Address) (t : EvalState) : EvalState :=
  { t with
    depth := t.depth - 1
    calls := if env.config.profiling then t.calls.record a else t.calls }

theorem exec_calculation (a : Address) (x : EvalM α) (h : s.depth < env.config.maxEvalDepth) :
    exec (calculation a x) env s =
      ((x.exec env (entered s)).1, left env a (x.exec env (entered s)).2) := by
  have henter : exec enter env s = (.ok (), entered s) := by
    rw [enter, exec_bind_ok exec_read, exec_bind_ok exec_get, if_neg (Nat.not_le.2 h)]
    rfl
  rw [calculation, exec_bind_ok henter, exec_bind_ok (exec_attempt x), countCall]
  cases hp : env.config.profiling <;>
    simp only [exec_bind, exec_read, exec_modify, exec_lift, hp, leave, left] <;> rfl

/-! ## Kept results -/

theorem exec_cached_hit {a : Address} {os : List Nat} {x : EvalM Value} {v : Value}
    (h : s.cache[cacheKey a os s]? = some v) : exec (cached a os x) env s = (.ok v, s) := by
  rw [cached, exec_bind_ok exec_get, exec_bind_ok exec_get, h]
  rfl

def keeping (t : EvalState) (k : CacheKey) (v : Value) : EvalState :=
  { t with cache := t.cache.insert k v }

theorem getElem?_keeping (t : EvalState) (k k' : CacheKey) (v : Value) :
    (keeping t k v).cache[k']? = if k = k' then some v else t.cache[k']? := by
  refine Std.HashMap.getElem?_insert.trans ?_
  simp only [beq_iff_eq]

theorem exec_cached_ok {a : Address} {os : List Nat} {x : EvalM Value} {v : Value}
    (h : s.cache[cacheKey a os s]? = none) (hx : x.exec env s = (.ok v, t)) :
    exec (cached a os x) env s = (.ok v, keeping t (cacheKey a os s) v) := by
  rw [cached, exec_bind_ok exec_get, exec_bind_ok exec_get, h]
  exact (exec_bind_ok hx).trans (exec_bind_ok (exec_modify _))

theorem exec_cached_error {a : Address} {os : List Nat} {x : EvalM Value} {e : CalcError}
    (h : s.cache[cacheKey a os s]? = none) (hx : x.exec env s = (.error e, t)) :
    exec (cached a os x) env s = (.error e, t) := by
  rw [cached, exec_bind_ok exec_get, exec_bind_ok exec_get, h]
  exact exec_bind_error hx

end EvalM

/-- An evaluation fails at once if the nesting is too deep. -/
theorem Calc.exec_evaluate_limited (c : Calc) (a : Address) {env : Environment} {s : EvalState}
    (h : env.config.maxEvalDepth ≤ s.depth) :
    (c.evaluate a).exec env s = (.error (.recursionLimit env.config.maxEvalDepth), s) := by
  obtain ⟨info, op, cs⟩ := c
  exact EvalM.exec_calculation_limited a _ h

end Olap
