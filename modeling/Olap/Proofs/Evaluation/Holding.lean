import Olap.Proofs.Evaluation.Coordinates
import Olap.Proofs.Tuple.Collect

/-!
# Holding sets during an evaluation

While nothing stops the execution, holding a set in full is collecting its tuples
(`EvalM.exec_materialize`), and without the flag for cells that are not empty a join of two sets holds
the right one and then collects the pairs (`EvalM.exec_crossJoin`).
-/

set_option autoImplicit false

namespace Olap

/-! ## Actions that only ask whether to go on -/

/-- The state after the execution has been asked so often. -/
def EvalState.asked (s : EvalState) (checks : Nat) : EvalState :=
  { s with execution := { s.execution with checks } }

namespace EvalM

variable {env : Environment} {α β : Type}

/-- The action has the result, or it fails with the reason why the execution has to stop. All that it
does to the state is to ask whether to go on. -/
def Delivers (env : Environment) (x : EvalM α) (r : Except CalcError α) : Prop :=
  ∀ s : EvalState, ∃ checks, x.exec env s = (r, s.asked checks) ∨
    ∃ e, s.execution.stopped? = some e ∧ x.exec env s = (.error e, s.asked checks)

/-- While nothing stops the execution, the action has the result, and all that it does to the state is
to ask whether to go on. -/
def Yields (env : Environment) (x : EvalM α) (r : Except CalcError α) : Prop :=
  ∀ s : EvalState, s.execution.stopped? = none → ∃ checks, x.exec env s = (r, s.asked checks)

namespace Delivers

variable {x : EvalM α} {r : Except CalcError α}

theorem yields (hx : Delivers env x r) : Yields env x r := by
  intro s hs
  obtain ⟨checks, hx | ⟨e, hstopped, -⟩⟩ := hx s
  · exact ⟨checks, hx⟩
  · rw [hs] at hstopped
    cases hstopped

theorem of_const (hx : ∀ s, x.exec env s = (r, s)) : Delivers env x r :=
  fun s => ⟨s.execution.checks, .inl (hx s)⟩

theorem pure (a : α) : Delivers env (pure a) (.ok a) := of_const fun _ => exec_pure a

theorem poll (round : Nat) : Delivers env (EvalM.poll round) (.ok ()) := by
  intro s
  rw [exec_poll]
  unfold Execution.checkRound Execution.check
  split
  · split
    · rename_i e hstopped
      exact ⟨s.execution.checks + 1, .inr ⟨e, hstopped, rfl⟩⟩
    · exact ⟨s.execution.checks + 1, .inl rfl⟩
  · exact ⟨s.execution.checks, .inl rfl⟩

theorem bind_ok {a : α} {f : α → EvalM β} {r : Except CalcError β} (hx : Delivers env x (.ok a))
    (hf : Delivers env (f a) r) : Delivers env (x >>= f) r := by
  intro s
  obtain ⟨checks, hx | ⟨e, hstopped, hx⟩⟩ := hx s
  · -- asking does not change whether there is a reason to stop
    obtain ⟨checks', hf | ⟨e, hstopped, hf⟩⟩ := hf (s.asked checks)
    · exact ⟨checks', .inl ((exec_bind_ok hx).trans hf)⟩
    · exact ⟨checks', .inr ⟨e, hstopped, (exec_bind_ok hx).trans hf⟩⟩
  · exact ⟨checks, .inr ⟨e, hstopped, exec_bind_error hx⟩⟩

end Delivers

namespace Yields

theorem of_const {x : EvalM α} {r : Except CalcError α} (hx : ∀ s, x.exec env s = (r, s)) :
    Yields env x r := fun s _ => ⟨s.execution.checks, hx s⟩

theorem pure (a : α) : Yields env (pure a) (.ok a) := of_const fun _ => exec_pure a

theorem lift (r : Except CalcError α) : Yields env (EvalM.lift r) r := of_const fun _ => exec_lift r

theorem resultLimit : Yields env EvalM.resultLimit (.ok env.config.resultLimit) :=
  of_const fun _ => rfl

theorem poll (round : Nat) : Yields env (EvalM.poll round) (.ok ()) := (Delivers.poll round).yields

theorem bind {x : EvalM α} {r : Except CalcError α} {f : α → EvalM β} {g : α → Except CalcError β}
    (hx : Yields env x r) (hf : ∀ a, Yields env (f a) (g a)) : Yields env (x >>= f) (r >>= g) := by
  intro s hs
  obtain ⟨checks, hx⟩ := hx s hs
  rcases r with e | a
  · exact ⟨checks, exec_bind_error hx⟩
  · obtain ⟨checks', ha⟩ := hf a (s.asked checks) hs
    exact ⟨checks', (exec_bind_ok hx).trans ha⟩

theorem foldlM {f : β → α → EvalM β} {g : β → α → Except CalcError β}
    (h : ∀ b a, Yields env (f b a) (g b a)) (l : List α) (b : β) :
    Yields env (l.foldlM f b) (l.foldlM g b) := by
  induction l generalizing b with
  | nil => exact pure b
  | cons a l ih =>
    rw [List.foldlM_cons, List.foldlM_cons]
    exact (h b a).bind ih

theorem addRound (joined : Nat × TupleList) (r : Row) :
    Yields env
      (match joined with
        | (round, l) => do
          EvalM.poll round
          return (round + 1, ← EvalM.lift (TupleList.add l r)))
      (TupleList.addCounting joined r) :=
  (poll joined.1).bind fun _ => (lift _).bind fun l => pure (joined.1 + 1, l)

/-- Holding a set in full is collecting its tuples. -/
theorem materialize (p : TupleSource) :
    Yields env (EvalM.materialize p) (p.collect env.config.resultLimit) := by
  let start := TupleList.empty p.arity env.config.resultLimit
  have hloop : Yields env (p.rows.foldlM _ (0, start)) _ := foldlM addRound p.rows (0, start)
  rw [TupleSource.collect, ← TupleList.foldlM_addCounting p.rows 0, EvalM.materialize]
  simp only [TupleSource.foldM_eq_foldlM_rows]
  exact resultLimit.bind fun _ => hloop.bind fun joined => pure joined.2

/-- Without the flag for cells that are not empty, joining a tuple adds all its pairs. -/
theorem joinRow (p : Row) (rights : List Row) (joined : Nat × TupleList) :
    Yields env (EvalM.joinRow false p rights joined)
      ((rights.map (p ++ ·)).foldlM TupleList.addCounting joined) := by
  induction rights generalizing joined with
  | nil => exact pure joined
  | cons q rights ih =>
    obtain ⟨round, l⟩ := joined
    rw [List.map_cons, List.foldlM_cons, TupleList.addCounting, bind_assoc, EvalM.joinRow]
    simp only [Bool.false_eq_true, if_false, pure_bind]
    exact (poll round).bind fun _ => (lift _).bind fun l' => ih (round + 1, l')

/-- Joining all tuples of two sets is collecting their pairs. -/
theorem joinRows (p q : TupleSource) :
    Yields env
      (EvalM.resultLimit >>= fun limit =>
        p.foldM (fun joined r => EvalM.joinRow false r q.rows joined)
            (0, .empty (TupleList.joinedArity p.arity q.arity) limit) >>= fun (_, l) => Pure.pure l)
      ((TupleSource.cross p q).collect env.config.resultLimit) := by
  let start := TupleList.empty (TupleSource.cross p q).arity env.config.resultLimit
  have hloop : Yields env (p.rows.foldlM _ (0, start)) _ :=
    foldlM (fun joined r => joinRow r q.rows joined) p.rows (0, start)
  rw [TupleSource.collect, ← TupleList.foldlM_addCounting _ 0, TupleSource.rows,
    TupleList.foldlM_addCounting_flatMap]
  simp only [TupleSource.foldM_eq_foldlM_rows]
  exact resultLimit.bind fun _ => hloop.bind fun joined => pure joined.2

end Yields

variable {s : EvalState}

theorem exec_materialize (p : TupleSource) (hs : s.execution.stopped? = none) :
    ((materialize p).exec env s).1 = p.collect env.config.resultLimit := by
  obtain ⟨_, h⟩ := Yields.materialize p s hs
  exact congrArg Prod.fst h

theorem exec_crossJoin (p q : TupleSource) (hs : s.execution.stopped? = none)
    (hflag : s.nonEmpty = false) :
    ((crossJoin p q).exec env s).1 = p.collectPairs env.config.resultLimit q := by
  obtain ⟨checks, hright⟩ : ∃ checks, (materialize q).exec env s = (_, s.asked checks) :=
    Yields.materialize q s hs
  rw [crossJoin, TupleSource.collectPairs]
  rcases hq : q.collect env.config.resultLimit with e | l
  · rw [hq] at hright
    exact congrArg Prod.fst (exec_bind_error hright)
  · obtain ⟨-, -, hrows⟩ := TupleSource.collect_ok hq
    have hnonEmpty : (s.asked checks).nonEmpty = false := hflag
    rw [hq] at hright
    rw [exec_bind_ok hright, exec_bind_ok exec_get, hrows, hnonEmpty]
    obtain ⟨_, h⟩ := Yields.joinRows p q (s.asked checks) hs
    exact congrArg Prod.fst h

end EvalM

end Olap
