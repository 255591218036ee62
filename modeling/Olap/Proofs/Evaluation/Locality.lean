import Olap.Proofs.Evaluation.Holding
import Olap.Proofs.Evaluation.Relocation

/-!
# What an evaluation sees of the state

An evaluation keeps results at its own address and below, and nowhere else, and it makes no difference
to it how often the execution has been asked whether to go on (`Calc.evaluate_local`). So over the facts
a tree gives the same before and after evaluations at addresses that are not below its own
(`Calc.evaluate_after`). A tree of which no operation looks at the context gives the same in all
contexts and under both flags (`Calc.IgnoresContext.evaluate_withFocus`).
-/

set_option autoImplicit false

namespace Olap

/-! ## How often the execution has been asked -/

namespace EvalState

theorem asked_setMember (s : EvalState) (n : Nat) (m : Member) :
    (s.asked n).setMember m = (s.setMember m).asked n := by
  unfold setMember
  rcases h : s.context[m.hierarchyOrdinal]? with _ | previous
  all_goals
    have h' : (s.asked n).context[m.hierarchyOrdinal]? = _ := h
    rw [h']
  all_goals rfl

theorem asked_setRow (s : EvalState) (n : Nat) (r : Row) :
    (s.asked n).setRow r = (s.setRow r).asked n := by
  induction r generalizing s with
  | nil => rfl
  | cons m r ih =>
    show ((s.asked n).setMember m).setRow r = ((s.setMember m).setRow r).asked n
    rw [asked_setMember, ih]

theorem asked_restore (s : EvalState) (n mark : Nat) :
    (s.asked n).restore mark = (s.restore mark).asked n := by
  have hfocus : s.asked n = (s.asked n).withFocus s := rfl
  obtain ⟨v, hv⟩ := undoMany_eq_withFocus (s.undo.length - mark) s
  have hrestore : s.restore mark = s.withFocus (s.restore mark) := by
    rw [restore, hv]
    rfl
  rw [hfocus, restore_withFocus, hrestore]
  rfl

end EvalState

/-! ## Local actions -/

/-- Nothing is below two children of one address. -/
theorem Address.not_below {a k : Address} {i j : Nat} (hij : i ≠ j) (h : (i :: a) <:+ k) :
    ¬ (j :: a) <:+ k := by
  intro h'
  have hlength : (i :: a).length = (j :: a).length := rfl
  have hsuffix := List.suffix_of_suffix_length_le h h' (Nat.le_of_eq hlength)
  exact hij (List.cons.inj (hsuffix.eq_of_length hlength)).1

namespace EvalM

variable {env : Environment} {a b : Address} {α β : Type}

/-- The action does the same however often the execution has been asked whether to go on, and keeps
results at the address and below only. -/
structure Local (env : Environment) (a : Address) (x : EvalM α) : Prop where
  asked : ∀ (s : EvalState) (n : Nat),
    ∃ checks, x.exec env (s.asked n) = ((x.exec env s).1, (x.exec env s).2.asked checks)
  below : ∀ (s : EvalState) (k : CacheKey), ¬ a <:+ k.1 →
    (x.exec env s).2.cache[k]? = s.cache[k]?

namespace Local

theorem of_below {x : EvalM α} (hx : Local env b x) (h : a <:+ b) : Local env a x :=
  ⟨hx.asked, fun s k hk => hx.below s k fun hb => hk (h.trans hb)⟩

/-- An action that does not touch the state, and does not look at it either. -/
theorem of_const {x : EvalM α} {r : Except CalcError α} (hx : ∀ s, x.exec env s = (r, s)) :
    Local env a x := by
  refine ⟨fun s n => ⟨n, ?_⟩, fun s k _ => ?_⟩
  · rw [hx, hx]
  · rw [hx]

theorem bind {x : EvalM α} {f : α → EvalM β} (hx : Local env a x)
    (hf : ∀ s v, (x.exec env s).1 = .ok v → Local env a (f v)) : Local env a (x >>= f) := by
  refine ⟨fun s n => ?_, fun s k hk => ?_⟩
  · obtain ⟨checks, hasked⟩ := hx.asked s n
    rcases hexec : x.exec env s with ⟨e | v, t⟩
    all_goals rw [hexec] at hasked
    · exact ⟨checks, by rw [exec_bind_error hexec, exec_bind_error hasked]⟩
    · rw [exec_bind_ok hexec, exec_bind_ok hasked]
      exact (hf s v (by rw [hexec])).asked t checks
  · have hfirst := hx.below s k hk
    rcases hexec : x.exec env s with ⟨e | v, t⟩
    all_goals rw [hexec] at hfirst
    · rw [exec_bind_error hexec]
      exact hfirst
    · rw [exec_bind_ok hexec]
      exact ((hf s v (by rw [hexec])).below t k hk).trans hfirst

theorem nonEmpty {f : Bool → EvalM α} (hf : ∀ flag, Local env a (f flag)) :
    Local env a (get >>= fun s => f s.nonEmpty) := by
  refine ⟨fun s n => ?_, fun s k hk => ?_⟩
  · rw [exec_bind_ok exec_get, exec_bind_ok exec_get]
    exact (hf s.nonEmpty).asked s n
  · rw [exec_bind_ok exec_get]
    exact (hf s.nonEmpty).below s k hk

theorem poll (round : Nat) : Local env a (EvalM.poll round) := by
  refine ⟨fun s n => ?_, fun s k _ => by rw [exec_poll]⟩
  rw [exec_poll, exec_poll]
  have hstopped : (s.asked n).execution.stopped? = s.execution.stopped? := rfl
  unfold Execution.checkRound Execution.check
  rw [hstopped]
  split
  · split <;> exact ⟨n + 1, rfl⟩
  · exact ⟨n, rfl⟩

theorem currentMember (h : Hierarchy) : Local env a (EvalM.currentMember h) := by
  refine ⟨fun s n => ⟨n, ?_⟩, fun s k _ => ?_⟩
  · rw [EvalM.currentMember, exec_bind_ok exec_get, exec_bind_ok exec_get]
    rcases hm : s.context[h.ordinal]? with _ | m
    all_goals
      have hm' : (s.asked n).context[h.ordinal]? = _ := hm
      rw [hm']
    all_goals rfl
  · rw [EvalM.currentMember, exec_bind_ok exec_get]
    split <;> rfl

theorem currentCell : Local env a EvalM.currentCell := by
  refine ⟨fun s n => ⟨n, ?_⟩, fun s k _ => ?_⟩
  · rcases hget : s.reader.get s.context with ⟨v | _, r⟩
    · have hget' : (s.asked n).reader.get (s.asked n).context = (.ready v, r) := hget
      rw [exec_currentCell_ready hget, exec_currentCell_ready hget']
      rfl
    · have hget' : (s.asked n).reader.get (s.asked n).context = (.pending, r) := hget
      rw [exec_currentCell_pending hget, exec_currentCell_pending hget']
      rfl
  · rcases hget : s.reader.get s.context with ⟨v | _, r⟩
    · rw [exec_currentCell_ready hget]
    · rw [exec_currentCell_pending hget]

theorem withRow (r : Row) {x : EvalM α} (hx : Local env a x) : Local env a (EvalM.withRow r x) := by
  refine ⟨fun s n => ?_, fun s k hk => ?_⟩
  · obtain ⟨checks, hasked⟩ := hx.asked (s.setRow r) n
    refine ⟨checks, ?_⟩
    rw [exec_withRow, exec_withRow, EvalState.asked_setRow, hasked]
    exact Prod.ext rfl (EvalState.asked_restore _ checks s.mark)
  · rw [exec_withRow, EvalState.cache_restore, hx.below _ k hk, EvalState.cache_setRow]

theorem calculation (c : Address) {x : EvalM α} (hx : Local env a x) :
    Local env a (EvalM.calculation c x) := by
  refine ⟨fun s n => ?_, fun s k hk => ?_⟩
  all_goals rcases Nat.lt_or_ge s.depth env.config.maxEvalDepth with hdepth | hdepth
  · have hdepth' : (s.asked n).depth < env.config.maxEvalDepth := hdepth
    obtain ⟨checks, hasked⟩ := hx.asked (entered s) n
    have hentered : x.exec env (entered (s.asked n)) = _ := hasked
    refine ⟨checks, ?_⟩
    rw [exec_calculation c x hdepth, exec_calculation c x hdepth', hentered]
    rfl
  · have hdepth' : env.config.maxEvalDepth ≤ (s.asked n).depth := hdepth
    exact ⟨n, by rw [exec_calculation_limited c x hdepth, exec_calculation_limited c x hdepth']⟩
  · rw [exec_calculation c x hdepth]
    exact hx.below (entered s) k hk
  · rw [exec_calculation_limited c x hdepth]

theorem cached (os : List Nat) {x : EvalM Value} (hx : Local env a x) :
    Local env a (EvalM.cached a os x) := by
  refine ⟨fun s n => ?_, fun s k hk => ?_⟩
  all_goals rcases hkept : s.cache[cacheKey a os s]? with _ | v
  · have hkept' : (s.asked n).cache[cacheKey a os (s.asked n)]? = none := hkept
    obtain ⟨checks, hasked⟩ := hx.asked s n
    refine ⟨checks, ?_⟩
    rcases hexec : x.exec env s with ⟨e | v, t⟩
    all_goals rw [hexec] at hasked
    · rw [exec_cached_error hkept hexec, exec_cached_error hkept' hasked]
    · rw [exec_cached_ok hkept hexec, exec_cached_ok hkept' hasked]
      rfl
  · have hkept' : (s.asked n).cache[cacheKey a os (s.asked n)]? = some v := hkept
    exact ⟨n, by rw [exec_cached_hit hkept, exec_cached_hit hkept']⟩
  · have hbelow := hx.below s k hk
    rcases hexec : x.exec env s with ⟨e | v, t⟩
    all_goals rw [hexec] at hbelow
    · rw [exec_cached_error hkept hexec]
      exact hbelow
    · -- the new result is kept at the address itself
      have hne : cacheKey a os s ≠ k := fun heq => hk (heq ▸ List.suffix_refl a)
      rw [exec_cached_ok hkept hexec, getElem?_keeping, if_neg hne]
      exact hbelow
  · rw [exec_cached_hit hkept]

theorem of_composed {contextual : Prop} {given : EvalM Value → Prop}
    (hkeeps : ∀ y, given y → Keeps env .everything y (Value.Within .everything))
    (hgiven : ∀ y, given y → Local env a y) {x : EvalM α} {Q : α → Prop}
    (hx : Composed env .everything contextual given x Q) : Local env a x := by
  induction hx with
  | given h => exact hgiven _ h
  | pure _ => exact of_const fun _ => exec_pure _
  | throw _ => exact of_const fun _ => exec_throw _
  | bind hx _ ihx ihf =>
    refine ihx.bind fun s v hv => ihf v ?_
    exact (Keeps.of_composed hkeeps hx s s.within_everything).result v hv
  | mono _ _ ih => exact ih
  | read => exact of_const fun _ => exec_read
  | poll round => exact poll round
  | nonEmpty _ _ ih => exact nonEmpty ih
  | currentMember _ _ => exact currentMember _
  | currentCell _ => exact currentCell
  | withRow _ _ _ ih => exact ih.withRow _

end Local

end EvalM

/-! ## Local evaluations -/

namespace Calc

variable {env : Environment} {a : Address} {s t : EvalState} {facts : List Fact}

theorem evaluate_local (c : Calc) (env : Environment) (a : Address) :
    EvalM.Local env a (c.evaluate a) := by
  have henv : env.Within .everything := fun p _ => p.2.within_everything
  have hc : c.Within .everything := c.within_everything
  induction hc generalizing a with
  | @node info op cs hop hcs ih =>
    rw [evaluate]
    refine EvalM.Local.calculation a ?_
    have hchildren (c : Calc) (hc : c ∈ cs) (j : Nat) : EvalM.Local env a (c.evaluate (j :: a)) :=
      (ih c hc (j :: a)).of_below (List.suffix_cons j a)
    cases hcache : op.isCache with
    | true =>
      cases op with
      | cache os =>
        cases cs with
        | nil => exact EvalM.Local.of_const fun _ => rfl
        | cons c cs => exact (hchildren c List.mem_cons_self 0).cached os
      | _ => cases hcache
    | false =>
      let given (x : EvalM Value) : Prop :=
        EvalM.Keeps env .everything x (Value.Within .everything) ∧ EvalM.Local env a x
      have hgiven (x : EvalM Value) (hx : x ∈ evaluations a 0 cs) : given x := by
        obtain ⟨j, c, hj, rfl⟩ := mem_evaluations hx
        exact ⟨c.evaluate_keeps_everything _ env, hchildren c (List.mem_of_getElem? hj) _⟩
      have hcomposed : EvalM.Composed env .everything True given (op.run a (evaluations a 0 cs))
          (Value.Within .everything) :=
        op.run_composed a (Domain.everything_closed _) henv hop hcache (fun _ => trivial)
          fun x hx => .given (hgiven x hx)
      exact .of_composed (fun _ h => h.1) (fun _ h => h.2) hcomposed

/-- What evaluations at other addresses leave behind makes no difference over the facts. -/
theorem evaluate_after (c : Calc) (hframe : s.Frame t) (hfacts : s.reader = .memory facts)
    (hkept : ∀ k : CacheKey, a <:+ k.1 → t.cache[k]? = s.cache[k]?) :
    ((c.evaluate a).exec env t).1 = ((c.evaluate a).exec env s).1 := by
  obtain ⟨checks, hchecks⟩ := hframe.execution
  have hreader : t.reader = s.reader := (hframe.reader_memory hfacts).trans hfacts.symm
  have hstate : t = (s.withKept t).asked checks := by
    obtain ⟨hcontext, hnonEmpty, hundo, hdepth, -, -, -⟩ := hframe
    cases t
    cases hcontext
    cases hnonEmpty
    cases hundo
    cases hdepth
    cases hreader
    cases hchecks
    rfl
  have halike : s.Alike True a a (s.withKept t) :=
    ⟨rfl, fun _ p flag names => (hkept (p ++ a, flag, names) (List.suffix_append p a)).symm⟩
  obtain ⟨_, hasked⟩ := (c.evaluate_local env a).asked (s.withKept t) checks
  rw [hstate, hasked]
  exact (c.evaluate_relocates (.inl trivial) [] s _ halike).1.symm

end Calc

/-! ## Trees that do not look at the context -/

namespace EvalM

variable {env : Environment} {α β : Type}

/-- The action does the same wherever the state stands, under both flags. -/
def Blind (env : Environment) (x : EvalM α) : Prop :=
  ∀ s v : EvalState,
    x.exec env (s.withFocus v) = ((x.exec env s).1, (x.exec env s).2.withFocus v)

namespace Blind

theorem of_const {x : EvalM α} {r : Except CalcError α} (hx : ∀ s, x.exec env s = (r, s)) :
    Blind env x := by
  intro s v
  rw [hx, hx]

theorem bind {x : EvalM α} {f : α → EvalM β} (hx : Blind env x)
    (hf : ∀ s a, (x.exec env s).1 = .ok a → Blind env (f a)) : Blind env (x >>= f) := by
  intro s v
  have hfirst := hx s v
  rcases hexec : x.exec env s with ⟨e | a, t⟩
  all_goals rw [hexec] at hfirst
  · rw [exec_bind_error hexec, exec_bind_error hfirst]
  · rw [exec_bind_ok hexec, exec_bind_ok hfirst]
    exact hf s a (by rw [hexec]) t v

theorem calculation (a : Address) {x : EvalM α} (hx : Blind env x) :
    Blind env (EvalM.calculation a x) := by
  intro s v
  have hdepth : (s.withFocus v).depth = s.depth := rfl
  rcases Nat.lt_or_ge s.depth env.config.maxEvalDepth with hlt | hge
  · have hentered : x.exec env (entered (s.withFocus v)) = _ := hx (entered s) v
    rw [exec_calculation a x hlt, exec_calculation a x (hdepth ▸ hlt), hentered]
    rfl
  · rw [exec_calculation_limited a x hge, exec_calculation_limited a x (hdepth ▸ hge)]

theorem of_composed {given : EvalM Value → Prop}
    (hkeeps : ∀ y, given y → Keeps env .everything y (Value.Within .everything))
    (hgiven : ∀ y, given y → Blind env y) {x : EvalM α} {Q : α → Prop}
    (hx : Composed env .everything False given x Q) : Blind env x := by
  induction hx with
  | given h => exact hgiven _ h
  | pure _ => exact of_const fun _ => exec_pure _
  | throw _ => exact of_const fun _ => exec_throw _
  | bind hx _ ihx ihf =>
    refine ihx.bind fun s a ha => ihf a ?_
    exact (Keeps.of_composed hkeeps hx s s.within_everything).result a ha
  | mono _ _ ih => exact ih
  | read => exact of_const fun _ => exec_read
  | poll round =>
    intro s v
    rw [exec_poll, exec_poll]
    rfl
  | nonEmpty hc _ _ => exact hc.elim
  | currentMember hc _ => exact hc.elim
  | currentCell hc => exact hc.elim
  | withRow hc _ _ _ => exact hc.elim

end Blind

end EvalM

namespace Calc

/-- No operation of the tree looks at the context, or keeps results for it. -/
def IgnoresContext (c : Calc) : Prop :=
  c.Every fun c => c.operation.readsContext = false ∧ c.operation.isCache = false

theorem IgnoresContext.evaluate_blind {c : Calc} (hc : c.IgnoresContext) (env : Environment)
    (a : Address) : EvalM.Blind env (c.evaluate a) := by
  have henv : env.Within .everything := fun p _ => p.2.within_everything
  induction hc generalizing a with
  | @node info op cs hop hcs ih =>
    have hwithin : op.Within .everything := (Calc.node info op cs).within_everything.self
    have hcontext : op.readsContext = true → False := fun h => Bool.noConfusion (hop.1.symm.trans h)
    let given (x : EvalM Value) : Prop :=
      EvalM.Keeps env .everything x (Value.Within .everything) ∧ EvalM.Blind env x
    have hgiven (x : EvalM Value) (hx : x ∈ evaluations a 0 cs) : given x := by
      obtain ⟨j, c, hj, rfl⟩ := mem_evaluations hx
      exact ⟨c.evaluate_keeps_everything _ env, ih c (List.mem_of_getElem? hj) _⟩
    have hcomposed : EvalM.Composed env .everything False given (op.run a (evaluations a 0 cs))
        (Value.Within .everything) :=
      op.run_composed a (Domain.everything_closed _) henv hwithin hop.2 hcontext
        fun x hx => .given (hgiven x hx)
    rw [evaluate]
    exact .calculation a (.of_composed (fun _ h => h.1) (fun _ h => h.2) hcomposed)

/-- A tree that ignores the context gives the same in all contexts and under both flags. -/
theorem IgnoresContext.evaluate_withFocus {c : Calc} (hc : c.IgnoresContext) (env : Environment)
    (a : Address) (s v : EvalState) :
    ((c.evaluate a).exec env (s.withFocus v)).1 = ((c.evaluate a).exec env s).1 := by
  rw [hc.evaluate_blind env a s v]

end Calc

end Olap
