import Olap.Proofs.Evaluation.Frame

/-!
# Evaluations one level deeper

An evaluation that starts one level deeper goes like the same evaluation where it stands, unless the
nesting becomes too deep for it (`Calc.evaluate_deeper`).
-/

set_option autoImplicit false

namespace Olap

namespace EvalM

variable {env : Environment} {α β : Type}

/-- The action does the same one level deeper, or the nesting is too deep there. -/
def Shifts (env : Environment) (x : EvalM α) : Prop :=
  ∀ s : EvalState,
    (x.exec env (entered s)).1 = .error (.recursionLimit env.config.maxEvalDepth) ∨
      x.exec env (entered s) = ((x.exec env s).1, entered (x.exec env s).2)

theorem entered_setMember (s : EvalState) (m : Member) :
    (entered s).setMember m = entered (s.setMember m) := by
  unfold EvalState.setMember
  rcases h : s.context[m.hierarchyOrdinal]? with _ | previous
  all_goals
    have h' : (entered s).context[m.hierarchyOrdinal]? = _ := h
    rw [h']
  all_goals rfl

theorem entered_setRow (s : EvalState) (r : Row) : (entered s).setRow r = entered (s.setRow r) := by
  induction r generalizing s with
  | nil => rfl
  | cons m r ih =>
    show ((entered s).setMember m).setRow r = entered ((s.setMember m).setRow r)
    rw [entered_setMember, ih]

theorem entered_restore (s : EvalState) (mark : Nat) :
    (entered s).restore mark = entered (s.restore mark) := by
  have hfocus : entered s = (entered s).withFocus s := rfl
  obtain ⟨v, hv⟩ := EvalState.undoMany_eq_withFocus (s.undo.length - mark) s
  have hrestore : s.restore mark = s.withFocus (s.restore mark) := by
    rw [EvalState.restore, hv]
    rfl
  rw [hfocus, EvalState.restore_withFocus, hrestore]
  rfl

namespace Shifts

/-- An action that does not touch the state, and does not look at it either. -/
theorem of_const {x : EvalM α} {r : Except CalcError α} (hx : ∀ s, x.exec env s = (r, s)) :
    Shifts env x := by
  intro s
  rw [hx, hx]
  exact .inr rfl

theorem bind {x : EvalM α} {f : α → EvalM β} (hx : Shifts env x)
    (hf : ∀ s a, (x.exec env s).1 = .ok a → Shifts env (f a)) : Shifts env (x >>= f) := by
  intro s
  rcases hx s with h | h
  · rcases hexec : x.exec env (entered s) with ⟨e | a, t⟩
    · rw [hexec] at h
      rw [exec_bind_error hexec]
      cases h
      exact .inl rfl
    · rw [hexec] at h
      cases h
  · rcases hexec : x.exec env s with ⟨e | a, t⟩
    · rw [hexec] at h
      rw [exec_bind_error h, exec_bind_error hexec]
      exact .inr rfl
    · rw [hexec] at h
      rw [exec_bind_ok h, exec_bind_ok hexec]
      exact hf s a (by rw [hexec]) t

theorem nonEmpty {f : Bool → EvalM α} (hf : ∀ b, Shifts env (f b)) :
    Shifts env (get >>= fun s => f s.nonEmpty) := by
  intro s
  rw [exec_bind_ok exec_get, exec_bind_ok exec_get]
  exact hf s.nonEmpty s

theorem poll (round : Nat) : Shifts env (EvalM.poll round) := by
  intro s
  rw [exec_poll, exec_poll]
  exact .inr rfl

theorem currentMember (h : Hierarchy) : Shifts env (EvalM.currentMember h) := by
  intro s
  refine .inr ?_
  rw [EvalM.currentMember, exec_bind_ok exec_get, exec_bind_ok exec_get]
  rcases hm : s.context[h.ordinal]? with _ | m
  all_goals
    have hm' : (entered s).context[h.ordinal]? = _ := hm
    rw [hm']
  all_goals rfl

theorem currentCell : Shifts env EvalM.currentCell := by
  intro s
  refine .inr ?_
  rcases hget : s.reader.get s.context with ⟨v | _, r⟩
  · have hget' : (entered s).reader.get (entered s).context = (.ready v, r) := hget
    rw [exec_currentCell_ready hget, exec_currentCell_ready hget']
    rfl
  · have hget' : (entered s).reader.get (entered s).context = (.pending, r) := hget
    rw [exec_currentCell_pending hget, exec_currentCell_pending hget']
    rfl

theorem withRow (r : Row) {x : EvalM α} (hx : Shifts env x) : Shifts env (EvalM.withRow r x) := by
  intro s
  rw [exec_withRow, exec_withRow, entered_setRow]
  rcases hx (s.setRow r) with h | h
  · exact .inl h
  · refine .inr ?_
    rw [h]
    show (_, (entered _).restore s.mark) = _
    rw [entered_restore]

theorem calculation (a : Address) {x : EvalM α} (hdepth : ∀ s, (x.exec env s).2.depth = s.depth)
    (hx : Shifts env x) : Shifts env (EvalM.calculation a x) := by
  intro s
  rcases Nat.lt_or_ge (s.depth + 1) env.config.maxEvalDepth with h | h
  · rw [exec_calculation a x h, exec_calculation a x (Nat.lt_of_succ_lt h)]
    rcases hx (entered s) with hlimit | heq
    · exact .inl hlimit
    · refine .inr ?_
      -- the body's level is left behind on both sides
      have hlevel : (x.exec env (entered s)).2.depth = s.depth + 1 := hdepth (entered s)
      rw [heq]
      refine Prod.ext rfl ?_
      show EvalState.mk _ _ _ ((x.exec env (entered s)).2.depth + 1 - 1) _ _ _ _ =
        EvalState.mk _ _ _ ((x.exec env (entered s)).2.depth - 1 + 1) _ _ _ _
      rw [hlevel]
      rfl
  · rw [exec_calculation_limited a x h]
    exact .inl rfl

theorem cached (a : Address) (os : List Nat) {x : EvalM Value} (hx : Shifts env x) :
    Shifts env (EvalM.cached a os x) := by
  intro s
  rcases hk : s.cache[cacheKey a os s]? with _ | v
  · have hk' : (entered s).cache[cacheKey a os (entered s)]? = none := hk
    rcases hexec : x.exec env s with ⟨e | v, t⟩
    all_goals rcases hexec' : x.exec env (entered s) with ⟨e' | v', t'⟩
    all_goals
      have hshift := hx s
      rw [hexec, hexec'] at hshift
    · rw [exec_cached_error hk hexec, exec_cached_error hk' hexec']
      exact hshift
    · rcases hshift with h | h <;> cases h
    · rw [exec_cached_error hk' hexec']
      rcases hshift with h | h
      · exact .inl h
      · cases h
    · rcases hshift with h | h
      · cases h
      · cases h
        rw [exec_cached_ok hk hexec, exec_cached_ok hk' hexec']
        exact .inr rfl
  · have hk' : (entered s).cache[cacheKey a os (entered s)]? = some v := hk
    rw [exec_cached_hit hk, exec_cached_hit hk']
    exact .inr rfl

theorem of_composed {contextual : Prop} {given : EvalM Value → Prop}
    (hkeeps : ∀ y, given y → Keeps env .everything y (Value.Within .everything))
    (hgiven : ∀ y, given y → Shifts env y) {x : EvalM α} {Q : α → Prop}
    (hx : Composed env .everything contextual given x Q) : Shifts env x := by
  induction hx with
  | given h => exact hgiven _ h
  | pure _ => exact of_const fun _ => exec_pure _
  | throw _ => exact of_const fun _ => exec_throw _
  | bind hx _ ihx ihf =>
    refine ihx.bind fun s a ha => ihf a ?_
    exact (Keeps.of_composed hkeeps hx s s.within_everything).result a ha
  | mono _ _ ih => exact ih
  | read => exact of_const fun _ => exec_read
  | poll round => exact poll round
  | nonEmpty _ _ ih => exact nonEmpty ih
  | currentMember _ _ => exact currentMember _
  | currentCell _ => exact currentCell
  | withRow _ _ _ ih => exact ih.withRow _

end Shifts

end EvalM

/-- An evaluation one level deeper has the same result, unless the nesting is too deep there. -/
theorem Calc.evaluate_deeper (c : Calc) (a : Address) (env : Environment) (s : EvalState) :
    ((c.evaluate a).exec env (EvalM.entered s)).1 =
        .error (.recursionLimit env.config.maxEvalDepth) ∨
      ((c.evaluate a).exec env (EvalM.entered s)).1 = ((c.evaluate a).exec env s).1 := by
  let P (x : EvalM Value) : Prop :=
    EvalM.Keeps env .everything x (Value.Within .everything) ∧ EvalM.Shifts env x
  have hall : P (c.evaluate a) := by
    refine evaluate_of_closed (P := P) (Domain.everything_closed env.cube)
      (fun p _ => p.2.within_everything) (fun x hx => ?_) (fun a os x hx => ?_)
      (fun a x hx => ?_) c.within_everything a
    · have hkeeps (y : EvalM Value) (hy : P y) := hy.1
      exact ⟨.of_composed hkeeps hx, .of_composed hkeeps (fun _ hy => hy.2) hx⟩
    · exact ⟨hx.1.cached a os, hx.2.cached a os⟩
    · have hdepth (s : EvalState) : (x.exec env s).2.depth = s.depth :=
        (hx.1 s s.within_everything).frame.depth
      exact ⟨hx.1.calculation a, hx.2.calculation a hdepth⟩
  obtain ⟨-, hshifts⟩ := hall
  rcases hshifts s with h | h
  · exact .inl h
  · exact .inr (by rw [h])

end Olap
