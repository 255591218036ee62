import Olap.Proofs.Evaluation.Relocation

/-!
# Replacing what does the same

Two actions are the same in an environment (`EvalM.Same`) if they have the same outcome from every
state. An operation does not tell its operands apart otherwise: with operands that are the same it is
the same (`Operation.run_same`).
-/

set_option autoImplicit false

namespace Olap

namespace EvalM

variable {env : Environment} {α β : Type}

/-! ## From one state -/

section
variable {s : EvalState}

theorem exec_bind_congr {x y : EvalM α} (h : x.exec env s = y.exec env s) (f : α → EvalM β) :
    (x >>= f).exec env s = (y >>= f).exec env s := by
  rw [exec_bind, exec_bind, h]

theorem exec_calculation_congr (a : Address) {x y : EvalM α}
    (h : x.exec env (entered s) = y.exec env (entered s)) :
    (calculation a x).exec env s = (calculation a y).exec env s := by
  by_cases hdepth : s.depth < env.config.maxEvalDepth
  · rw [exec_calculation a x hdepth, exec_calculation a y hdepth, h]
  · rw [exec_calculation_limited a x (Nat.not_lt.1 hdepth),
      exec_calculation_limited a y (Nat.not_lt.1 hdepth)]

theorem exec_cached_congr (a : Address) (os : List Nat) {x y : EvalM Value}
    (h : x.exec env s = y.exec env s) : (cached a os x).exec env s = (cached a os y).exec env s := by
  rcases hk : s.cache[cacheKey a os s]? with _ | v
  · rcases hs : x.exec env s with ⟨e | v, t⟩
    · rw [exec_cached_error hk hs, exec_cached_error hk (h ▸ hs)]
    · rw [exec_cached_ok hk hs, exec_cached_ok hk (h ▸ hs)]
  · rw [exec_cached_hit hk, exec_cached_hit hk]

end

/-! ## From every state -/

/-- From every state the actions have the same result and leave the same state. -/
def Same (env : Environment) (x y : EvalM α) : Prop := ∀ s, x.exec env s = y.exec env s

namespace Same

theorem refl (x : EvalM α) : Same env x x := fun _ => rfl

theorem bind {x y : EvalM α} {f g : α → EvalM β} (hx : Same env x y)
    (hf : ∀ s a, (x.exec env s).1 = .ok a → Same env (f a) (g a)) :
    Same env (x >>= f) (y >>= g) := by
  intro s
  rcases hs : x.exec env s with ⟨e | a, t⟩
  · rw [exec_bind_error hs, exec_bind_error (hx s ▸ hs)]
  · rw [exec_bind_ok hs, exec_bind_ok (hx s ▸ hs)]
    exact hf s a (by rw [hs]) t

theorem withRow (r : Row) {x y : EvalM α} (hx : Same env x y) :
    Same env (EvalM.withRow r x) (EvalM.withRow r y) := by
  intro s
  rw [exec_withRow, exec_withRow, hx]

theorem calculation (a : Address) {x y : EvalM α} (hx : Same env x y) :
    Same env (EvalM.calculation a x) (EvalM.calculation a y) :=
  fun _ => exec_calculation_congr a (hx _)

theorem cached (a : Address) (os : List Nat) {x y : EvalM Value} (hx : Same env x y) :
    Same env (EvalM.cached a os x) (EvalM.cached a os y) :=
  fun s => exec_cached_congr a os (hx s)

/-- What is composed alike of actions that are the same is the same. -/
theorem of_matched {contextual : Prop} {given : EvalM Value → EvalM Value → Prop}
    (hkeeps : ∀ x y, given x y → Keeps env .everything x (Value.Within .everything))
    (hgiven : ∀ x y, given x y → Same env x y) {x y : EvalM α} {Q : α → Prop}
    (h : Matched env .everything contextual given x y Q) : Same env x y := by
  induction h with
  | given h => exact hgiven _ _ h
  | bind hx _ ihx ihf =>
    refine ihx.bind fun s a ha => ihf a ?_
    let givenLeft (x : EvalM Value) : Prop := ∃ y, given x y
    have hcomposed : Composed env .everything contextual givenLeft _ _ :=
      hx.composed fun x y h => ⟨y, h⟩
    have hends := Keeps.of_composed (fun x ⟨y, h⟩ => hkeeps x y h) hcomposed s s.within_everything
    exact hends.result a ha
  | mono _ _ ih => exact ih
  | nonEmpty _ _ ih =>
    intro s
    rw [exec_bind_ok exec_get, exec_bind_ok exec_get]
    exact ih s.nonEmpty s
  | withRow _ _ _ ih => exact ih.withRow _
  | pure _ | throw _ | read | poll _ | currentMember _ _ | currentCell _ => exact refl _

end Same

end EvalM

open EvalM

theorem Operation.within_everything (op : Operation) : op.Within .everything := by
  cases op with
  | constant v => exact v.within_everything
  | parameter _ v => exact v.within_everything
  | _ => trivial

/-- An operation of operands that are the same is the same. -/
theorem Operation.run_same {env : Environment} (op : Operation) (a : Address)
    {xs ys : List (EvalM Value)} (h : List.Forall₂ (Same env) xs ys)
    (hkeeps : ∀ x ∈ xs, Keeps env .everything x (Value.Within .everything)) :
    Same env (op.run a xs) (op.run a ys) := by
  cases hcache : op.isCache with
  | true =>
    cases op with
    | cache os =>
      cases h with
      | nil => exact Same.refl _
      | cons hx _ => exact hx.cached a os
    | _ => cases hcache
  | false =>
    let given (x y : EvalM Value) : Prop :=
      Keeps env .everything x (Value.Within .everything) ∧ Same env x y
    have hgiven : List.Forall₂ given xs ys := by
      induction h with
      | nil => exact .nil
      | cons hx _ ih =>
        obtain ⟨hx', hxs⟩ := List.forall_mem_cons.1 hkeeps
        exact .cons ⟨hx', hx⟩ (ih hxs)
    exact Same.of_matched (fun _ _ h => h.1) (fun _ _ h => h.2)
      (op.run_matched a a (Domain.everything_closed _) (fun p _ => p.2.within_everything)
        op.within_everything hcache (fun _ => trivial) (hgiven.imp fun _ _ h => .given h))

end Olap
