import Olap.Proofs.Evaluation.Frame

/-!
# Trees in other places

Where a tree stands matters only for the results that are kept: an evaluation at one address goes like
that at another one, as long as the same is kept for both (`EvalState.Alike`). So two actions that are
composed alike of evaluations in both places have the same results (`EvalM.Relocates.of_matched`), and
so has one tree in both (`Calc.evaluate_relocates`). A tree that keeps no results has the same results
in any case.
-/

set_option autoImplicit false

namespace Olap

/-! ## States that keep the same in two places -/

namespace EvalState

/-- The state `u` with what is kept and counted in `v`. -/
def withKept (u v : EvalState) : EvalState := { u with cache := v.cache, calls := v.calls }

theorem withKept_setRow (u v : EvalState) (r : Row) :
    (u.withKept v).setRow r = (u.setRow r).withKept v := by
  induction r generalizing u with
  | nil => rfl
  | cons m r ih =>
    have hone : (u.withKept v).setMember m = (u.setMember m).withKept v := by
      unfold setMember
      rcases h : u.context[m.hierarchyOrdinal]? with _ | previous
      all_goals
        have h' : (u.withKept v).context[m.hierarchyOrdinal]? = _ := h
        rw [h']
      all_goals rfl
    show ((u.withKept v).setMember m).setRow r = ((u.setMember m).setRow r).withKept v
    rw [hone, ih]

theorem withKept_restore (u v : EvalState) (mark : Nat) :
    (u.withKept v).restore mark = (u.restore mark).withKept v := by
  have hfocus : u.withKept v = (u.withKept v).withFocus u := rfl
  obtain ⟨w, hw⟩ := undoMany_eq_withFocus (u.undo.length - mark) u
  have hrestore : u.restore mark = u.withFocus (u.restore mark) := by
    rw [restore, hw]
    rfl
  rw [hfocus, restore_withFocus, hrestore]
  rfl

/-- The states differ only in what is kept and counted, and if that is `read`, what `s` keeps for
calculations below the address `A` is what `t` keeps for those below `B`. -/
structure Alike (read : Prop) (A B : Address) (s t : EvalState) : Prop where
  rest : t = s.withKept t
  kept : read → ∀ (p : Address) (flag : Bool) (names : List String),
    s.cache[((p ++ A, flag, names) : CacheKey)]? = t.cache[((p ++ B, flag, names) : CacheKey)]?

variable {read : Prop} {A B : Address} {s t : EvalState}

namespace Alike

theorem context (h : Alike read A B s t) : t.context = s.context := by rw [h.rest]; rfl

theorem nonEmpty (h : Alike read A B s t) : t.nonEmpty = s.nonEmpty := by rw [h.rest]; rfl

theorem undo (h : Alike read A B s t) : t.undo = s.undo := by rw [h.rest]; rfl

theorem depth (h : Alike read A B s t) : t.depth = s.depth := by rw [h.rest]; rfl

theorem reader (h : Alike read A B s t) : t.reader = s.reader := by rw [h.rest]; rfl

theorem execution (h : Alike read A B s t) : t.execution = s.execution := by rw [h.rest]; rfl

theorem setRow (h : Alike read A B s t) (r : Row) : Alike read A B (s.setRow r) (t.setRow r) := by
  obtain ⟨-, -, -, -, hcache, hcalls⟩ := t.setRow_rest r
  refine ⟨?_, fun hread p flag names => ?_⟩
  · calc t.setRow r = (s.withKept t).setRow r := congrArg (·.setRow r) h.rest
      _ = (s.setRow r).withKept t := withKept_setRow s t r
      _ = (s.setRow r).withKept (t.setRow r) := by rw [withKept, withKept, hcache, hcalls]
  · rw [cache_setRow, cache_setRow]
    exact h.kept hread p flag names

theorem restore (h : Alike read A B s t) (mark : Nat) : Alike read A B (s.restore mark) (t.restore mark) := by
  obtain ⟨-, -, -, hcache, hcalls⟩ := t.restore_rest mark
  refine ⟨?_, fun hread p flag names => ?_⟩
  · calc t.restore mark = (s.withKept t).restore mark := congrArg (·.restore mark) h.rest
      _ = (s.restore mark).withKept t := withKept_restore s t mark
      _ = (s.restore mark).withKept (t.restore mark) := by rw [withKept, withKept, hcache, hcalls]
  · rw [cache_restore, cache_restore]
    exact h.kept hread p flag names

end Alike

/-- The state in which nothing is kept. -/
def cleared (s : EvalState) : EvalState := { s with cache := ∅ }

theorem cleared_alike (A B : Address) (s : EvalState) : Alike True A B s.cleared s.cleared :=
  ⟨rfl, fun _ _ _ _ => by simp [cleared]⟩

theorem alike_cleared (A : Address) (s : EvalState) : Alike False A A s s.cleared :=
  ⟨rfl, False.elim⟩

end EvalState

/-! ## Actions that do the same in two places -/

namespace EvalM

variable {env : Environment} {read : Prop} {A B : Address} {α β : Type}

/-- From states that keep the same in the two places, the actions have the same result and lead to such
states again. -/
def Relocates (env : Environment) (read : Prop) (A B : Address) (x y : EvalM α) : Prop :=
  ∀ s t : EvalState, s.Alike read A B t →
    (x.exec env s).1 = (y.exec env t).1 ∧ (x.exec env s).2.Alike read A B (y.exec env t).2

namespace Relocates

/-- An action that does not touch the state, and does not look at it either. -/
theorem of_const {x : EvalM α} {r : Except CalcError α} (hx : ∀ s, x.exec env s = (r, s)) :
    Relocates env read A B x x := by
  intro s t h
  rw [hx, hx]
  exact ⟨rfl, h⟩

theorem bind {x y : EvalM α} {f g : α → EvalM β} (hx : Relocates env read A B x y)
    (hf : ∀ s a, (x.exec env s).1 = .ok a → Relocates env read A B (f a) (g a)) :
    Relocates env read A B (x >>= f) (y >>= g) := by
  intro s t h
  obtain ⟨hres, halike⟩ := hx s t h
  rcases hs : x.exec env s with ⟨e | a, s'⟩
  all_goals rcases ht : y.exec env t with ⟨e' | a', t'⟩
  all_goals rw [hs, ht] at hres halike
  · cases hres
    rw [exec_bind_error hs, exec_bind_error ht]
    exact ⟨rfl, halike⟩
  · cases hres
  · cases hres
  · cases hres
    rw [exec_bind_ok hs, exec_bind_ok ht]
    exact hf s a (by rw [hs]) s' t' halike

theorem nonEmpty {f g : Bool → EvalM α} (hf : ∀ b, Relocates env read A B (f b) (g b)) :
    Relocates env read A B (get >>= fun s => f s.nonEmpty) (get >>= fun s => g s.nonEmpty) := by
  intro s t h
  rw [exec_bind_ok exec_get, exec_bind_ok exec_get, h.nonEmpty]
  exact hf s.nonEmpty s t h

theorem poll (round : Nat) : Relocates env read A B (EvalM.poll round) (EvalM.poll round) := by
  intro s t h
  rw [exec_poll, exec_poll, h.execution]
  generalize s.execution.checkRound env.config.checkInterval round = checked
  exact ⟨rfl, congrArg (fun u => { u with execution := checked.2 }) h.rest, h.kept⟩

theorem currentMember (k : Hierarchy) :
    Relocates env read A B (EvalM.currentMember k) (EvalM.currentMember k) := by
  intro s t h
  rw [EvalM.currentMember, exec_bind_ok exec_get, exec_bind_ok exec_get, h.context]
  rcases s.context[k.ordinal]? with _ | m
  · exact ⟨rfl, h⟩
  · exact ⟨rfl, h⟩

theorem currentCell : Relocates env read A B EvalM.currentCell EvalM.currentCell := by
  intro s t h
  have hget : t.reader.get t.context = s.reader.get s.context := by rw [h.reader, h.context]
  have hstate (r : CellReader) :
      EvalState.Alike read A B { s with reader := r } { t with reader := r } :=
    ⟨congrArg (fun u => { u with reader := r }) h.rest, h.kept⟩
  rcases hs : s.reader.get s.context with ⟨v | _, r⟩
  · rw [exec_currentCell_ready hs, exec_currentCell_ready (hget.trans hs)]
    exact ⟨rfl, hstate r⟩
  · rw [exec_currentCell_pending hs, exec_currentCell_pending (hget.trans hs)]
    exact ⟨rfl, hstate r⟩

theorem withRow (r : Row) {x y : EvalM α} (hx : Relocates env read A B x y) :
    Relocates env read A B (EvalM.withRow r x) (EvalM.withRow r y) := by
  intro s t h
  obtain ⟨hres, halike⟩ := hx _ _ (h.setRow r)
  have hmark : t.mark = s.mark := congrArg List.length h.undo
  rw [exec_withRow, exec_withRow, hmark]
  exact ⟨hres, halike.restore s.mark⟩

theorem calculation (a b : Address) {x y : EvalM α} (hx : Relocates env read A B x y) :
    Relocates env read A B (EvalM.calculation a x) (EvalM.calculation b y) := by
  intro s t h
  rcases Nat.lt_or_ge s.depth env.config.maxEvalDepth with hlt | hge
  · have hentered : (entered s).Alike read A B (entered t) := ⟨congrArg entered h.rest, h.kept⟩
    obtain ⟨hres, halike⟩ := hx _ _ hentered
    rw [exec_calculation a x hlt, exec_calculation b y (h.depth ▸ hlt)]
    exact ⟨hres, congrArg (left env b) halike.rest, halike.kept⟩
  · rw [exec_calculation_limited a x hge, exec_calculation_limited b y (h.depth ▸ hge)]
    exact ⟨rfl, h⟩

/-- A result that is kept in one place is kept in the other one. -/
theorem cached (hread : read) (p : Address) (os : List Nat) {x y : EvalM Value}
    (hx : Relocates env read A B x y) :
    Relocates env read A B (EvalM.cached (p ++ A) os x) (EvalM.cached (p ++ B) os y) := by
  intro s t h
  let names := os.filterMap fun o => s.context[o]?.map (·.uniqueName)
  have hkey : cacheKey (p ++ A) os s = (p ++ A, s.nonEmpty, names) := rfl
  have hkey' : cacheKey (p ++ B) os t = (p ++ B, s.nonEmpty, names) := by
    rw [cacheKey, h.nonEmpty, h.context]
  have hsame := h.kept hread p s.nonEmpty names
  rcases hk : s.cache[cacheKey (p ++ A) os s]? with _ | v
  · have hk' : t.cache[cacheKey (p ++ B) os t]? = none := by rw [hkey', ← hsame, ← hkey, hk]
    obtain ⟨hres, halike⟩ := hx s t h
    rcases hs : x.exec env s with ⟨e | v, s'⟩
    all_goals rcases ht : y.exec env t with ⟨e' | v', t'⟩
    all_goals rw [hs, ht] at hres halike
    · cases hres
      rw [exec_cached_error hk hs, exec_cached_error hk' ht]
      exact ⟨rfl, halike⟩
    · cases hres
    · cases hres
    · cases hres
      rw [exec_cached_ok hk hs, exec_cached_ok hk' ht]
      change s'.Alike read A B t' at halike
      refine ⟨rfl, congrArg (keeping · _ v) halike.rest, fun _ q flag names' => ?_⟩
      · rw [getElem?_keeping, getElem?_keeping, hkey, hkey', halike.kept hread q flag names']
        simp only [Prod.mk.injEq, List.append_cancel_right_eq]
  · have hk' : t.cache[cacheKey (p ++ B) os t]? = some v := by rw [hkey', ← hsame, ← hkey, hk]
    rw [exec_cached_hit hk, exec_cached_hit hk']
    exact ⟨rfl, h⟩

/-- What is composed alike of actions that do the same in two places does the same, too. -/
theorem of_matched {contextual : Prop} {given : EvalM Value → EvalM Value → Prop}
    (hkeeps : ∀ x y, given x y → Keeps env .everything x (Value.Within .everything))
    (hgiven : ∀ x y, given x y → Relocates env read A B x y) {x y : EvalM α} {Q : α → Prop}
    (h : Matched env .everything contextual given x y Q) : Relocates env read A B x y := by
  induction h with
  | given h => exact hgiven _ _ h
  | pure _ => exact of_const fun _ => exec_pure _
  | throw _ => exact of_const fun _ => exec_throw _
  | bind hx _ ihx ihf =>
    refine ihx.bind fun s a ha => ihf a ?_
    let givenLeft (x : EvalM Value) : Prop := ∃ y, given x y
    have hcomposed : Composed env .everything contextual givenLeft _ _ :=
      hx.composed fun x y h => ⟨y, h⟩
    have hends := Keeps.of_composed (fun x ⟨y, h⟩ => hkeeps x y h) hcomposed s s.within_everything
    exact hends.result a ha
  | mono _ _ ih => exact ih
  | read => exact of_const fun _ => exec_read
  | poll round => exact poll round
  | nonEmpty _ _ ih => exact nonEmpty ih
  | currentMember _ _ => exact currentMember _
  | currentCell _ => exact currentCell
  | withRow _ _ _ ih => exact ih.withRow _

end Relocates

end EvalM

/-! ## Trees in two places -/

namespace Calc

variable {env : Environment} {read : Prop} {A B : Address}

theorem forall₂_evaluations {R : EvalM Value → EvalM Value → Prop} {a b : Address} {cs : List Calc}
    (k : Nat) (h : ∀ c ∈ cs, ∀ j, R (c.evaluate (j :: a)) (c.evaluate (j :: b))) :
    List.Forall₂ R (evaluations a k cs) (evaluations b k cs) := by
  induction cs generalizing k with
  | nil => exact .nil
  | cons c cs ih =>
    obtain ⟨hc, hcs⟩ := List.forall_mem_cons.1 h
    exact .cons (hc k) (ih (k + 1) hcs)

/-- No result is kept for a calculation of the tree. -/
def KeepsNothing (c : Calc) : Prop := c.Every fun c => c.operation.isCache = false

/-- A tree below one address does what it does below another one, if it keeps nothing or if the same is
kept in both places. -/
theorem evaluate_relocates (c : Calc) (hread : read ∨ c.KeepsNothing) (p : Address) :
    EvalM.Relocates env read A B (c.evaluate (p ++ A)) (c.evaluate (p ++ B)) := by
  have henv : env.Within .everything := fun p _ => p.2.within_everything
  have hc : c.Within .everything := c.within_everything
  induction hc generalizing p with
  | @node info op cs hop hcs ih =>
    rw [evaluate, evaluate]
    refine EvalM.Relocates.calculation _ _ ?_
    have hchildren (c : Calc) (hc : c ∈ cs) (j : Nat) :
        EvalM.Relocates env read A B (c.evaluate (j :: (p ++ A))) (c.evaluate (j :: (p ++ B))) :=
      ih c hc (hread.imp_right fun h => h.child c hc) (j :: p)
    cases hcache : op.isCache with
    | true =>
      cases op with
      | cache os =>
        cases cs with
        | nil => exact EvalM.Relocates.of_const fun _ => rfl
        | cons c cs =>
          have hread : read := hread.resolve_right fun h => Bool.noConfusion h.self
          exact (hchildren c List.mem_cons_self 0).cached hread p os
      | _ => cases hcache
    | false =>
      let given (x y : EvalM Value) : Prop :=
        EvalM.Keeps env .everything x (Value.Within .everything) ∧ EvalM.Relocates env read A B x y
      have hgiven : List.Forall₂ given (evaluations (p ++ A) 0 cs) (evaluations (p ++ B) 0 cs) :=
        forall₂_evaluations 0 fun c hc j =>
          ⟨c.evaluate_keeps_everything _ env, hchildren c hc j⟩
      exact EvalM.Relocates.of_matched (fun _ _ h => h.1) (fun _ _ h => h.2)
        (op.run_matched _ _ (Domain.everything_closed _) henv hop hcache (fun _ => trivial)
          (hgiven.imp fun _ _ h => .given h))

/-- Where nothing is kept, a tree has the same result in all places. -/
theorem evaluate_cleared (c : Calc) (a b : Address) (env : Environment) (s : EvalState) :
    ((c.evaluate a).exec env s.cleared).1 = ((c.evaluate b).exec env s.cleared).1 :=
  (c.evaluate_relocates (.inl trivial) [] _ _ (s.cleared_alike a b)).1

/-! ## Results that do not follow from what is kept -/

/-- What is kept in the state makes no difference to the result of the tree. -/
def Unswayed (c : Calc) (env : Environment) (a : Address) (s : EvalState) : Prop :=
  ((c.evaluate a).exec env s).1 = ((c.evaluate a).exec env s.cleared).1

theorem KeepsNothing.unswayed {c : Calc} (h : c.KeepsNothing) (env : Environment) (a : Address)
    (s : EvalState) : c.Unswayed env a s :=
  (c.evaluate_relocates (.inr h) [] _ _ (s.alike_cleared a)).1

end Calc

/-- Nothing is kept for the tree at the address. -/
def EvalState.Unused (a : Address) (s : EvalState) : Prop :=
  ∀ (k : CacheKey) (v : Value), s.cache[k]? = some v → ¬ a <:+ k.1

theorem EvalState.unused_of_empty {a : Address} {s : EvalState} (h : s.cache = ∅) : s.Unused a := by
  intro k v hv
  simp [h] at hv

/-- What is kept for other trees makes no difference. -/
theorem EvalState.Unused.unswayed {a : Address} {s : EvalState} (h : s.Unused a) (c : Calc)
    (env : Environment) : c.Unswayed env a s := by
  have halike : Alike True a a s s.cleared := by
    refine ⟨rfl, fun _ p flag names => ?_⟩
    have hnone : s.cache[((p ++ a, flag, names) : CacheKey)]? = none :=
      Option.eq_none_iff_forall_ne_some.2 fun v hv => h _ v hv (List.suffix_append p a)
    rw [hnone]
    simp [cleared]
  exact (c.evaluate_relocates (.inl trivial) [] _ _ halike).1

end Olap
