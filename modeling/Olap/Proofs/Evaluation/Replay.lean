import Olap.Proofs.Evaluation.Coordinates

/-!
# Evaluating again

A state leads to another one (`EvalState.Leads`) if, whatever the contexts are, the other one can come
later in the same evaluation: everything that is kept stays kept, and requests at most have been queued.
What an action has given in a context it gives again there in all states that come later, whichever of
its parts have been kept meanwhile; only the batch of requested cells may be full by then
(`EvalM.Replays`). All evaluations are like that (`Calc.evaluate_replays`), so that one evaluation has
one result in one context (`EvalM.Settles`), even if it is made many times on the way.
-/

set_option autoImplicit false

namespace Olap

/-! ## Cells -/

namespace CellReader

variable {r r' : CellReader} {κ : List Member}

/-- A cell that is known stays known. -/
theorem get_queueing_ready {v : Option Double} (h : r.get κ = (.ready v, r'))
    (more : List (List Member)) : ((r'.queueing more).get κ).1 = .ready v := by
  cases r with
  | memory facts =>
    cases h
    rfl
  | batching inner loaded queue batches =>
    rw [get] at h
    split at h
    · rename_i value hvalue
      cases h
      simp only [queueing, get, hvalue]
    · cases h

/-- A cell that is not known is not known before the next cells are loaded. -/
theorem get_queueing_pending (h : r.get κ = (.pending, r')) (more : List (List Member)) :
    ((r'.queueing more).get κ).1 = .pending ∧ ∀ facts, r'.queueing more ≠ .memory facts := by
  cases r with
  | memory facts => cases h
  | batching inner loaded queue batches =>
    rw [get] at h
    split at h
    · cases h
    · rename_i hnone
      cases h
      refine ⟨by simp only [queueing, get, hnone], fun facts h => ?_⟩
      cases h

end CellReader

/-- How often an execution has been asked makes no difference to what it answers. -/
theorem Execution.checkRound_checks (x : Execution) (checks interval : Nat) (round : Int) :
    (checkRound { x with checks } interval round).1 = (x.checkRound interval round).1 := by
  have hstopped : stopped? { x with checks } = x.stopped? := rfl
  unfold checkRound check
  rw [hstopped]
  split
  · split <;> rfl
  · rfl

/-! ## States that come later -/

namespace EvalState

/-- Wherever the two states stand, the second one may come after the first one in an evaluation (module
doc). -/
structure Leads (s t : EvalState) : Prop where
  nonEmpty : t.nonEmpty = s.nonEmpty
  depth : t.depth = s.depth
  /-- Only the number of times that the execution was asked has changed. -/
  execution : ∃ checks, t.execution = { s.execution with checks }
  /-- Only requests have been queued. -/
  reader : ∃ more, t.reader = s.reader.queueing more
  kept : ∀ (k : CacheKey) (v : Value), s.cache[k]? = some v → t.cache[k]? = some v

variable {s t u : EvalState}

theorem Frame.leads (h : s.Frame t)
    (hkept : ∀ (k : CacheKey) (v : Value), s.cache[k]? = some v → t.cache[k]? = some v) :
    s.Leads t :=
  ⟨h.nonEmpty, h.depth, h.execution, h.reader, hkept⟩

namespace Leads

theorem refl (s : EvalState) : s.Leads s := (Frame.refl s).leads fun _ _ => id

theorem trans (h : s.Leads t) (h' : t.Leads u) : s.Leads u where
  nonEmpty := h'.nonEmpty.trans h.nonEmpty
  depth := h'.depth.trans h.depth
  execution := by
    obtain ⟨i, hi⟩ := h.execution
    obtain ⟨j, hj⟩ := h'.execution
    exact ⟨j, by rw [hj, hi]⟩
  reader := by
    obtain ⟨p, hp⟩ := h.reader
    obtain ⟨q, hq⟩ := h'.reader
    exact ⟨p ++ q, by rw [hq, hp, CellReader.queueing_queueing]⟩
  kept := fun k v hk => h'.kept k v (h.kept k v hk)

theorem reader_memory (h : s.Leads t) {facts : List Fact} (hs : s.reader = .memory facts) :
    t.reader = .memory facts := by
  obtain ⟨more, hmore⟩ := h.reader
  rw [hmore, hs]
  rfl

/-- Changes of the context make no difference. -/
theorem setRow (s : EvalState) (r : Row) : s.Leads (s.setRow r) :=
  ⟨by simp, by simp, ⟨s.execution.checks, by simp⟩, ⟨[], by simp⟩, fun k v hk => by simpa using hk⟩

theorem restore (s : EvalState) {r : Row} (h : (s.setRow r).Frame t) : t.Leads (t.restore s.mark) := by
  obtain ⟨hdepth, hreader, hexecution, hcache, -⟩ := t.restore_rest s.mark
  refine ⟨?_, hdepth, ⟨t.execution.checks, by rw [hexecution]⟩, ⟨[], by rw [hreader]; simp⟩,
    fun k v hk => by rwa [hcache]⟩
  rw [h.restore.nonEmpty, h.nonEmpty, nonEmpty_setRow]

end Leads

end EvalState

namespace EvalM

variable {env : Environment} {α β : Type} {s t u v : EvalState} {κ : List Member}

/-! ## The same result again -/

/-- The action gives `a` in the state, or stops because the batch of requested cells is full. -/
def Repeats (env : Environment) (x : EvalM α) (a : α) (s : EvalState) : Prop :=
  (x.exec env s).1 = .ok a ∨
    (x.exec env s).1 = .error .quantumExceeded ∧ ∀ facts, s.reader ≠ .memory facts

/-- The action forgets nothing that is kept, and what it has given it gives again in all states that
come later and stand in the same context (module doc). -/
structure Replays (env : Environment) (x : EvalM α) : Prop where
  frame : ∀ s : EvalState, s.Frame (x.exec env s).2
  kept : ∀ (s : EvalState) (k : CacheKey) (v : Value),
    s.cache[k]? = some v → (x.exec env s).2.cache[k]? = some v
  again : ∀ {s t u : EvalState} {a : α}, x.exec env s = (.ok a, t) → t.Leads u →
    u.context = s.context → Repeats env x a u

namespace Replays

theorem leads {x : EvalM α} (hx : Replays env x) (s : EvalState) : s.Leads (x.exec env s).2 :=
  (hx.frame s).leads (hx.kept s)

section
variable {x : EvalM α} (hx : Replays env x) {r : Except CalcError α} (hexec : x.exec env s = (r, t))
include hx hexec

theorem leads_of_exec : s.Leads t := by
  have hleads := hx.leads s
  rwa [hexec] at hleads

theorem context_of_exec : t.context = s.context := by
  have hframe := hx.frame s
  rw [hexec] at hframe
  exact hframe.context

end

/-- An action that does not touch the state, and does not look at it either. -/
theorem of_const {x : EvalM α} {r : Except CalcError α} (hx : ∀ s, x.exec env s = (r, s)) :
    Replays env x := by
  refine ⟨fun s => ?_, fun s k v hk => ?_, fun {s _ u a} hexec _ _ => .inl ?_⟩
  · rw [hx]
    exact .refl s
  · rwa [hx]
  · rw [hx] at hexec ⊢
    exact congrArg Prod.fst hexec

theorem bind {x : EvalM α} {f : α → EvalM β} (hx : Replays env x)
    (hf : ∀ s a, (x.exec env s).1 = .ok a → Replays env (f a)) : Replays env (x >>= f) := by
  refine ⟨fun s => ?_, fun s k v hk => ?_, fun {s t u b} hexec hleads hcontext => ?_⟩
  · have hframe := hx.frame s
    rcases hfirst : x.exec env s with ⟨e | a, t⟩
    all_goals rw [hfirst] at hframe
    · rw [exec_bind_error hfirst]
      exact hframe
    · rw [exec_bind_ok hfirst]
      exact hframe.trans ((hf s a (by rw [hfirst])).frame t)
  · have hkept := hx.kept s k v hk
    rcases hfirst : x.exec env s with ⟨e | a, t⟩
    all_goals rw [hfirst] at hkept
    · rw [exec_bind_error hfirst]
      exact hkept
    · rw [exec_bind_ok hfirst]
      exact (hf s a (by rw [hfirst])).kept t k v hkept
  · rcases hfirst : x.exec env s with ⟨e | a, t₁⟩
    · rw [exec_bind_error hfirst] at hexec
      cases hexec
    · rw [exec_bind_ok hfirst] at hexec
      have hrest := hf s a (by rw [hfirst])
      -- what is kept until the first action is over is kept until all is over
      rcases hx.again hfirst ((hrest.leads_of_exec hexec).trans hleads) hcontext with hok | ⟨herror, hr⟩
      · rcases hsecond : x.exec env u with ⟨_, u₁⟩
        rw [hsecond] at hok
        cases hok
        have hleads₁ := hx.leads_of_exec hsecond
        have hcontext₁ : u₁.context = t₁.context := by
          rw [hx.context_of_exec hsecond, hcontext, hx.context_of_exec hfirst]
        unfold Repeats
        rw [exec_bind_ok hsecond]
        rcases hrest.again hexec (hleads.trans hleads₁) hcontext₁ with hok | ⟨herror, hr⟩
        · exact .inl hok
        · exact .inr ⟨herror, fun facts hmemory => hr facts (hleads₁.reader_memory hmemory)⟩
      · rcases hsecond : x.exec env u with ⟨_, u₁⟩
        rw [hsecond] at herror
        cases herror
        exact .inr ⟨by rw [exec_bind_error hsecond], hr⟩

theorem nonEmpty {f : Bool → EvalM α} (hf : ∀ flag, Replays env (f flag)) :
    Replays env (get >>= fun s => f s.nonEmpty) := by
  refine ⟨fun s => ?_, fun s k v hk => ?_, fun {s t u a} hexec hleads hcontext => ?_⟩
  · rw [exec_bind_ok exec_get]
    exact (hf _).frame s
  · rw [exec_bind_ok exec_get]
    exact (hf _).kept s k v hk
  · rw [exec_bind_ok exec_get] at hexec
    have hflag : u.nonEmpty = s.nonEmpty :=
      hleads.nonEmpty.trans ((hf _).leads_of_exec hexec).nonEmpty
    unfold Repeats
    rw [exec_bind_ok exec_get, hflag]
    exact (hf _).again hexec hleads hcontext

theorem poll (round : Nat) : Replays env (EvalM.poll round) := by
  have hframe (s : EvalState) : s.Frame ((EvalM.poll round).exec env s).2 :=
    (Keeps.poll (D := .everything) round s s.within_everything).frame
  refine ⟨hframe, fun s k v hk => by rwa [exec_poll], fun {s t u a} hexec hleads _ => .inl ?_⟩
  have hfirst := hframe s
  rw [hexec] at hfirst
  obtain ⟨i, hi⟩ := hfirst.execution
  obtain ⟨j, hj⟩ := hleads.execution
  rw [exec_poll] at hexec ⊢
  rw [hj, hi, Execution.checkRound_checks, Execution.checkRound_checks]
  exact congrArg Prod.fst hexec

theorem currentMember (h : Hierarchy) : Replays env (EvalM.currentMember h) := by
  have hexec (s : EvalState) : ((EvalM.currentMember h).exec env s).2 = s := by
    rw [EvalM.currentMember, exec_bind_ok exec_get]
    split <;> rfl
  refine ⟨fun s => ?_, fun s k v hk => by rwa [hexec], fun {s t u a} hfirst _ hcontext => .inl ?_⟩
  · rw [hexec]
    exact .refl s
  · rw [EvalM.currentMember, exec_bind_ok exec_get] at hfirst ⊢
    rw [hcontext]
    rcases hm : s.context[h.ordinal]? with _ | m
    all_goals rw [hm] at hfirst
    · cases hfirst
    · cases hfirst
      rfl

theorem currentCell : Replays env EvalM.currentCell := by
  refine ⟨fun s => (Keeps.currentCell (D := .everything) s s.within_everything).frame,
    fun s k v hk => ?_, fun {s t u a} hexec hleads hcontext => ?_⟩
  · rcases hget : s.reader.get s.context with ⟨_ | _, r⟩
    · rwa [exec_currentCell_ready hget]
    · rwa [exec_currentCell_pending hget]
  · obtain ⟨more, hmore⟩ := hleads.reader
    rcases hget : s.reader.get s.context with ⟨value | _, r⟩
    · rw [exec_currentCell_ready hget] at hexec
      cases hexec
      have hready : (u.reader.get u.context).1 = .ready value := by
        rw [hmore, hcontext]
        exact CellReader.get_queueing_ready hget more
      rcases hget' : u.reader.get u.context with ⟨_, r'⟩
      rw [hget'] at hready
      cases hready
      exact .inl (by rw [exec_currentCell_ready hget'])
    · rw [exec_currentCell_pending hget] at hexec
      split at hexec
      · cases hexec
      · cases hexec
        have hpending := CellReader.get_queueing_pending hget more
        rw [← hcontext, ← hmore] at hpending
        obtain ⟨hpending, hbatching⟩ := hpending
        rcases hget' : u.reader.get u.context with ⟨_, r'⟩
        rw [hget'] at hpending
        cases hpending
        unfold Repeats
        rw [exec_currentCell_pending hget']
        split
        · exact .inr ⟨rfl, hbatching⟩
        · exact .inl rfl

theorem withRow (r : Row) {x : EvalM α} (hx : Replays env x) : Replays env (EvalM.withRow r x) := by
  refine ⟨fun s => ?_, fun s k v hk => ?_, fun {s t u a} hexec hleads hcontext => ?_⟩
  · rw [exec_withRow]
    exact (hx.frame (s.setRow r)).restore
  · rw [exec_withRow, EvalState.cache_restore]
    exact hx.kept _ k v (by rwa [EvalState.cache_setRow])
  · have hframe := hx.frame (s.setRow r)
    rw [exec_withRow] at hexec
    rcases hfirst : x.exec env (s.setRow r) with ⟨_, t₁⟩
    rw [hfirst] at hexec hframe
    cases hexec
    have hleads₁ : t₁.Leads (u.setRow r) :=
      ((EvalState.Leads.restore s hframe).trans hleads).trans (.setRow u r)
    have hcontext₁ : (u.setRow r).context = (s.setRow r).context := by
      rw [EvalState.context_setRow, EvalState.context_setRow, hcontext]
    unfold Repeats
    rw [exec_withRow]
    rcases hx.again hfirst hleads₁ hcontext₁ with hok | ⟨herror, hr⟩
    · exact .inl hok
    · exact .inr ⟨herror, fun facts hmemory => hr facts (by rwa [EvalState.reader_setRow])⟩

theorem calculation (c : Address) {x : EvalM α} (hx : Replays env x) :
    Replays env (EvalM.calculation c x) := by
  have hframe (s : EvalState) : s.Frame ((EvalM.calculation c x).exec env s).2 := by
    have hends : s.Ends .everything (fun _ => True) ((EvalM.calculation c x).exec env s) :=
      ends_calculation c s.within_everything
        ⟨hx.frame _, EvalState.within_everything _, fun _ _ => trivial⟩
    exact hends.frame
  refine ⟨hframe, fun s k v hk => ?_, fun {s t u a} hexec hleads hcontext => ?_⟩
  · rcases Nat.lt_or_ge s.depth env.config.maxEvalDepth with hdepth | hdepth
    · rw [exec_calculation c x hdepth]
      exact hx.kept (entered s) k v hk
    · rwa [exec_calculation_limited c x hdepth]
  · rcases Nat.lt_or_ge s.depth env.config.maxEvalDepth with hdepth | hdepth
    · have hdepth' : u.depth = s.depth := by
        have hsame := hframe s
        rw [hexec] at hsame
        exact hleads.depth.trans hsame.depth
      rw [exec_calculation c x hdepth] at hexec
      rcases hfirst : x.exec env (entered s) with ⟨_, t₁⟩
      rw [hfirst] at hexec
      cases hexec
      have hdeep : (entered u).depth = t₁.depth := by
        rw [(hx.leads_of_exec hfirst).depth]
        exact congrArg (· + 1) hdepth'
      have hleads₁ : t₁.Leads (entered u) :=
        ⟨hleads.nonEmpty, hdeep, hleads.execution, hleads.reader, hleads.kept⟩
      unfold Repeats
      rw [exec_calculation c x (hdepth' ▸ hdepth)]
      exact hx.again hfirst hleads₁ hcontext
    · rw [exec_calculation_limited c x hdepth] at hexec
      cases hexec

theorem cached (c : Address) (os : List Nat) {x : EvalM Value} (hx : Replays env x) :
    Replays env (EvalM.cached c os x) := by
  have hframe (s : EvalState) : s.Frame ((EvalM.cached c os x).exec env s).2 := by
    have hends : s.Ends .everything (Value.Within .everything) ((EvalM.cached c os x).exec env s) :=
      ends_cached c os s.within_everything
        ⟨hx.frame _, EvalState.within_everything _, fun v _ => v.within_everything⟩
    exact hends.frame
  refine ⟨hframe, fun s k w hk => ?_, fun {s t u a} hexec hleads hcontext => .inl ?_⟩
  · rcases hkept : s.cache[cacheKey c os s]? with _ | v
    · have hstill := hx.kept s k w hk
      rcases hfirst : x.exec env s with ⟨e | v, t⟩
      all_goals rw [hfirst] at hstill
      · rw [exec_cached_error hkept hfirst]
        exact hstill
      · have hne : cacheKey c os s ≠ k := fun heq => by
          rw [heq, hk] at hkept
          cases hkept
        rw [exec_cached_ok hkept hfirst, getElem?_keeping, if_neg hne]
        exact hstill
    · rwa [exec_cached_hit hkept]
  · have hkey : cacheKey c os u = cacheKey c os s := by
      have hflag : t.nonEmpty = s.nonEmpty := by
        have hsame := hframe s
        rw [hexec] at hsame
        exact hsame.nonEmpty
      unfold cacheKey
      rw [hcontext, hleads.nonEmpty, hflag]
    -- the result is kept when the action is over
    have hafter : t.cache[cacheKey c os s]? = some a := by
      rcases hkept : s.cache[cacheKey c os s]? with _ | v
      · rcases hfirst : x.exec env s with ⟨e | v, t₁⟩
        · rw [exec_cached_error hkept hfirst] at hexec
          cases hexec
        · rw [exec_cached_ok hkept hfirst] at hexec
          cases hexec
          rw [getElem?_keeping, if_pos rfl]
      · rw [exec_cached_hit hkept] at hexec
        cases hexec
        exact hkept
    have hhit : u.cache[cacheKey c os u]? = some a := by
      rw [hkey]
      exact hleads.kept _ _ hafter
    rw [exec_cached_hit hhit]

theorem of_composed {contextual : Prop} {given : EvalM Value → Prop}
    (hkeeps : ∀ y, given y → Keeps env .everything y (Value.Within .everything))
    (hgiven : ∀ y, given y → Replays env y) {x : EvalM α} {Q : α → Prop}
    (hx : Composed env .everything contextual given x Q) : Replays env x := by
  induction hx with
  | given h => exact hgiven _ h
  | pure _ => exact of_const fun _ => exec_pure _
  | throw _ => exact of_const fun _ => exec_throw _
  | bind hx _ ihx ihf =>
    refine ihx.bind fun s a ha => ihf a ?_
    exact (Keeps.of_composed hkeeps hx s s.within_everything).result a ha
  | mono _ _ ih => exact ih
  | read => exact of_const fun _ => exec_read
  | poll round => exact poll round
  | nonEmpty _ _ ih => exact nonEmpty ih
  | currentMember _ _ => exact currentMember _
  | currentCell _ => exact currentCell
  | withRow _ _ _ ih => exact ih.withRow _

end Replays

/-- From `s` to `t` the action has given `a` in the context, and from `t` on it gives that again
there. -/
structure Settles (env : Environment) (x : EvalM α) (κ : List Member) (s t : EvalState) (a : α) :
    Prop where
  gave : ∃ u v, s.Leads u ∧ u.context = κ ∧ x.exec env u = (.ok a, v) ∧ v.Leads t
  again : ∀ u, t.Leads u → u.context = κ → Repeats env x a u

theorem Replays.settles {x : EvalM α} (hx : Replays env x) {a : α} (hs : s.Leads u)
    (hcontext : u.context = κ) (hexec : x.exec env u = (.ok a, v)) (ht : v.Leads t) :
    Settles env x κ s t a :=
  ⟨⟨u, v, hs, hcontext, hexec, ht⟩, fun _ hlater hsame =>
    hx.again hexec (ht.trans hlater) (hsame.trans hcontext.symm)⟩

end EvalM

/-- What an evaluation has given it gives again later in the same context. -/
theorem Calc.evaluate_replays (c : Calc) (env : Environment) (a : Address) :
    EvalM.Replays env (c.evaluate a) := by
  let P (x : EvalM Value) : Prop :=
    EvalM.Keeps env .everything x (Value.Within .everything) ∧ EvalM.Replays env x
  have hP : P (c.evaluate a) :=
    evaluate_of_closed (Domain.everything_closed env.cube) (fun p _ => p.2.within_everything)
      (fun _ hx => ⟨.of_composed (fun _ h => h.1) hx, .of_composed (fun _ h => h.1) (fun _ h => h.2) hx⟩)
      (fun a os _ h => ⟨h.1.cached a os, h.2.cached a os⟩)
      (fun a _ h => ⟨h.1.calculation a, h.2.calculation a⟩) c.within_everything a
  exact hP.2

end Olap
