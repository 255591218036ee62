import Olap.Proofs.Cell.Faithful
import Olap.Proofs.Evaluation.Coordinates

/-!
# Evaluations over a batching layer

An evaluation over a layer that loads cells in batches goes like the same evaluation over the facts,
until a cell is missing (`EvalM.Mirrors`): from then on a request is queued, and it stays queued to
the end. So an evaluation that ends with nothing queued has the outcome that the facts give
(`Calc.evaluate_mirrors`).
-/

set_option autoImplicit false

namespace Olap

theorem CellReader.pendingCount_queueing (r : CellReader) (more : List (List Member)) :
    r.pendingCount ≤ (r.queueing more).pendingCount := by
  cases r with
  | memory facts => exact Nat.le_refl _
  | batching inner loaded queue batches =>
    show queue.length ≤ (queue ++ more).length
    rw [List.length_append]
    omega

namespace EvalState

/-- What holds of the states of an evaluation over a batching layer. -/
structure Live (c : Cube) (facts : List Fact) (s : EvalState) : Prop where
  within : s.Within (Domain.ofCube c)
  coordinate : c.Coordinate s.context
  reader : s.reader.Faithful c facts
  running : s.execution.stopped? = none

/-- The state `s` of an evaluation over a batching layer, in which nothing is queued, against the
state `t` of the same evaluation over the facts. -/
structure Tracks (c : Cube) (facts : List Fact) (s t : EvalState) : Prop where
  live : s.Live c facts
  settled : s.reader.pendingCount = 0
  context : s.context = t.context
  nonEmpty : s.nonEmpty = t.nonEmpty
  depth : s.depth = t.depth
  cache : s.cache = t.cache
  reader : t.reader = .memory facts
  running : t.execution.stopped? = none

variable {c : Cube} {facts : List Fact} {s t s' t' : EvalState}

theorem Tracks.within (h : Tracks c facts s t) : t.Within (Domain.ofCube c) :=
  ⟨h.context ▸ h.live.within.context, h.cache ▸ h.live.within.cache⟩

/-- States in the frames of others that correspond correspond again, if nothing is queued and the same
results are kept. -/
theorem Tracks.frame (h : Tracks c facts s t) (hs : s.Frame s') (ht : t.Frame t')
    (hlive : s'.Live c facts) (hsettled : s'.reader.pendingCount = 0) (hcache : s'.cache = t'.cache) :
    Tracks c facts s' t' where
  live := hlive
  settled := hsettled
  context := by rw [hs.context, ht.context, h.context]
  nonEmpty := by rw [hs.nonEmpty, ht.nonEmpty, h.nonEmpty]
  depth := by rw [hs.depth, ht.depth, h.depth]
  cache := hcache
  reader := ht.reader_memory h.reader
  running := ht.stopped?.trans h.running

theorem Live.setRow (hc : c.Regular) (h : s.Live c facts) {r : Row}
    (hr : RowWithin (Domain.ofCube c) r) : (s.setRow r).Live c facts where
  within := h.within.setRow hr
  coordinate := coordinate_setRow hc h.coordinate hr
  reader := by rw [reader_setRow]; exact h.reader
  running := by rw [execution_setRow]; exact h.running

theorem Tracks.setRow (hc : c.Regular) (h : Tracks c facts s t) {r : Row}
    (hr : RowWithin (Domain.ofCube c) r) : Tracks c facts (s.setRow r) (t.setRow r) where
  live := h.live.setRow hc hr
  settled := by rw [reader_setRow]; exact h.settled
  context := by rw [context_setRow, context_setRow, h.context]
  nonEmpty := by rw [nonEmpty_setRow, nonEmpty_setRow, h.nonEmpty]
  depth := by rw [depth_setRow, depth_setRow, h.depth]
  cache := by rw [cache_setRow, cache_setRow, h.cache]
  reader := by rw [reader_setRow]; exact h.reader
  running := by rw [execution_setRow]; exact h.running

end EvalState

namespace EvalM

variable {env : Environment} {facts : List Fact} {α β : Type}

/-- How the outcome of an action over a batching layer compares with that over the facts: some cell is
missing, or the results and the kept results are the same. -/
def SameOutcome (o p : Except CalcError α × EvalState) : Prop :=
  o.2.reader.pendingCount ≠ 0 ∨
    o.1 = p.1 ∧ o.2.cache = p.2.cache ∧ p.1 ≠ .error .quantumExceeded

/-- The action does the same over a batching layer as over the facts, as long as no cell is missing. -/
structure Mirrors (env : Environment) (facts : List Fact) (x : EvalM α) (Q : α → Prop) : Prop where
  keeps : Keeps env (Domain.ofCube env.cube) x Q
  reader : ∀ s : EvalState, s.Live env.cube facts →
    (x.exec env s).2.reader.Faithful env.cube facts
  outcome : ∀ s t : EvalState, s.Tracks env.cube facts t →
    SameOutcome (x.exec env s) (x.exec env t)

namespace Mirrors

theorem live {x : EvalM α} {Q : α → Prop} (hx : Mirrors env facts x Q) {s : EvalState}
    (hs : s.Live env.cube facts) : (x.exec env s).2.Live env.cube facts := by
  obtain ⟨hframe, hw, -⟩ := hx.keeps s hs.within
  exact ⟨hw, hframe.context ▸ hs.coordinate, hx.reader s hs, hframe.stopped?.trans hs.running⟩

theorem pending_bind {x : EvalM α} {f : α → EvalM β} {P : α → Prop} {Q : β → Prop}
    (hx : Mirrors env facts x P) (hf : ∀ a, P a → Mirrors env facts (f a) Q) {s : EvalState}
    (hs : s.Live env.cube facts) (hp : (x.exec env s).2.reader.pendingCount ≠ 0) :
    ((x >>= f).exec env s).2.reader.pendingCount ≠ 0 := by
  obtain ⟨-, hw, hr⟩ := hx.keeps s hs.within
  rcases h : x.exec env s with ⟨_ | a, s'⟩
  · rw [exec_bind_error h]
    rwa [h] at hp
  · rw [h] at hp hw hr
    rw [exec_bind_ok h]
    obtain ⟨more, hmore⟩ := ((hf a (hr a rfl)).keeps s' hw).frame.reader
    have := s'.reader.pendingCount_queueing more
    rw [hmore]
    dsimp only at hp
    omega

theorem bind {x : EvalM α} {f : α → EvalM β} {P : α → Prop} {Q : β → Prop}
    (hx : Mirrors env facts x P) (hf : ∀ a, P a → Mirrors env facts (f a) Q) :
    Mirrors env facts (x >>= f) Q := by
  refine ⟨hx.keeps.bind fun a ha => (hf a ha).keeps, fun s hs => ?_, fun s t h => ?_⟩
  · have hlive := hx.live hs
    obtain ⟨-, -, hr⟩ := hx.keeps s hs.within
    rcases h : x.exec env s with ⟨_ | a, s'⟩
    · rw [exec_bind_error h]
      rw [h] at hlive
      exact hlive.reader
    · rw [h] at hlive hr
      rw [exec_bind_ok h]
      exact (hf a (hr a rfl)).reader s' hlive
  · rcases hx.outcome s t h with hp | ⟨hres, hcache, hne⟩
    · exact .inl (pending_bind hx hf h.live hp)
    · by_cases hp : (x.exec env s).2.reader.pendingCount = 0
      · have htracks := h.frame (hx.keeps s h.live.within).frame (hx.keeps t h.within).frame
          (hx.live h.live) hp hcache
        have hr := (hx.keeps t h.within).result
        rcases hs : x.exec env s with ⟨_ | a, s'⟩
        all_goals rcases ht : x.exec env t with ⟨_ | b, t'⟩
        all_goals rw [hs, ht] at hres htracks hcache
        all_goals rw [ht] at hne hr
        · rw [exec_bind_error hs, exec_bind_error ht]
          cases hres
          exact .inr ⟨rfl, hcache, fun heq => hne (by cases heq; rfl)⟩
        · cases hres
        · cases hres
        · cases hres
          rw [exec_bind_ok hs, exec_bind_ok ht]
          exact (hf a (hr a rfl)).outcome s' t' htracks
      · exact .inl (pending_bind hx hf h.live hp)

theorem mono {x : EvalM α} {P Q : α → Prop} (hx : Mirrors env facts x P) (h : ∀ a, P a → Q a) :
    Mirrors env facts x Q :=
  ⟨hx.keeps.mono h, hx.reader, hx.outcome⟩

/-- An action that does not touch the state, and does not look at it either. -/
theorem of_const {x : EvalM α} {Q : α → Prop} {r : Except CalcError α}
    (hx : ∀ s, x.exec env s = (r, s)) (hQ : ∀ a, r = .ok a → Q a)
    (hr : r ≠ .error .quantumExceeded) : Mirrors env facts x Q := by
  refine ⟨fun s hs => ?_, fun s hs => ?_, fun s t h => ?_⟩
  · rw [hx]
    exact .of_same hs hQ
  · rw [hx]
    exact hs.reader
  · rw [hx, hx]
    exact .inr ⟨rfl, h.cache, hr⟩

theorem poll (round : Nat) : Mirrors env facts (EvalM.poll round) fun _ => True := by
  refine ⟨.poll round, fun s hs => ?_, fun s t h => ?_⟩
  · rw [exec_poll]
    exact hs.reader
  · rw [exec_poll, exec_poll, Execution.checkRound_of_running h.live.running,
      Execution.checkRound_of_running h.running]
    exact .inr ⟨rfl, h.cache, by rintro ⟨⟩⟩

theorem nonEmpty {f : Bool → EvalM α} {Q : α → Prop} (hf : ∀ b, Mirrors env facts (f b) Q) :
    Mirrors env facts (get >>= fun s => f s.nonEmpty) Q := by
  refine ⟨fun s hs => ?_, fun s hs => ?_, fun s t h => ?_⟩
  · rw [exec_bind_ok exec_get]
    exact (hf s.nonEmpty).keeps s hs
  · rw [exec_bind_ok exec_get]
    exact (hf s.nonEmpty).reader s hs
  · rw [exec_bind_ok exec_get, exec_bind_ok exec_get, h.nonEmpty]
    exact (hf t.nonEmpty).outcome s t h

theorem currentMember (h : Hierarchy) :
    Mirrors env facts (EvalM.currentMember h) (Domain.ofCube env.cube).member := by
  refine ⟨.currentMember h, fun s hs => ?_, fun s t hst => ?_⟩
  · rw [EvalM.currentMember, exec_bind_ok exec_get]
    split <;> exact hs.reader
  · rw [EvalM.currentMember, exec_bind_ok exec_get, exec_bind_ok exec_get, hst.context]
    split
    · exact .inr ⟨rfl, hst.cache, by rintro ⟨⟩⟩
    · exact .inr ⟨rfl, hst.cache, by rintro ⟨⟩⟩

theorem currentCell :
    Mirrors env facts EvalM.currentCell (Value.Within (Domain.ofCube env.cube)) := by
  refine ⟨.currentCell, fun s hs => ?_, fun s t h => ?_⟩
  · rcases hs.reader.get hs.coordinate with hget | ⟨r, hget, hr, -⟩
    · rw [exec_currentCell_ready hget]
      exact hs.reader
    · rw [exec_currentCell_pending hget]
      exact hr
  · have ht : t.reader.get t.context = (.ready (totalAt facts t.context), .memory facts) := by
      rw [h.reader]
      rfl
    rw [exec_currentCell_ready ht]
    rcases h.live.reader.get h.live.coordinate with hget | ⟨r, hget, -, hp⟩
    · rw [exec_currentCell_ready hget, h.context]
      exact .inr ⟨rfl, h.cache, by rintro ⟨⟩⟩
    · rw [exec_currentCell_pending hget]
      exact .inl hp

theorem withRow (hc : env.cube.Regular) {r : Row} (hr : RowWithin (Domain.ofCube env.cube) r)
    {x : EvalM α} {Q : α → Prop} (hx : Mirrors env facts x Q) :
    Mirrors env facts (EvalM.withRow r x) Q := by
  refine ⟨hx.keeps.withRow hr, fun s hs => ?_, fun s t h => ?_⟩
  · rw [exec_withRow, EvalState.reader_restore]
    exact hx.reader _ (hs.setRow hc hr)
  · have ho := hx.outcome _ _ (h.setRow hc hr)
    rw [exec_withRow, exec_withRow]
    unfold SameOutcome at ho ⊢
    rw [EvalState.reader_restore, EvalState.cache_restore, EvalState.cache_restore]
    exact ho

theorem calculation (a : Address) {x : EvalM α} {Q : α → Prop} (hx : Mirrors env facts x Q) :
    Mirrors env facts (EvalM.calculation a x) Q := by
  have hlive {s : EvalState} (hs : s.Live env.cube facts) : (entered s).Live env.cube facts :=
    ⟨⟨hs.within.context, hs.within.cache⟩, hs.coordinate, hs.reader, hs.running⟩
  refine ⟨hx.keeps.calculation a, fun s hs => ?_, fun s t h => ?_⟩
  · rcases Nat.lt_or_ge s.depth env.config.maxEvalDepth with hd | hd
    · rw [exec_calculation a x hd]
      exact hx.reader _ (hlive hs)
    · rw [exec_calculation_limited a x hd]
      exact hs.reader
  · rcases Nat.lt_or_ge s.depth env.config.maxEvalDepth with hd | hd
    · have htracks : (entered s).Tracks env.cube facts (entered t) :=
        ⟨hlive h.live, h.settled, h.context, h.nonEmpty, congrArg (· + 1) h.depth, h.cache, h.reader,
          h.running⟩
      rw [exec_calculation a x hd, exec_calculation a x (h.depth ▸ hd)]
      exact hx.outcome _ _ htracks
    · rw [exec_calculation_limited a x hd, exec_calculation_limited a x (h.depth ▸ hd)]
      exact .inr ⟨rfl, h.cache, by rintro ⟨⟩⟩

theorem cached (a : Address) (os : List Nat) {x : EvalM Value}
    (hx : Mirrors env facts x (Value.Within (Domain.ofCube env.cube))) :
    Mirrors env facts (EvalM.cached a os x) (Value.Within (Domain.ofCube env.cube)) := by
  refine ⟨hx.keeps.cached a os, fun s hs => ?_, fun s t h => ?_⟩
  · have hreader := hx.reader s hs
    rcases hk : s.cache[cacheKey a os s]? with _ | v
    · rcases hexec : x.exec env s with ⟨_ | v, s'⟩
      · rw [exec_cached_error hk hexec]
        rwa [hexec] at hreader
      · rw [exec_cached_ok hk hexec]
        rwa [hexec] at hreader
    · rw [exec_cached_hit hk]
      exact hs.reader
  · have hkey : cacheKey a os t = cacheKey a os s := by
      rw [cacheKey, cacheKey, h.context, h.nonEmpty]
    rcases hk : s.cache[cacheKey a os s]? with _ | v
    · have hk' : t.cache[cacheKey a os t]? = none := by rw [hkey, ← h.cache, hk]
      have ho := hx.outcome s t h
      rcases hs : x.exec env s with ⟨_ | v, s'⟩
      all_goals rcases ht : x.exec env t with ⟨_ | w, t'⟩
      all_goals rw [hs, ht] at ho
      · rw [exec_cached_error hk hs, exec_cached_error hk' ht]
        exact ho
      · rw [exec_cached_error hk hs, exec_cached_ok hk' ht]
        rcases ho with hp | ⟨⟨⟩, -⟩
        exact .inl hp
      · rw [exec_cached_ok hk hs, exec_cached_error hk' ht]
        rcases ho with hp | ⟨⟨⟩, -⟩
        exact .inl hp
      · rw [exec_cached_ok hk hs, exec_cached_ok hk' ht]
        rcases ho with hp | ⟨⟨⟩, hcache, -⟩
        · exact .inl hp
        · refine .inr ⟨rfl, ?_, by rintro ⟨⟩⟩
          dsimp only at hcache
          simp only [keeping, hkey, hcache]
    · have hk' : t.cache[cacheKey a os t]? = some v := by rw [hkey, ← h.cache, hk]
      rw [exec_cached_hit hk, exec_cached_hit hk']
      exact .inr ⟨rfl, h.cache, by rintro ⟨⟩⟩

theorem of_composed (hc : env.cube.Regular) {contextual : Prop} {given : EvalM Value → Prop}
    (hgiven : ∀ y, given y → Mirrors env facts y (Value.Within (Domain.ofCube env.cube)))
    {x : EvalM α} {Q : α → Prop}
    (hx : Composed env (Domain.ofCube env.cube) contextual given x Q) : Mirrors env facts x Q := by
  induction hx with
  | given h => exact hgiven _ h
  | pure h => exact of_const (fun _ => exec_pure _) (by rintro _ ⟨⟩; exact h) (by rintro ⟨⟩)
  | throw h => exact of_const (fun _ => exec_throw _) (by rintro _ ⟨⟩) (by rintro ⟨⟩; cases h)
  | bind _ _ ihx ihf => exact ihx.bind ihf
  | mono _ h ih => exact ih.mono h
  | read => exact of_const (fun _ => exec_read) (by rintro _ ⟨⟩; rfl) (by rintro ⟨⟩)
  | poll round => exact poll round
  | nonEmpty _ _ ih => exact nonEmpty ih
  | currentMember _ _ => exact currentMember _
  | currentCell _ => exact currentCell
  | withRow _ hr _ ih => exact ih.withRow hc hr

end Mirrors

theorem Composed.held {D : Domain} {contextual : Prop} {given : EvalM Value → Prop} {v : Value}
    (hv : v.Within D) : Composed env D contextual given (EvalM.held v) (Value.Within D) := by
  unfold EvalM.held
  split
  · exact .bind (.materialize hv) fun l hl => .pure hl
  · exact .pure hv

end EvalM

/-- An evaluation goes like the one over the facts, as long as no cell is missing. -/
theorem Calc.evaluate_mirrors {env : Environment} {facts : List Fact} (hc : env.cube.Regular)
    (henv : env.Within (Domain.ofCube env.cube)) {c : Calc} (hw : c.Within (Domain.ofCube env.cube))
    (a : Address) :
    EvalM.Mirrors env facts (c.evaluate a) (Value.Within (Domain.ofCube env.cube)) :=
  evaluate_of_closed hc.closed henv (fun _ => EvalM.Mirrors.of_composed hc fun _ h => h)
    (fun a os _ => EvalM.Mirrors.cached a os) (fun a _ => EvalM.Mirrors.calculation a) hw a

end Olap
