import Olap.Proofs.Evaluation.Independence
import Olap.Proofs.Evaluation.Reads
import Olap.Proofs.Execution.Batching

/-!
# Phases make progress

A run goes from phase to phase until one ends it (`Phased.Restarts`, `Phased.run_spec`). Over one layer
above the facts each restart loads a batch with a cell that was not known before, so a query over a cube
ends before its phases run out if more of them are allowed than the cube has coordinates; and the phase
whose value is handed over has seen no placeholder (`Engine.phases_progress`).
-/

set_option autoImplicit false

namespace Olap

/-! ## Runs -/

namespace Phased

variable {σ α : Type} {p : Phased σ α} {limit left n : Nat} {s t : σ} {v : α}

/-- How the phase that starts in `s` ends the run, if it does. -/
def ending (p : Phased σ α) (s : σ) : Option (Except CalcError α) :=
  match (p.phase s).1 with
  | .ok v => if p.pending (p.phase s).2 = 0 then some (.ok v) else none
  | .error .quantumExceeded => none
  | .error e => some (.error e)

/-- Where the phase after the one that starts in `s` starts. -/
def restart (p : Phased σ α) (s : σ) : σ := p.load (p.phase s).2

/-- The first `n` phases from `s` on do not end the run, and the next one starts in `t`. -/
inductive Restarts (p : Phased σ α) : Nat → σ → σ → Prop
  | refl (s : σ) : Restarts p 0 s s
  | next {n : Nat} {s t : σ} (h : p.ending s = none) (hn : Restarts p n (p.restart s) t) :
      Restarts p (n + 1) s t

/-- What a phase that does not end the run keeps, `n` of them keep. -/
theorem Restarts.inv {P : Nat → σ → Prop}
    (h : ∀ n s, P n s → p.ending s = none → P (n + 1) (p.restart s)) {k : Nat} (hs : P k s)
    (ht : p.Restarts n s t) : P (k + n) t := by
  induction ht generalizing k with
  | refl s => exact hs
  | @next n s t hend _ ih =>
    have hnext : P (k + 1 + n) t := ih (h k s hs hend)
    rwa [show k + (n + 1) = k + 1 + n by omega]

/-- A phase that does not end the run ends with the signal to load cells, or with requests queued. -/
theorem signal_or_pending (h : p.ending s = none) :
    (p.phase s).1 = .error .quantumExceeded ∨ p.pending (p.phase s).2 ≠ 0 := by
  unfold ending at h
  split at h
  · by_cases hp : p.pending (p.phase s).2 = 0
    · rw [if_pos hp] at h
      cases h
    · exact .inr hp
  · exact .inl (by assumption)
  · cases h

theorem ending_ok (h : p.ending s = some (.ok v)) :
    (p.phase s).1 = .ok v ∧ p.pending (p.phase s).2 = 0 := by
  unfold ending at h
  split at h
  · split at h
    · cases h
      exact ⟨by assumption, by assumption⟩
    · cases h
  · cases h
  · cases h

theorem ending_ne_signal : p.ending s ≠ some (.error .quantumExceeded) := by
  unfold ending
  split
  · split <;> rintro ⟨⟩
  · rintro ⟨⟩
  · rename_i e hne _
    rintro ⟨⟩
    exact hne rfl

theorem runFrom_ending {r : Except CalcError α} (h : p.ending s = some r) :
    p.runFrom limit (left + 1) s = (r.map (⟨·, limit - left⟩), (p.phase s).2) := by
  rcases hph : p.phase s with ⟨e | v, t⟩
  · have he : e ≠ .quantumExceeded := by
      rintro rfl
      unfold ending at h
      rw [hph] at h
      cases h
    rw [runFrom_error hph he]
    unfold ending at h
    rw [hph] at h
    cases e <;> first | cases h; rfl | exact absurd rfl he
  · unfold ending at h
    rw [hph] at h
    dsimp only at h
    split at h
    · cases h
      exact runFrom_settled hph (by assumption)
    · cases h

theorem runFrom_restart (h : p.ending s = none) :
    p.runFrom limit (left + 1) s = p.runFrom limit left (p.restart s) := by
  rw [restart]
  rcases signal_or_pending h with hsignal | hp
  · exact runFrom_signal (Prod.ext hsignal rfl)
  · rcases hph : p.phase s with ⟨e | v, t⟩
    · unfold ending at h
      rw [hph] at h
      cases e <;> first | exact runFrom_signal hph | cases h
    · rw [hph] at hp
      exact runFrom_pending hph hp

/-- A run uses up its phases, or ends with the first one that ends it. -/
theorem runFrom_spec (h : left ≤ limit) (s : σ) :
    (∃ t, p.Restarts left s t ∧ p.runFrom limit left s = (.error (exhausted limit), t)) ∨
      ∃ n t r, n < left ∧ p.Restarts n s t ∧ p.ending t = some r ∧
        p.runFrom limit left s = (r.map (⟨·, limit - left + n + 1⟩), (p.phase t).2) := by
  induction left generalizing s with
  | zero => exact .inl ⟨s, .refl s, rfl⟩
  | succ left ih =>
    rcases hend : p.ending s with _ | r
    · rw [runFrom_restart hend]
      rcases ih (by omega) (p.restart s) with ⟨t, ht, hrun⟩ | ⟨n, t, r, hn, ht, hr, hrun⟩
      · exact .inl ⟨t, .next hend ht, hrun⟩
      · refine .inr ⟨n + 1, t, r, by omega, .next hend ht, hr, ?_⟩
        rw [hrun, show limit - left + n + 1 = limit - (left + 1) + (n + 1) + 1 by omega]
    · refine .inr ⟨0, s, r, by omega, .refl s, hend, ?_⟩
      rw [runFrom_ending hend, show limit - left = limit - (left + 1) + 0 + 1 by omega]

theorem run_spec (p : Phased σ α) (maxPhases : Nat) (s : σ) :
    (∃ t, p.Restarts (max maxPhases 1) s t ∧
        p.run maxPhases s = (.error (exhausted (max maxPhases 1)), t)) ∨
      ∃ n t r, n < max maxPhases 1 ∧ p.Restarts n s t ∧ p.ending t = some r ∧
        p.run maxPhases s = (r.map (⟨·, n + 1⟩), (p.phase t).2) := by
  have hspec := runFrom_spec (p := p) (Nat.le_refl (max maxPhases 1)) s
  simp only [Nat.sub_self, Nat.zero_add] at hspec
  exact hspec

/-- What a run hands over is the value of a phase that ended with nothing queued. -/
theorem run_ok {maxPhases : Nat} {o : PhaseOutcome α} (h : p.run maxPhases s = (.ok o, t)) :
    ∃ n last, o.phases = n + 1 ∧ p.Restarts n s last ∧ p.phase last = (.ok o.value, t) ∧
      p.pending t = 0 := by
  rcases p.run_spec maxPhases s with ⟨t, -, hrun⟩ | ⟨n, last, r, -, hlast, hr, hrun⟩
  all_goals rw [h] at hrun
  · cases hrun
  · rcases r with e | v
    · cases hrun
    · obtain ⟨hv, hp⟩ := ending_ok hr
      cases hrun
      exact ⟨n, last, rfl, hlast, Prod.ext hv rfl, hp⟩

theorem run_ne_signal (p : Phased σ α) (maxPhases : Nat) (s : σ) :
    (p.run maxPhases s).1 ≠ .error .quantumExceeded := by
  rcases p.run_spec maxPhases s with ⟨t, -, hrun⟩ | ⟨n, last, r, -, -, hr, hrun⟩
  all_goals rw [hrun]
  · rintro ⟨⟩
  · rcases r with e | v
    · intro heq
      cases heq
      exact ending_ne_signal hr
    · rintro ⟨⟩

end Phased

namespace Engine

variable {e : Engine} {q : PreparedQuery} {parameters : List (String × Value)} {facts : List Fact}
variable {C : List Member → Prop} {run last : Run} {n : Nat}

/-! ## The cells that a phase reads -/

/-- The phase reads these cells, in this order. -/
def PhaseReads (e : Engine) (q : PreparedQuery) (parameters : List (String × Value)) (run : Run)
    (κs : List (List Member)) : Prop :=
  EvalM.Reads ⟨e.cube, e.config, parameters⟩ (q.tree.evaluate q.address >>= EvalM.held)
    (.start e.cube run.store.reader run.execution run.store.calls) κs

theorem PhaseReads.reader {κs : List (List Member)} (h : e.PhaseReads q parameters run κs) :
    (e.phase q parameters run).2.store.reader = run.store.reader.asked κs :=
  EvalM.Reads.reader h

/-- Every phase reads cells, all of which are in question, and it ends with the signal to load cells
only if requests are queued. -/
structure Asks (e : Engine) (q : PreparedQuery) (parameters : List (String × Value))
    (C : List Member → Prop) : Prop where
  reads : ∀ run, ∃ κs, (∀ κ ∈ κs, C κ) ∧ e.PhaseReads q parameters run κs
  signal : ∀ run, (e.phase q parameters run).1 = .error .quantumExceeded →
    (e.phase q parameters run).2.store.reader.pendingCount ≠ 0

theorem asks_of_within {D : Domain} (hD : D.Closed e.cube)
    (henv : Environment.Within ⟨e.cube, e.config, parameters⟩ D) (hq : q.tree.Within D)
    (hC : ∀ (s : EvalState) (r : Row), C s.context → RowWithin D r → C (s.setRow r).context)
    (hstart : RowWithin D e.cube.defaultMembers) (hdefault : C e.cube.defaultMembers) :
    e.Asks q parameters C := by
  have htree : EvalM.Requesting ⟨e.cube, e.config, parameters⟩ D C (q.tree.evaluate q.address)
      (Value.Within D) := Calc.evaluate_requesting hD henv hC hq q.address
  have hphase := htree.bind (Q := Value.Within D) fun v hv => by
    have hheld : EvalM.Composed ⟨e.cube, e.config, parameters⟩ D False (fun _ => False)
        (EvalM.held v) (Value.Within D) := .held hv
    exact EvalM.Requesting.of_composed hC (fun _ h => h.elim) hheld
  have hwithin (run : Run) :
      (EvalState.start e.cube run.store.reader run.execution run.store.calls).Within D := by
    refine ⟨hstart, fun k v hk => ?_⟩
    simp [EvalState.start] at hk
  exact ⟨fun run => hphase.reads _ (hwithin run) hdefault,
    fun run => hphase.signal _ (hwithin run) hdefault⟩

theorem asks_cells (e : Engine) (q : PreparedQuery) (parameters : List (String × Value)) :
    e.Asks q parameters fun _ => True :=
  asks_of_within (Domain.everything_closed e.cube) (fun p _ => p.2.within_everything)
    q.tree.within_everything (fun _ _ _ _ => trivial) (fun _ _ => trivial) trivial

theorem asks_coordinates (hc : e.cube.Regular) (hq : q.tree.Within (Domain.ofCube e.cube))
    (hp : Environment.Within ⟨e.cube, e.config, parameters⟩ (Domain.ofCube e.cube)) :
    e.Asks q parameters e.cube.Coordinate := by
  have hdefault := Cube.coordinate_defaultMembers e.cube
  refine asks_of_within hc.closed hp hq (fun s r hs hr => ?_) hdefault.within hdefault
  exact EvalState.coordinate_setRow hc hs hr

/-! ## From phase to phase -/

section
variable (h : e.Asks q parameters C)
include h

theorem Asks.phase_batching (hr : run.store.reader.Batching C facts) :
    (e.phase q parameters run).2.store.reader.Batching C facts := by
  obtain ⟨κs, hκs, hreads⟩ := h.reads run
  rw [hreads.reader]
  exact hr.asked hκs

theorem Asks.restart_batching (hr : run.store.reader.Batching C facts) :
    ((e.phased q parameters).restart run).store.reader.Batching C facts :=
  (h.phase_batching hr).load

theorem Asks.pending (hend : (e.phased q parameters).ending run = none) :
    (e.phase q parameters run).2.store.reader.pendingCount ≠ 0 := by
  rcases Phased.signal_or_pending hend with hsignal | hp
  · exact h.signal run hsignal
  · exact hp

/-- A restart loads one batch, which makes a cell known that was not. -/
theorem Asks.restart_new (hr : run.store.reader.Batching C facts)
    (hend : (e.phased q parameters).ending run = none) :
    ((e.phased q parameters).restart run).store.reader.batches = run.store.reader.batches + 1 ∧
      ∃ κ, C κ ∧ ¬ run.store.reader.Knows κ ∧
        ((e.phased q parameters).restart run).store.reader.Knows κ := by
  have hphase := h.phase_batching hr
  have hpending := h.pending hend
  obtain ⟨κs, -, hreads⟩ := h.reads run
  rw [hreads.reader] at hphase hpending
  have hload : ((e.phased q parameters).restart run).store.reader =
      (run.store.reader.asked κs).load.2 := by
    rw [← hreads.reader]
    rfl
  obtain ⟨hbatches, κ, hκ, hunknown, hknown⟩ := hphase.load_new hpending
  rw [hload]
  rw [CellReader.batches_asked] at hbatches
  exact ⟨hbatches, κ, hκ, fun hknows => hunknown (CellReader.knows_asked_iff.2 hknows), hknown⟩

/-- As many batches are loaded as phases do not end the run. -/
theorem Asks.restarts_batches (hr : run.store.reader.Batching C facts)
    (hn : (e.phased q parameters).Restarts n run last) :
    last.store.reader.Batching C facts ∧
      last.store.reader.batches = run.store.reader.batches + n := by
  have hstep (k : Nat) (s : Run)
      (hs : s.store.reader.Batching C facts ∧
        s.store.reader.batches = run.store.reader.batches + k)
      (hend : (e.phased q parameters).ending s = none) :
      ((e.phased q parameters).restart s).store.reader.Batching C facts ∧
        ((e.phased q parameters).restart s).store.reader.batches =
          run.store.reader.batches + (k + 1) := by
    obtain ⟨hbatches, -⟩ := h.restart_new hs.1 hend
    exact ⟨h.restart_batching hs.1, by omega⟩
  have hlast := Phased.Restarts.inv hstep (k := 0) ⟨hr, rfl⟩ hn
  rwa [Nat.zero_add] at hlast

end

/-- Each phase that does not end the run leaves fewer coordinates of the cube unknown. -/
theorem Asks.restarts_unknown (h : e.Asks q parameters e.cube.Coordinate)
    (hr : run.store.reader.Batching e.cube.Coordinate facts)
    (hn : (e.phased q parameters).Restarts n run last) :
    (last.store.reader.unknown e.cube).ncard + n ≤ (run.store.reader.unknown e.cube).ncard := by
  have hstep (k : Nat) (s : Run)
      (hs : s.store.reader.Batching e.cube.Coordinate facts ∧
        (s.store.reader.unknown e.cube).ncard + k ≤ (run.store.reader.unknown e.cube).ncard)
      (hend : (e.phased q parameters).ending s = none) :
      ((e.phased q parameters).restart s).store.reader.Batching e.cube.Coordinate facts ∧
        (((e.phased q parameters).restart s).store.reader.unknown e.cube).ncard + (k + 1) ≤
          (run.store.reader.unknown e.cube).ncard := by
    refine ⟨h.restart_batching hs.1, ?_⟩
    have hless : (((e.phased q parameters).restart s).store.reader.unknown e.cube).ncard <
        ((e.phase q parameters s).2.store.reader.unknown e.cube).ncard :=
      (h.phase_batching hs.1).ncard_unknown_load (h.pending hend)
    obtain ⟨κs, -, hreads⟩ := h.reads s
    rw [hreads.reader, CellReader.unknown_asked] at hless
    omega
  have hlast := Phased.Restarts.inv hstep (k := 0) ⟨hr, Nat.le_refl _⟩ hn
  rw [Nat.zero_add] at hlast
  exact hlast.2

/-- Phases over one layer above the facts, whatever it has loaded or queued. A phase that does not end
the run is followed by the load of one batch that adds a cell. A run that succeeds has loaded a batch
after each phase but the last, in which all cells that it reads are answered; none hands over the
signal to load cells. A query over the cube is ended by one of its phases if more of them are allowed
than the cube has coordinates. -/
theorem phases_progress (e : Engine) (q : PreparedQuery) (parameters : List (String × Value))
    (facts : List Fact) (calls : List ReaderCall) (run : Run)
    (hrun : run.store.reader = (CellReader.memory facts).batched.after calls) :
    let p := e.phased q parameters
    (∀ n s, p.Restarts n run s → p.ending s = none →
        (p.restart s).store.reader.batches = s.store.reader.batches + 1 ∧
          ∃ κ, ¬ s.store.reader.Knows κ ∧ (p.restart s).store.reader.Knows κ) ∧
      (∀ maxPhases o t, p.run maxPhases run = (.ok o, t) →
        ∃ n last, o.phases = n + 1 ∧ t.store.reader.batches = run.store.reader.batches + n ∧
          p.Restarts n run last ∧ p.phase last = (.ok o.value, t) ∧
          (∃ κs, e.PhaseReads q parameters last κs) ∧
          ∀ κs, e.PhaseReads q parameters last κs → last.store.reader.AnswersAll κs) ∧
      (∀ maxPhases, (p.run maxPhases run).1 ≠ .error .quantumExceeded) ∧
      (∀ number expr declared, e.cube.Built → e.prepare number expr declared = .ok q →
        expr.Within (Domain.ofCube e.cube) →
        Environment.Within ⟨e.cube, e.config, parameters⟩ (Domain.ofCube e.cube) →
        (∀ call ∈ calls, call.Over e.cube.Coordinate) →
        ∀ maxPhases, {κ | e.cube.Coordinate κ}.ncard < maxPhases →
          ∃ n last r, n < maxPhases ∧ p.Restarts n run last ∧ p.ending last = some r ∧
            p.run maxPhases run = (r.map (⟨·, n + 1⟩), (p.phase last).2)) := by
  intro p
  have hasks := e.asks_cells q parameters
  have hreader : run.store.reader.Batching (fun _ => True) facts := by
    rw [hrun]
    refine CellReader.after_inv CellReader.Batching.visit (.batched _ facts) fun call _ => ?_
    cases call <;> trivial
  refine ⟨fun n s hs hend => ?_, fun maxPhases o t hok => ?_, fun maxPhases => p.run_ne_signal maxPhases run, ?_⟩
  · obtain ⟨hlayer, -⟩ := hasks.restarts_batches hreader hs
    obtain ⟨hbatches, κ, -, hunknown, hknown⟩ := hasks.restart_new hlayer hend
    exact ⟨hbatches, κ, hunknown, hknown⟩
  · obtain ⟨n, last, hphases, hlast, hphase, hsettled⟩ := Phased.run_ok hok
    obtain ⟨-, hbatches⟩ := hasks.restarts_batches hreader hlast
    have hleft : (e.phase q parameters last).2 = t := congrArg Prod.snd hphase
    obtain ⟨κs, -, hreads⟩ := hasks.reads last
    refine ⟨n, last, hphases, ?_, hlast, hphase, ⟨κs, hreads⟩, fun μs hμs => ?_⟩
    · rw [← hleft, hreads.reader, CellReader.batches_asked, hbatches]
    · have hzero : t.store.reader.pendingCount = 0 := hsettled
      rw [← hleft, hμs.reader] at hzero
      exact CellReader.answersAll_of_settled hzero
  · intro number expr declared hc hq hw hp hcalls maxPhases hmax
    have hcoordinates := asks_coordinates hc.regular (prepare_within hq hw) hp
    have hlayer : run.store.reader.Batching e.cube.Coordinate facts := by
      rw [hrun]
      exact CellReader.after_inv CellReader.Batching.visit (.batched _ facts) hcalls
    have hlimit : max maxPhases 1 = maxPhases := by omega
    rcases p.run_spec maxPhases run with ⟨t, ht, -⟩ | hended
    · have hunknown := hcoordinates.restarts_unknown hlayer ht
      have hle := run.store.reader.ncard_unknown_le e.cube
      omega
    · rw [hlimit] at hended
      exact hended

end Engine

/-- One coordinate of the two is queued when the query starts; three phases are enough. -/
theorem Sample.phases_progress_queued :
    let calls : List ReaderCall := [.get [cost]]
    let run : Engine.Run := ⟨⟨(CellReader.memory facts).batched.after calls, ∅⟩, {}, {}⟩
    let p := engine.phased query []
    (p.run 3 run).1 ≠ .error .quantumExceeded ∧
      ∃ n last r, n < 3 ∧ p.Restarts n run last ∧ p.ending last = some r ∧
        p.run 3 run = (r.map (⟨·, n + 1⟩), (p.phase last).2) := by
  intro calls run p
  obtain ⟨-, -, hsignal, hends⟩ :=
    Engine.phases_progress engine query [] facts calls run rfl
  have hparameters : Environment.Within ⟨cube, engine.config, []⟩ (Domain.ofCube cube) := by
    rintro v ⟨⟩
  have hcost : cube.Coordinate [cost] := coordinate_singleton (k := 1) (by decide)
  have hcalls : ∀ call ∈ calls, call.Over cube.Coordinate := by
    rintro call hcall
    cases List.mem_singleton.1 hcall
    exact hcost
  have hcount : {κ | cube.Coordinate κ}.ncard < 3 := by
    have hle := cube.ncard_coordinates_le
    have hlength : cube.coordinates.length = 2 := by decide
    omega
  exact ⟨hsignal 3, hends 0 overflowing [] cube_built prepare_overflowing overflowing_within
    hparameters hcalls 3 hcount⟩

end Olap
