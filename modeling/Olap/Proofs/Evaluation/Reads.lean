import Olap.Proofs.Cell.Queue

/-!
# Which cells an evaluation reads

`EvalM.Reads env x s κs`: the action `x`, which starts in the state `s`, requests the cells `κs` from
the reader, in this order. A request stands wherever the current cell is looked at; what is composed of
several actions makes the requests of those that are run. The reader that is left behind is the one
that was asked for just these cells (`EvalM.Reads.reader`). Every evaluation reads some cells, all of
them in question if its context stays so, and it ends with the signal to load cells only if requests
are queued (`Calc.evaluate_requesting`).
-/

set_option autoImplicit false

namespace Olap

/-- The execution is stopped for reasons of its own. -/
theorem Execution.checkRound_ne_quantumExceeded (x : Execution) (interval : Nat) (round : Int) :
    (x.checkRound interval round).1 ≠ .error .quantumExceeded := by
  unfold checkRound check stopped?
  split
  · split
    · rename_i h
      split at h
      · cases h
        rintro ⟨⟩
      · split at h
        · split at h <;> cases h
          rintro ⟨⟩
        · cases h
    · rintro ⟨⟩
  · rintro ⟨⟩

namespace EvalM

variable {env : Environment} {D : Domain} {C : List Member → Prop} {α β : Type}

/-- The action does the same whatever the reader is, and nothing to the reader. -/
def Silent (env : Environment) (x : EvalM α) : Prop :=
  ∀ (s : EvalState) (r : CellReader),
    x.exec env { s with reader := r } = ((x.exec env s).1, { (x.exec env s).2 with reader := r })

/-- The cells that an action requests (module doc). -/
inductive Reads (env : Environment) : {α : Type} → EvalM α → EvalState → List (List Member) → Prop
  | silent {α : Type} {x : EvalM α} {s : EvalState} (h : Silent env x) : Reads env x s []
  | currentCell {s : EvalState} : Reads env currentCell s [s.context]
  | bind {α β : Type} {x : EvalM α} {f : α → EvalM β} {s t : EvalState} {a : α}
      {κs μs : List (List Member)} (h : x.exec env s = (.ok a, t)) (hx : Reads env x s κs)
      (hf : Reads env (f a) t μs) : Reads env (x >>= f) s (κs ++ μs)
  | fail {α β : Type} {x : EvalM α} {f : α → EvalM β} {s t : EvalState} {e : CalcError}
      {κs : List (List Member)} (h : x.exec env s = (.error e, t)) (hx : Reads env x s κs) :
      Reads env (x >>= f) s κs
  | nonEmpty {α : Type} {f : Bool → EvalM α} {s : EvalState} {κs : List (List Member)}
      (hf : Reads env (f s.nonEmpty) s κs) : Reads env (get >>= fun s => f s.nonEmpty) s κs
  | withRow {α : Type} {r : Row} {x : EvalM α} {s : EvalState} {κs : List (List Member)}
      (hx : Reads env x (s.setRow r) κs) : Reads env (withRow r x) s κs
  | nested {α : Type} {a : Address} {x : EvalM α} {s : EvalState} {κs : List (List Member)}
      (h : s.depth < env.config.maxEvalDepth) (hx : Reads env x (entered s) κs) :
      Reads env (calculation a x) s κs
  | tooDeep {α : Type} {a : Address} {x : EvalM α} {s : EvalState}
      (h : env.config.maxEvalDepth ≤ s.depth) : Reads env (calculation a x) s []
  | evaluated {a : Address} {os : List Nat} {x : EvalM Value} {s : EvalState}
      {κs : List (List Member)} (h : s.cache[cacheKey a os s]? = none) (hx : Reads env x s κs) :
      Reads env (cached a os x) s κs
  | kept {a : Address} {os : List Nat} {x : EvalM Value} {s : EvalState} {v : Value}
      (h : s.cache[cacheKey a os s]? = some v) : Reads env (cached a os x) s []

theorem Silent.reader {x : EvalM α} (h : Silent env x) (s : EvalState) :
    (x.exec env s).2.reader = s.reader := by
  have hs : x.exec env s = ((x.exec env s).1, { (x.exec env s).2 with reader := s.reader }) :=
    h s s.reader
  rw [hs]

/-- The reader that is left behind has been asked for the cells that the action reads. -/
theorem Reads.reader {x : EvalM α} {s : EvalState} {κs : List (List Member)}
    (h : Reads env x s κs) : (x.exec env s).2.reader = s.reader.asked κs := by
  induction h with
  | silent h => exact h.reader _
  | @currentCell s =>
    show _ = (s.reader.get s.context).2
    rcases hget : s.reader.get s.context with ⟨v | _, r⟩
    · rw [exec_currentCell_ready hget]
    · rw [exec_currentCell_pending hget]
  | bind h _ _ ihx ihf =>
    rw [h] at ihx
    rw [exec_bind_ok h, ihf, ihx, CellReader.asked_append]
  | fail h _ ih =>
    rw [h] at ih
    rw [exec_bind_error h, ih]
  | nonEmpty _ ih =>
    rw [exec_bind_ok exec_get]
    exact ih
  | withRow _ ih =>
    rw [exec_withRow, EvalState.reader_restore, ih, EvalState.reader_setRow]
  | nested h _ ih =>
    rw [exec_calculation _ _ h]
    exact ih
  | tooDeep h =>
    rw [exec_calculation_limited _ _ h]
    rfl
  | evaluated h _ ih =>
    rename_i x s κs _
    rcases hexec : x.exec env s with ⟨e | v, t⟩
    · rw [hexec] at ih
      rw [exec_cached_error h hexec, ih]
    · rw [hexec] at ih
      rw [exec_cached_ok h hexec]
      exact ih
  | kept h =>
    rw [exec_cached_hit h]
    rfl

theorem Silent.poll (round : Nat) : Silent env (poll round) := fun s r => by
  rw [exec_poll, exec_poll]

theorem Silent.currentMember (h : Hierarchy) : Silent env (currentMember h) := by
  intro s r
  unfold EvalM.currentMember
  rw [exec_bind_ok exec_get, exec_bind_ok exec_get]
  dsimp only
  split <;> rfl

/-! ## Actions that read -/

/-- From states with contexts in question the action reads cells in question, and it ends with the
signal to load cells only with requests queued. -/
structure Requesting (env : Environment) (D : Domain) (C : List Member → Prop) (x : EvalM α)
    (Q : α → Prop) : Prop where
  keeps : Keeps env D x Q
  reads : ∀ s : EvalState, s.Within D → C s.context → ∃ κs, (∀ κ ∈ κs, C κ) ∧ Reads env x s κs
  signal : ∀ s : EvalState, s.Within D → C s.context →
    (x.exec env s).1 = .error .quantumExceeded → (x.exec env s).2.reader.pendingCount ≠ 0

namespace Requesting

theorem silent {x : EvalM α} {Q : α → Prop} (hk : Keeps env D x Q) (hx : Silent env x)
    (hsignal : ∀ s, (x.exec env s).1 ≠ .error .quantumExceeded) : Requesting env D C x Q :=
  ⟨hk, fun _ _ _ => ⟨[], List.forall_mem_nil _, .silent hx⟩, fun s _ _ h => absurd h (hsignal s)⟩

theorem mono {x : EvalM α} {P Q : α → Prop} (hx : Requesting env D C x P) (h : ∀ a, P a → Q a) :
    Requesting env D C x Q :=
  ⟨hx.keeps.mono h, hx.reads, hx.signal⟩

theorem bind {x : EvalM α} {f : α → EvalM β} {P : α → Prop} {Q : β → Prop}
    (hx : Requesting env D C x P) (hf : ∀ a, P a → Requesting env D C (f a) Q) :
    Requesting env D C (x >>= f) Q := by
  refine ⟨hx.keeps.bind fun a ha => (hf a ha).keeps, fun s hs hC => ?_, fun s hs hC => ?_⟩
  all_goals
    obtain ⟨hframe, hw, hr⟩ := hx.keeps s hs
    rcases h : x.exec env s with ⟨e | a, t⟩
  · obtain ⟨κs, hκs, hreads⟩ := hx.reads s hs hC
    exact ⟨κs, hκs, .fail h hreads⟩
  · rw [h] at hframe hw hr
    obtain ⟨κs, hκs, hreads⟩ := hx.reads s hs hC
    obtain ⟨μs, hμs, hrest⟩ := (hf a (hr a rfl)).reads t hw (hframe.context ▸ hC)
    exact ⟨κs ++ μs, List.forall_mem_append.2 ⟨hκs, hμs⟩, .bind h hreads hrest⟩
  · have hsignal := hx.signal s hs hC
    rw [h] at hsignal
    rw [exec_bind_error h]
    rintro ⟨⟩
    exact hsignal rfl
  · rw [h] at hframe hw hr
    rw [exec_bind_ok h]
    exact (hf a (hr a rfl)).signal t hw (hframe.context ▸ hC)

theorem nonEmpty {f : Bool → EvalM α} {Q : α → Prop} (hf : ∀ b, Requesting env D C (f b) Q) :
    Requesting env D C (get >>= fun s => f s.nonEmpty) Q := by
  refine ⟨fun s hs => ?_, fun s hs hC => ?_, fun s hs hC => ?_⟩
  · rw [exec_bind_ok exec_get]
    exact (hf s.nonEmpty).keeps s hs
  · obtain ⟨κs, hκs, hreads⟩ := (hf s.nonEmpty).reads s hs hC
    exact ⟨κs, hκs, .nonEmpty hreads⟩
  · rw [exec_bind_ok exec_get]
    exact (hf s.nonEmpty).signal s hs hC

theorem poll (round : Nat) : Requesting env D C (EvalM.poll round) fun _ => True := by
  refine silent (.poll round) (.poll round) fun s => ?_
  rw [exec_poll]
  exact s.execution.checkRound_ne_quantumExceeded _ _

theorem currentMember (h : Hierarchy) :
    Requesting env D C (EvalM.currentMember h) D.member := by
  refine silent (.currentMember h) (.currentMember h) fun s => ?_
  rw [EvalM.currentMember, exec_bind_ok exec_get]
  split <;> rintro ⟨⟩

theorem currentCell : Requesting env D C EvalM.currentCell (Value.Within D) := by
  refine ⟨.currentCell, fun s _ hC => ?_, fun s _ _ hsignal => ?_⟩
  · exact ⟨[s.context], List.forall_mem_singleton.2 hC, .currentCell⟩
  · rcases hget : s.reader.get s.context with ⟨v | _, r⟩
    · rw [exec_currentCell_ready hget] at hsignal
      cases hsignal
    · have hpending : (s.reader.get s.context).1 = .pending := by rw [hget]
      have hne := CellReader.pendingCount_of_pending hpending
      rw [hget] at hne
      rw [exec_currentCell_pending hget]
      exact hne

theorem withRow
    (hC : ∀ (s : EvalState) (r : Row), C s.context → RowWithin D r → C (s.setRow r).context)
    {r : Row} (hr : RowWithin D r) {x : EvalM α} {Q : α → Prop} (hx : Requesting env D C x Q) :
    Requesting env D C (EvalM.withRow r x) Q := by
  refine ⟨hx.keeps.withRow hr, fun s hs hs' => ?_, fun s hs hs' => ?_⟩
  · obtain ⟨κs, hκs, hreads⟩ := hx.reads (s.setRow r) (hs.setRow hr) (hC s r hs' hr)
    exact ⟨κs, hκs, .withRow hreads⟩
  · rw [exec_withRow, EvalState.reader_restore]
    exact hx.signal (s.setRow r) (hs.setRow hr) (hC s r hs' hr)

theorem calculation (a : Address) {x : EvalM α} {Q : α → Prop} (hx : Requesting env D C x Q) :
    Requesting env D C (EvalM.calculation a x) Q := by
  refine ⟨hx.keeps.calculation a, fun s hs hC => ?_, fun s hs hC => ?_⟩
  all_goals
    have hentered : (entered s).Within D := ⟨hs.context, hs.cache⟩
    rcases Nat.lt_or_ge s.depth env.config.maxEvalDepth with hd | hd
  · obtain ⟨κs, hκs, hreads⟩ := hx.reads (entered s) hentered hC
    exact ⟨κs, hκs, .nested hd hreads⟩
  · exact ⟨[], List.forall_mem_nil _, .tooDeep hd⟩
  · rw [exec_calculation a x hd]
    exact hx.signal (entered s) hentered hC
  · rw [exec_calculation_limited a x hd]
    rintro ⟨⟩

theorem cached (a : Address) (os : List Nat) {x : EvalM Value}
    (hx : Requesting env D C x (Value.Within D)) :
    Requesting env D C (EvalM.cached a os x) (Value.Within D) := by
  refine ⟨hx.keeps.cached a os, fun s hs hC => ?_, fun s hs hC => ?_⟩
  all_goals rcases hk : s.cache[cacheKey a os s]? with _ | v
  · obtain ⟨κs, hκs, hreads⟩ := hx.reads s hs hC
    exact ⟨κs, hκs, .evaluated hk hreads⟩
  · exact ⟨[], List.forall_mem_nil _, .kept hk⟩
  · have hsignal := hx.signal s hs hC
    rcases hexec : x.exec env s with ⟨e | v, t⟩
    · rw [hexec] at hsignal
      rw [exec_cached_error hk hexec]
      exact hsignal
    · rw [exec_cached_ok hk hexec]
      rintro ⟨⟩
  · rw [exec_cached_hit hk]
    rintro ⟨⟩

theorem of_composed
    (hC : ∀ (s : EvalState) (r : Row), C s.context → RowWithin D r → C (s.setRow r).context)
    {contextual : Prop} {given : EvalM Value → Prop}
    (hgiven : ∀ y, given y → Requesting env D C y (Value.Within D)) {x : EvalM α} {Q : α → Prop}
    (hx : Composed env D contextual given x Q) : Requesting env D C x Q := by
  induction hx with
  | given h => exact hgiven _ h
  | pure h =>
    exact silent (fun s hs => .of_same hs (by rintro _ ⟨⟩; exact h)) (fun _ _ => rfl) (by rintro _ ⟨⟩)
  | throw h =>
    exact silent (fun s hs => .of_same hs (by rintro _ ⟨⟩)) (fun _ _ => rfl)
      (by rintro _ ⟨⟩; cases h)
  | bind _ _ ihx ihf => exact ihx.bind ihf
  | mono _ h ih => exact ih.mono h
  | read =>
    exact silent (fun s hs => .of_same hs (by rintro _ ⟨⟩; rfl)) (fun _ _ => rfl) (by rintro _ ⟨⟩)
  | poll round => exact poll round
  | nonEmpty _ _ ih => exact nonEmpty ih
  | currentMember _ _ => exact currentMember _
  | currentCell _ => exact currentCell
  | withRow _ hr _ ih => exact ih.withRow hC hr

end Requesting

end EvalM

/-- Every evaluation reads cells at contexts, and ends with the signal to load cells only if requests
are queued. -/
theorem Calc.evaluate_requesting {env : Environment} {D : Domain} {C : List Member → Prop}
    (hD : D.Closed env.cube) (henv : env.Within D)
    (hC : ∀ (s : EvalState) (r : Row), C s.context → RowWithin D r → C (s.setRow r).context)
    {c : Calc} (hw : c.Within D) (a : Address) :
    EvalM.Requesting env D C (c.evaluate a) (Value.Within D) :=
  evaluate_of_closed hD henv (fun _ => EvalM.Requesting.of_composed hC fun _ h => h)
    (fun a os _ => EvalM.Requesting.cached a os) (fun a _ => EvalM.Requesting.calculation a) hw a

end Olap
