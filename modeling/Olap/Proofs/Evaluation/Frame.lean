import Olap.Proofs.Evaluation.Operations

/-!
# What an evaluation leaves as it was

`EvalState.Frame s t`: the state `t` has the current members, the flag, the undo stack and the depth
of `s`; beyond kept results under the flag of `s`, counts and queued requests nothing has changed.
Every evaluation leaves a state in the frame of the one that it started in, whether it succeeds or
fails (`Calc.evaluate_frame`).
-/

set_option autoImplicit false

namespace Olap

/-- The reader after further requests have been queued. -/
def CellReader.queueing (r : CellReader) (more : List (List Member)) : CellReader :=
  match r with
  | memory facts => memory facts
  | batching inner loaded queue batches => batching inner loaded (queue ++ more) batches

namespace CellReader

@[simp] theorem queueing_nil (r : CellReader) : r.queueing [] = r := by
  cases r <;> simp [queueing]

@[simp] theorem queueing_queueing (r : CellReader) (more further : List (List Member)) :
    (r.queueing more).queueing further = r.queueing (more ++ further) := by
  cases r <;> simp [queueing]

/-- A request changes nothing but the queue, which it appears in at most. -/
theorem get_queueing (r : CellReader) (coordinate : List Member) :
    (r.get coordinate).2 = r ∨ (r.get coordinate).2 = r.queueing [coordinate] := by
  cases r with
  | memory facts => exact .inl rfl
  | batching inner loaded queue batches =>
    rw [get]
    split
    · exact .inl rfl
    · by_cases h : queue.any (cellKey · == cellKey coordinate)
      · exact .inl (by simp [h])
      · exact .inr (by simp [h, queueing])

end CellReader

namespace EvalState

/-! ## Going back to a mark -/

/-- The state `u` with the current members, the flag and the undo stack of `v`. -/
def withFocus (u v : EvalState) : EvalState :=
  { u with context := v.context, nonEmpty := v.nonEmpty, undo := v.undo }

theorem undoOne_withFocus (u v : EvalState) : (u.withFocus v).undoOne = u.withFocus v.undoOne := by
  rcases v with ⟨context, nonEmpty, _ | ⟨_ | _, undo⟩, depth, reader, execution, cache, calls⟩ <;> rfl

theorem undoMany_withFocus (n : Nat) (u v : EvalState) :
    undoMany n (u.withFocus v) = u.withFocus (undoMany n v) := by
  induction n generalizing v with
  | zero => rfl
  | succ n ih => rw [undoMany, undoOne_withFocus, ih, undoMany]

theorem restore_withFocus (u v : EvalState) (mark : Nat) :
    (u.withFocus v).restore mark = u.withFocus (v.restore mark) :=
  undoMany_withFocus _ u v

theorem undoMany_succ (n : Nat) (s : EvalState) : undoMany (n + 1) s = (undoMany n s).undoOne := by
  induction n generalizing s with
  | zero => rfl
  | succ n ih => rw [undoMany, ih, undoMany]

theorem setMember_of_length_le {s : EvalState} {m : Member}
    (h : s.context.length ≤ m.hierarchyOrdinal) : s.setMember m = s := by
  simp [setMember, List.getElem?_eq_none h]

theorem mark_setMember {s : EvalState} {m : Member} (h : m.hierarchyOrdinal < s.context.length) :
    (s.setMember m).mark = s.mark + 1 := by
  simp [setMember, mark, List.getElem?_eq_getElem h]

theorem mark_le_mark_setRow (s : EvalState) (r : Row) : s.mark ≤ (s.setRow r).mark := by
  induction r generalizing s with
  | nil => exact Nat.le_refl _
  | cons m r ih =>
    refine Nat.le_trans ?_ (ih (s.setMember m))
    rcases Nat.lt_or_ge m.hierarchyOrdinal s.context.length with h | h
    · rw [mark_setMember h]
      omega
    · exact Nat.le_of_eq (by rw [setMember_of_length_le h])

/-- Making a tuple current and going back changes nothing. -/
theorem restore_setRow (s : EvalState) (r : Row) : (s.setRow r).restore s.mark = s := by
  induction r generalizing s with
  | nil => exact restore_mark s
  | cons m r ih =>
    have ih := ih (s.setMember m)
    show ((s.setMember m).setRow r).restore s.mark = s
    rcases Nat.lt_or_ge m.hierarchyOrdinal s.context.length with h | h
    · have hle := mark_le_mark_setRow (s.setMember m) r
      rw [mark_setMember h] at hle
      rw [restore, mark_setMember h] at ih
      -- one change more is taken back than down to the mark behind `m`
      have hcount : ((s.setMember m).setRow r).undo.length - s.mark =
          ((s.setMember m).setRow r).undo.length - (s.mark + 1) + 1 := by
        have : ((s.setMember m).setRow r).mark = ((s.setMember m).setRow r).undo.length := rfl
        omega
      rw [restore, hcount, undoMany_succ, ih, undoOne_setMember s m h]
    · rw [setMember_of_length_le h] at ih ⊢
      exact ih

/-! ## What changes of the context leave alone -/

theorem undoMany_eq_withFocus (n : Nat) (s : EvalState) : ∃ v, undoMany n s = s.withFocus v := by
  refine ⟨undoMany n s, ?_⟩
  rw [← undoMany_withFocus]
  rfl

section
variable (s : EvalState) (mark : Nat)

theorem restore_rest :
    (s.restore mark).depth = s.depth ∧ (s.restore mark).reader = s.reader ∧
      (s.restore mark).execution = s.execution ∧ (s.restore mark).cache = s.cache ∧
      (s.restore mark).calls = s.calls := by
  obtain ⟨v, hv⟩ := undoMany_eq_withFocus (s.undo.length - mark) s
  rw [restore, hv]
  exact ⟨rfl, rfl, rfl, rfl, rfl⟩

@[simp] theorem reader_restore : (s.restore mark).reader = s.reader := (s.restore_rest mark).2.1

@[simp] theorem cache_restore : (s.restore mark).cache = s.cache := (s.restore_rest mark).2.2.2.1

end

section
variable (s : EvalState) (m : Member) (r : Row)

theorem setMember_rest :
    (s.setMember m).nonEmpty = s.nonEmpty ∧ (s.setMember m).depth = s.depth ∧
      (s.setMember m).reader = s.reader ∧ (s.setMember m).execution = s.execution ∧
      (s.setMember m).cache = s.cache ∧ (s.setMember m).calls = s.calls := by
  unfold setMember
  split <;> exact ⟨rfl, rfl, rfl, rfl, rfl, rfl⟩

theorem setRow_rest :
    (s.setRow r).nonEmpty = s.nonEmpty ∧ (s.setRow r).depth = s.depth ∧
      (s.setRow r).reader = s.reader ∧ (s.setRow r).execution = s.execution ∧
      (s.setRow r).cache = s.cache ∧ (s.setRow r).calls = s.calls := by
  induction r generalizing s with
  | nil => exact ⟨rfl, rfl, rfl, rfl, rfl, rfl⟩
  | cons m r ih =>
    obtain ⟨h1, h2, h3, h4, h5, h6⟩ := ih (s.setMember m)
    obtain ⟨g1, g2, g3, g4, g5, g6⟩ := s.setMember_rest m
    exact ⟨h1.trans g1, h2.trans g2, h3.trans g3, h4.trans g4, h5.trans g5, h6.trans g6⟩

@[simp] theorem nonEmpty_setRow : (s.setRow r).nonEmpty = s.nonEmpty := (s.setRow_rest r).1

@[simp] theorem depth_setRow : (s.setRow r).depth = s.depth := (s.setRow_rest r).2.1

@[simp] theorem reader_setRow : (s.setRow r).reader = s.reader := (s.setRow_rest r).2.2.1

@[simp] theorem execution_setRow : (s.setRow r).execution = s.execution :=
  (s.setRow_rest r).2.2.2.1

@[simp] theorem cache_setRow : (s.setRow r).cache = s.cache := (s.setRow_rest r).2.2.2.2.1

end

/-! ## Frames -/

/-- What an evaluation that starts in `s` leaves as it was in `t` (module doc). -/
structure Frame (s t : EvalState) : Prop where
  context : t.context = s.context
  nonEmpty : t.nonEmpty = s.nonEmpty
  undo : t.undo = s.undo
  depth : t.depth = s.depth
  /-- Only the number of times that the execution was asked has changed. -/
  execution : ∃ checks, t.execution = { s.execution with checks }
  /-- Only requests have been queued. -/
  reader : ∃ more, t.reader = s.reader.queueing more
  /-- Results are kept under the flag of the state only. -/
  cache : ∀ k : CacheKey, k.2.1 ≠ s.nonEmpty → t.cache[k]? = s.cache[k]?

namespace Frame

variable {s t u : EvalState}

theorem refl (s : EvalState) : Frame s s :=
  ⟨rfl, rfl, rfl, rfl, ⟨_, rfl⟩, ⟨[], by simp⟩, fun _ _ => rfl⟩

theorem trans (h : Frame s t) (h' : Frame t u) : Frame s u where
  context := h'.context.trans h.context
  nonEmpty := h'.nonEmpty.trans h.nonEmpty
  undo := h'.undo.trans h.undo
  depth := h'.depth.trans h.depth
  execution := by
    obtain ⟨i, hi⟩ := h.execution
    obtain ⟨j, hj⟩ := h'.execution
    exact ⟨j, by rw [hj, hi]⟩
  reader := by
    obtain ⟨p, hp⟩ := h.reader
    obtain ⟨q, hq⟩ := h'.reader
    exact ⟨p ++ q, by rw [hq, hp, CellReader.queueing_queueing]⟩
  cache := fun k hk => (h'.cache k (by rwa [h.nonEmpty])).trans (h.cache k hk)

/-- Going back from a frame of a state with a tuple made current leads to a frame of the state. -/
theorem restore {r : Row} (h : Frame (s.setRow r) u) : Frame s (u.restore s.mark) := by
  have hu : u = u.withFocus (s.setRow r) := by
    rw [withFocus, ← h.context, ← h.nonEmpty, ← h.undo]
  rw [hu, restore_withFocus, restore_setRow]
  obtain ⟨i, hi⟩ := h.execution
  obtain ⟨p, hp⟩ := h.reader
  refine ⟨rfl, rfl, rfl, h.depth.trans (by simp), ⟨i, ?_⟩, ⟨p, ?_⟩, fun k hk => ?_⟩
  · exact hi.trans (by simp)
  · exact hp.trans (by simp)
  · exact (h.cache k (by simpa using hk)).trans (by simp)

end Frame

/-! ## Values within a domain -/

structure Within (D : Domain) (s : EvalState) : Prop where
  context : RowWithin D s.context
  cache : ∀ (k : CacheKey) (v : Value), s.cache[k]? = some v → v.Within D

theorem Within.setMember {D : Domain} {s : EvalState} (hs : s.Within D) {m : Member}
    (hm : D.member m) : (s.setMember m).Within D := by
  refine ⟨fun n hn => ?_, by rw [(s.setMember_rest m).2.2.2.2.1]; exact hs.cache⟩
  unfold EvalState.setMember at hn
  split at hn
  · rcases List.mem_or_eq_of_mem_set hn with hn | rfl
    · exact hs.context n hn
    · exact hm
  · exact hs.context n hn

theorem Within.setRow {D : Domain} {s : EvalState} (hs : s.Within D) {r : Row}
    (hr : RowWithin D r) : (s.setRow r).Within D := by
  induction r generalizing s with
  | nil => exact hs
  | cons m r ih =>
    refine ih (hs.setMember (hr m List.mem_cons_self)) fun n hn => ?_
    exact hr n (List.mem_cons_of_mem m hn)

/-- How an action ends that starts in `s` and is after a result with `Q`. -/
structure Ends {α : Type} (D : Domain) (Q : α → Prop) (s : EvalState)
    (outcome : Except CalcError α × EvalState) : Prop where
  frame : Frame s outcome.2
  within : outcome.2.Within D
  result : ∀ a, outcome.1 = .ok a → Q a

theorem Ends.of_same {α : Type} {D : Domain} {Q : α → Prop} {s : EvalState} (hs : s.Within D)
    {r : Except CalcError α} (hr : ∀ a, r = .ok a → Q a) : Ends D Q s (r, s) :=
  ⟨.refl s, hs, hr⟩

end EvalState

namespace EvalM

variable {env : Environment} {D : Domain} {α β : Type}

/-! ## How actions end -/

section
variable {s : EvalState} {P Q : α → Prop}

theorem ends_bind {x : EvalM α} {f : α → EvalM β} {Q : β → Prop}
    (hx : s.Ends D P (x.exec env s))
    (hf : ∀ a t, x.exec env s = (.ok a, t) → t.Ends D Q ((f a).exec env t)) :
    s.Ends D Q ((x >>= f).exec env s) := by
  obtain ⟨hframe, hw, -⟩ := hx
  rcases h : x.exec env s with ⟨e | a, t⟩
  · rw [h] at hframe hw
    rw [exec_bind_error h]
    exact ⟨hframe, hw, by rintro b ⟨⟩⟩
  · rw [h] at hframe
    rw [exec_bind_ok h]
    obtain ⟨hframe', hw', hr'⟩ := hf a t h
    exact ⟨hframe.trans hframe', hw', hr'⟩

theorem ends_withRow {r : Row} {x : EvalM α} (hs : s.Within D)
    (hx : (s.setRow r).Ends D Q (x.exec env (s.setRow r))) :
    s.Ends D Q ((EvalM.withRow r x).exec env s) := by
  obtain ⟨hframe, hw, hres⟩ := hx
  rw [exec_withRow]
  refine ⟨hframe.restore, ⟨?_, ?_⟩, hres⟩
  · rw [hframe.restore.context]
    exact hs.context
  · rw [EvalState.cache_restore]
    exact hw.cache

theorem ends_calculation (a : Address) {x : EvalM α} (hs : s.Within D)
    (hx : (entered s).Ends D Q (x.exec env (entered s))) :
    s.Ends D Q ((EvalM.calculation a x).exec env s) := by
  obtain ⟨hf, hw, hr⟩ := hx
  rcases Nat.lt_or_ge s.depth env.config.maxEvalDepth with h | h
  · rw [exec_calculation a x h]
    refine ⟨⟨hf.context, hf.nonEmpty, hf.undo, ?_, hf.execution, hf.reader, hf.cache⟩,
      ⟨hw.context, hw.cache⟩, hr⟩
    show (x.exec env (entered s)).2.depth - 1 = s.depth
    rw [hf.depth]
    rfl
  · rw [exec_calculation_limited a x h]
    exact .of_same hs (by rintro _ ⟨⟩)

theorem ends_cached (a : Address) (os : List Nat) {x : EvalM Value} (hs : s.Within D)
    (hx : s.Ends D (Value.Within D) (x.exec env s)) :
    s.Ends D (Value.Within D) ((EvalM.cached a os x).exec env s) := by
  obtain ⟨hf, hw, hr⟩ := hx
  rcases hk : s.cache[cacheKey a os s]? with _ | v
  · rcases h : x.exec env s with ⟨e | v, t⟩
    · rw [h] at hf hw hr
      rw [exec_cached_error hk h]
      exact ⟨hf, hw, hr⟩
    · rw [h] at hf hw hr
      rw [exec_cached_ok hk h]
      refine ⟨⟨hf.context, hf.nonEmpty, hf.undo, hf.depth, hf.execution, hf.reader, fun k hne => ?_⟩,
        ⟨hw.context, fun k w hkw => ?_⟩, hr⟩
      · have hk : cacheKey a os s ≠ k := fun heq => hne (heq ▸ rfl)
        rw [getElem?_keeping, if_neg hk]
        exact hf.cache k hne
      · rw [getElem?_keeping] at hkw
        split at hkw
        · cases hkw
          exact hr v rfl
        · exact hw.cache k w hkw
  · rw [exec_cached_hit hk]
    refine .of_same hs ?_
    rintro _ ⟨⟩
    exact hs.cache _ v hk

end

/-! ## Actions that keep to a domain -/

/-- From states within the domain the action leaves states in their frame and within the domain, and
its results satisfy `Q`. -/
def Keeps (env : Environment) (D : Domain) (x : EvalM α) (Q : α → Prop) : Prop :=
  ∀ s : EvalState, s.Within D → s.Ends D Q (x.exec env s)

namespace Keeps

theorem mono {x : EvalM α} {P Q : α → Prop} (hx : Keeps env D x P) (h : ∀ a, P a → Q a) :
    Keeps env D x Q := by
  intro s hs
  obtain ⟨hf, hw, hr⟩ := hx s hs
  exact ⟨hf, hw, fun a ha => h a (hr a ha)⟩

theorem bind {x : EvalM α} {f : α → EvalM β} {P : α → Prop} {Q : β → Prop}
    (hx : Keeps env D x P) (hf : ∀ a, P a → Keeps env D (f a) Q) : Keeps env D (x >>= f) Q := by
  intro s hs
  refine ends_bind (hx s hs) fun a t h => ?_
  obtain ⟨-, hw, hr⟩ := hx s hs
  rw [h] at hw hr
  exact hf a (hr a rfl) t hw

theorem withRow {r : Row} (hr : RowWithin D r) {x : EvalM α} {Q : α → Prop}
    (hx : Keeps env D x Q) : Keeps env D (EvalM.withRow r x) Q :=
  fun s hs => ends_withRow hs (hx (s.setRow r) (hs.setRow hr))

theorem poll (round : Nat) : Keeps env D (EvalM.poll round) fun _ => True := by
  intro s hs
  rw [exec_poll]
  refine ⟨⟨rfl, rfl, rfl, rfl, ?_, ⟨[], by simp⟩, fun _ _ => rfl⟩, ⟨hs.context, hs.cache⟩,
    fun _ _ => trivial⟩
  unfold Execution.checkRound Execution.check
  split
  · exact ⟨s.execution.checks + 1, by split <;> rfl⟩
  · exact ⟨s.execution.checks, rfl⟩

theorem currentMember (h : Hierarchy) : Keeps env D (EvalM.currentMember h) D.member := by
  intro s hs
  rw [EvalM.currentMember, exec_bind_ok exec_get]
  split
  · refine .of_same hs ?_
    rintro _ ⟨⟩
    exact hs.context _ (List.mem_of_getElem? (by assumption))
  · exact .of_same hs (by rintro _ ⟨⟩)

theorem currentCell : Keeps env D EvalM.currentCell (Value.Within D) := by
  intro s hs
  have hq : ∃ more, (s.reader.get s.context).2 = s.reader.queueing more := by
    rcases s.reader.get_queueing s.context with h | h
    · exact ⟨[], by rw [h, CellReader.queueing_nil]⟩
    · exact ⟨_, h⟩
  rcases hr : s.reader.get s.context with ⟨v | _, reader⟩
  · rw [hr] at hq
    rw [exec_currentCell_ready hr]
    refine ⟨⟨rfl, rfl, rfl, rfl, ⟨_, rfl⟩, hq, fun _ _ => rfl⟩, ⟨hs.context, hs.cache⟩, ?_⟩
    rintro _ ⟨⟩
    exact .ofCell v
  · rw [hr] at hq
    rw [exec_currentCell_pending hr]
    refine ⟨⟨rfl, rfl, rfl, rfl, ⟨_, rfl⟩, hq, fun _ _ => rfl⟩, ⟨hs.context, hs.cache⟩, ?_⟩
    intro v hv
    split at hv
    · cases hv
    · cases hv
      trivial

theorem calculation (a : Address) {x : EvalM α} {Q : α → Prop} (hx : Keeps env D x Q) :
    Keeps env D (EvalM.calculation a x) Q :=
  fun s hs => ends_calculation a hs (hx (entered s) ⟨hs.context, hs.cache⟩)

theorem cached (a : Address) (os : List Nat) {x : EvalM Value}
    (hx : Keeps env D x (Value.Within D)) : Keeps env D (EvalM.cached a os x) (Value.Within D) :=
  fun s hs => ends_cached a os hs (hx s hs)

theorem of_composed {contextual : Prop} {given : EvalM Value → Prop}
    (hgiven : ∀ y, given y → Keeps env D y (Value.Within D)) {x : EvalM α} {Q : α → Prop}
    (hx : Composed env D contextual given x Q) : Keeps env D x Q := by
  induction hx with
  | given h => exact hgiven _ h
  | pure h => exact fun s hs => .of_same hs (by rintro _ ⟨⟩; exact h)
  | throw h => exact fun s hs => .of_same hs (by rintro _ ⟨⟩)
  | bind _ _ ihx ihf => exact ihx.bind ihf
  | mono _ h ih => exact ih.mono h
  | read => exact fun s hs => .of_same hs (by rintro _ ⟨⟩; rfl)
  | poll round => exact poll round
  | nonEmpty _ _ ih =>
    intro s hs
    rw [exec_bind_ok exec_get]
    exact ih s.nonEmpty s hs
  | currentMember _ _ => exact currentMember _
  | currentCell _ => exact currentCell
  | withRow _ hr _ ih => exact ih.withRow hr

end Keeps

end EvalM

namespace Calc

variable {env : Environment} {D : Domain} {c : Calc}

theorem evaluate_keeps (hD : D.Closed env.cube) (henv : env.Within D) (hc : c.Within D)
    (a : Address) : EvalM.Keeps env D (c.evaluate a) (Value.Within D) :=
  evaluate_of_closed hD henv (fun _ => EvalM.Keeps.of_composed fun _ h => h)
    (fun a os _ => EvalM.Keeps.cached a os) (fun a _ => EvalM.Keeps.calculation a) hc a

end Calc

/-! ## All values -/

theorem Value.within_everything (v : Value) : v.Within .everything := by
  cases v with
  | tuple r => exact fun _ _ => trivial
  | list l => exact fun _ _ => trivial
  | iterable s => exact fun _ _ _ _ => trivial
  | dimension d => exact fun _ _ => trivial
  | _ => trivial

theorem Calc.within_everything (c : Calc) : c.Within .everything := by
  refine every_of_forall (fun c => ?_) c
  cases c.operation with
  | constant v => exact v.within_everything
  | parameter name v => exact v.within_everything
  | _ => trivial

theorem EvalState.within_everything (s : EvalState) : s.Within .everything :=
  ⟨fun _ _ => trivial, fun _ v _ => v.within_everything⟩

theorem Calc.evaluate_keeps_everything (c : Calc) (a : Address) (env : Environment) :
    EvalM.Keeps env .everything (c.evaluate a) (Value.Within .everything) :=
  evaluate_keeps (Domain.everything_closed env.cube) (fun p _ => p.2.within_everything)
    c.within_everything a

/-- An evaluation leaves the state as it was, apart from kept results, counts and queued requests. -/
theorem Calc.evaluate_frame (c : Calc) (a : Address) (env : Environment) (s : EvalState) :
    s.Frame ((c.evaluate a).exec env s).2 := by
  have hends := c.evaluate_keeps_everything a env s s.within_everything
  exact hends.frame

end Olap
