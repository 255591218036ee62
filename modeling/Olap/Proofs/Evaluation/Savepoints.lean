import Olap.Proofs.Catalog.Regular
import Olap.Proofs.Evaluation.Frame

/-!
# Savepoints

A savepoint is no more than the height of the undo stack at the moment it is taken, and scopes take one
when they are opened and go back to it when they are left. `ContextSteps` are the ways in which a
computation uses them: it makes members current and sets the flag, takes savepoints and goes back to any
that it has taken, opens scopes around further steps, and changes the rest of the state as it likes. As
long as it does not go back behind a savepoint, going back to this one brings back the current members,
the flag and the undo stack, whatever has become of the savepoints in between
(`ContextSteps.savepoints_nest`). The invariant is that going back would do so at every moment, and that
no savepoint taken since is lower.
-/

set_option autoImplicit false

namespace Olap

namespace EvalState

/-! ## Going back twice -/

theorem undoMany_add (m n : Nat) (s : EvalState) : undoMany (m + n) s = undoMany n (undoMany m s) := by
  induction m generalizing s with
  | zero => rw [Nat.zero_add, undoMany]
  | succ m ih => rw [Nat.succ_add, undoMany, undoMany, ih]

theorem mark_undoMany (n : Nat) (s : EvalState) : (undoMany n s).mark = s.mark - n := by
  induction n generalizing s with
  | zero => rfl
  | succ n ih =>
    have hone : s.undoOne.mark = s.mark - 1 := by
      unfold undoOne mark
      split <;> simp_all
    rw [undoMany, ih, hone]
    omega

theorem mark_restore (s : EvalState) (mark : Nat) : (s.restore mark).mark = min s.mark mark := by
  rw [restore, mark_undoMany]
  show s.mark - (s.mark - mark) = _
  omega

/-- Going back to a savepoint on the way to a lower one makes no difference. -/
theorem restore_restore {s : EvalState} {lower upper : Nat} (h : lower ≤ upper) :
    (s.restore upper).restore lower = s.restore lower := by
  have hcount : s.undo.length - lower =
      (s.undo.length - upper) + ((s.restore upper).mark - lower) := by
    rw [mark_restore]
    show s.mark - lower = (s.mark - upper) + (min s.mark upper - lower)
    omega
  show _ = undoMany (s.undo.length - lower) s
  rw [hcount, undoMany_add]
  rfl

/-- A change that can be taken back is, on the way to a lower savepoint. -/
theorem restore_of_undoOne {s t : EvalState} {lower : Nat} (hundo : t.undoOne = s)
    (hmark : t.mark = s.mark + 1) (h : lower ≤ s.mark) : t.restore lower = s.restore lower := by
  have hcount : t.undo.length - lower = (s.undo.length - lower) + 1 := by
    change t.mark - lower = (s.mark - lower) + 1
    omega
  rw [restore, hcount, undoMany, hundo, restore]

end EvalState

/-! ## Using savepoints -/

/-- What a computation does to the context, the flag and the undo stack. -/
inductive ContextStep where
  | setMember (m : Member)
  | setNonEmpty (b : Bool)
  /-- Takes a savepoint. -/
  | save
  /-- Goes back to a savepoint, by the number of those that were taken before it. -/
  | restore (number : Nat)
  /-- Opens a scope, takes steps in it and leaves it. -/
  | scope (body : List ContextStep)
  /-- Leaves the context, the flag and the undo stack alone; all else becomes that of a state. -/
  | other (u : EvalState)

/-- A state and the savepoints that have been taken, the first one first. -/
structure SavepointState where
  state : EvalState
  savepoints : List Nat

namespace SavepointState

/-- Takes a savepoint. -/
def save (t : SavepointState) : SavepointState :=
  { t with savepoints := t.savepoints ++ [t.state.mark] }

/-- Goes back to the savepoint of a number; without such a savepoint nothing happens. -/
def restore (t : SavepointState) (number : Nat) : SavepointState :=
  match t.savepoints[number]? with
  | some mark => { t with state := t.state.restore mark }
  | none => t

end SavepointState

mutual

def ContextStep.run : ContextStep → SavepointState → SavepointState
  | .setMember m, t => { t with state := t.state.setMember m }
  | .setNonEmpty b, t => { t with state := t.state.setNonEmpty b }
  | .save, t => t.save
  | .restore number, t => t.restore number
  | .scope body, t =>
    { ContextSteps.run body t with
      state := (ContextSteps.run body t).state.restore t.state.mark }
  | .other u, t => { t with state := u.withFocus t.state }

def ContextSteps.run : List ContextStep → SavepointState → SavepointState
  | [], t => t
  | x :: xs, t => ContextSteps.run xs (x.run t)

end

mutual

/-- The step goes back to no savepoint but those from a number on. -/
def ContextStep.From (n : Nat) : ContextStep → Prop
  | .restore number => n ≤ number
  | .scope body => ContextSteps.From n body
  | _ => True

def ContextSteps.From (n : Nat) : List ContextStep → Prop
  | [] => True
  | x :: xs => x.From n ∧ ContextSteps.From n xs

end

/-- From the state `t`, going back to the height of `s` brings back the context, the flag and the undo
stack of `s`, and all savepoints from the number `n` on are at least as high. -/
structure SavepointState.Above (s : EvalState) (n : Nat) (t : SavepointState) : Prop where
  returns : t.state.restore s.mark = t.state.withFocus s
  mark_le : s.mark ≤ t.state.mark
  savepoints : ∀ k mark, n ≤ k → t.savepoints[k]? = some mark → s.mark ≤ mark

namespace SavepointState.Above

variable {s : EvalState} {n : Nat} {t : SavepointState}

theorem start (s : EvalState) (savepoints : List Nat) :
    Above s savepoints.length ⟨s, savepoints⟩ where
  returns := s.restore_mark
  mark_le := Nat.le_refl _
  savepoints k mark hk h := by
    rw [List.getElem?_eq_none hk] at h
    cases h

theorem setMember (h : t.Above s n) (m : Member) :
    Above s n { t with state := t.state.setMember m } := by
  by_cases hm : m.hierarchyOrdinal < t.state.context.length
  · have hmark := EvalState.mark_setMember hm
    refine ⟨?_, ?_, h.savepoints⟩
    · rw [EvalState.restore_of_undoOne (t.state.undoOne_setMember m hm) hmark h.mark_le, h.returns]
      unfold EvalState.setMember
      split <;> rfl
    · have hle := h.mark_le
      show s.mark ≤ (t.state.setMember m).mark
      omega
  · rw [EvalState.setMember_of_length_le (Nat.le_of_not_lt hm)]
    exact h

theorem setNonEmpty (h : t.Above s n) (b : Bool) :
    Above s n { t with state := t.state.setNonEmpty b } where
  returns := (EvalState.restore_of_undoOne (EvalState.undoOne_setNonEmpty t.state b) rfl
    h.mark_le).trans h.returns
  mark_le := Nat.le_succ_of_le h.mark_le
  savepoints := h.savepoints

theorem save (h : t.Above s n) : Above s n t.save where
  returns := h.returns
  mark_le := h.mark_le
  savepoints k mark hk hget := by
    rcases Nat.lt_or_ge k t.savepoints.length with hold | hnew
    · exact h.savepoints k mark hk ((List.getElem?_append_left hold).symm.trans hget)
    · have hmem := List.mem_of_getElem? ((List.getElem?_append_right hnew).symm.trans hget)
      rw [List.mem_singleton.1 hmem]
      exact h.mark_le

/-- Going back to a height at or above that of `s`. -/
theorem restoreTo (h : t.Above s n) {mark : Nat} (hmark : s.mark ≤ mark) :
    Above s n { t with state := t.state.restore mark } where
  returns := by
    obtain ⟨v, hv⟩ := EvalState.undoMany_eq_withFocus (t.state.undo.length - mark) t.state
    show (t.state.restore mark).restore s.mark = (t.state.restore mark).withFocus s
    rw [EvalState.restore_restore hmark, h.returns, EvalState.restore, hv]
    rfl
  mark_le := by
    show s.mark ≤ (t.state.restore mark).mark
    rw [EvalState.mark_restore]
    exact Nat.le_min.2 ⟨h.mark_le, hmark⟩
  savepoints := h.savepoints

theorem restore (h : t.Above s n) {number : Nat} (hn : n ≤ number) : (t.restore number).Above s n := by
  unfold SavepointState.restore
  split
  · rename_i mark hget
    exact h.restoreTo (h.savepoints number mark hn hget)
  · exact h

theorem other (h : t.Above s n) (u : EvalState) :
    Above s n { t with state := u.withFocus t.state } where
  returns := by
    show (u.withFocus t.state).restore s.mark = _
    rw [EvalState.restore_withFocus, h.returns]
    rfl
  mark_le := h.mark_le
  savepoints := h.savepoints

end SavepointState.Above

/-! ## Steps and runs -/

section
variable {s : EvalState} {n : Nat}

mutual

/-- No step that goes back to later savepoints only loses the way back. -/
theorem ContextStep.above (step : ContextStep) (t : SavepointState) (ht : t.Above s n)
    (h : step.From n) : (step.run t).Above s n := by
  cases step with
  | setMember m => exact ht.setMember m
  | setNonEmpty b => exact ht.setNonEmpty b
  | save => exact ht.save
  | restore number => exact ht.restore h
  | scope body => exact (ContextSteps.above body t ht h).restoreTo ht.mark_le
  | other u => exact ht.other u

theorem ContextSteps.above (steps : List ContextStep) (t : SavepointState) (ht : t.Above s n)
    (h : ContextSteps.From n steps) : (ContextSteps.run steps t).Above s n := by
  cases steps with
  | nil => exact ht
  | cons step steps => exact ContextSteps.above steps _ (step.above t ht h.1) h.2

end

mutual

/-- No savepoint is forgotten. -/
theorem ContextStep.savepoints_prefix (step : ContextStep) (t : SavepointState) :
    t.savepoints <+: (step.run t).savepoints := by
  cases step with
  | save => exact List.prefix_append _ _
  | restore number =>
    show _ <+: (t.restore number).savepoints
    unfold SavepointState.restore
    split <;> exact List.prefix_rfl
  | scope body => exact ContextSteps.savepoints_prefix body t
  | setMember | setNonEmpty | other => exact List.prefix_rfl

theorem ContextSteps.savepoints_prefix (steps : List ContextStep) (t : SavepointState) :
    t.savepoints <+: (ContextSteps.run steps t).savepoints := by
  cases steps with
  | nil => exact List.prefix_rfl
  | cons step steps => exact (step.savepoints_prefix t).trans (ContextSteps.savepoints_prefix steps _)

end

end

/-- The current members, the flag and the undo stack of two states are the same. -/
def EvalState.SameContext (s t : EvalState) : Prop :=
  s.context = t.context ∧ s.nonEmpty = t.nonEmpty ∧ s.undo = t.undo

theorem SavepointState.Above.sameContext {s : EvalState} {n : Nat} {t : SavepointState}
    (h : t.Above s n) : (t.state.restore s.mark).SameContext s := by
  rw [h.returns]
  exact ⟨rfl, rfl, rfl⟩

/-- After any steps that go back to no savepoint before it, a savepoint brings back the context, the flag
and the undo stack of the moment when it was taken. So does a scope for the moment when it was opened,
and so does every action that is run in a scope of its own and, whether it succeeds or fails, ends as
such steps do. -/
theorem ContextSteps.savepoints_nest (s : EvalState) (savepoints : List Nat)
    (steps : List ContextStep) (h : ContextSteps.From savepoints.length steps) :
    let start : SavepointState := ⟨s, savepoints⟩
    ((ContextSteps.run steps start.save).restore savepoints.length).state.SameContext s ∧
      ((ContextStep.scope steps).run start).state.SameContext s ∧
      ∀ {α : Type} (x : EvalM α) (env : Environment),
        (x.exec env s).2 = (ContextSteps.run steps start).state →
        ((EvalM.restoring x).exec env s).2.SameContext s := by
  intro start
  have habove : start.Above s savepoints.length := .start s savepoints
  refine ⟨?_, (ContextSteps.above steps start habove h).sameContext, fun x env hx => ?_⟩
  · -- the savepoint is still found under its number
    obtain ⟨later, hlater⟩ := ContextSteps.savepoints_prefix steps start.save
    have hget : (ContextSteps.run steps start.save).savepoints[savepoints.length]? = some s.mark := by
      rw [← hlater]
      simp [start, SavepointState.save]
    rw [SavepointState.restore, hget]
    exact (ContextSteps.above steps start.save habove.save h).sameContext
  · rw [EvalM.exec_restoring, hx]
    exact (ContextSteps.above steps start habove h).sameContext

namespace Sample

/-- A second savepoint is taken, left behind and gone back to twice, once from inside a scope. -/
def nestedSteps : List ContextStep :=
  [.setMember cost, .save, .setNonEmpty true, .setMember amount,
    .scope [.setMember cost, .restore 1, .setNonEmpty false], .restore 1, .restore 0, .setMember cost,
    .restore 1]

theorem savepoints_nest_measures : ContextSteps.From 0 nestedSteps ∧
    let s := EvalState.start cube (.memory [⟨[amount], 5⟩]) {}
    let start : SavepointState := ⟨s, []⟩
    ((ContextSteps.run nestedSteps start.save).restore 0).state.SameContext s ∧
      (ContextSteps.run nestedSteps start.save).state.context.map (·.uniqueName) ≠
        s.context.map (·.uniqueName) := by
  have hfrom : ContextSteps.From 0 nestedSteps := by
    simp [nestedSteps, ContextSteps.From, ContextStep.From]
  have hnest := ContextSteps.savepoints_nest (.start cube (.memory [⟨[amount], 5⟩]) {}) [] nestedSteps
    hfrom
  exact ⟨hfrom, hnest.1, by decide⟩

end Sample

end Olap
