import Olap.Proofs.Evaluation.Independence
import Olap.Proofs.Evaluation.Moves

/-!
# Sessions

Results are kept all the while that a session lasts (`EvalState.after`). A scene is keyed
(`Scene.Keyed`) if the keys of all results that are kept determine them. A state of a session is
steady (`Scene.Steady`) if what is kept under the flag of a scene is right, and if whatever can be
taken back is a coordinate again. In a keyed scene every move keeps it steady, also the evaluations
under the other flag (`Scene.Steady.after`).
-/

set_option autoImplicit false

namespace Olap

/-! ## Keys that determine results -/

namespace Scene

/-- The keys of all results that are kept determine them. -/
def Determined (S : Scene) : Prop :=
  ∀ (a : Address) (level : Nat) (info : CalcInfo) (os : List Nat) (inner : Calc),
    S.root.At S.address a level (.node info (.cache os) [inner]) → S.Determines os inner a level

/-- What makes the result of an evaluation the one from a fresh start in the same context. -/
structure Keyed (S : Scene) : Prop where
  regular : S.env.cube.Regular
  within : S.env.Within S.domain
  formed : S.root.Formed S.env.cube S.domain True
  determined : S.Determined

variable {S : Scene}

/-- Every evaluation in a keyed scene is sound, if it may read the whole context. -/
theorem Keyed.sound (H : S.Keyed) {c : Calc} (hc : c.Formed S.env.cube S.domain True) {a : Address}
    {level : Nat} (hat : S.root.At S.address a level c) :
    S.Sound (S.depth + level) (fun _ => True) (c.evaluate a) (Value.Within S.domain) := by
  induction hc generalizing a level with
  | @node info op cs hwf _ ih =>
    have hchild (j : Nat) (c : Calc) (hc : cs[j]? = some c) :
        S.Sound (S.depth + level + 1) (fun _ => True) (c.evaluate (j :: a)) (Value.Within S.domain) :=
      ih c (List.mem_of_getElem? hc) (.child hat hc)
    rw [Calc.evaluate]
    refine .calculation a ?_
    cases hcache : op.isCache with
    | false =>
      have hcomposed : EvalM.Composed S.env S.domain True (· ∈ Calc.evaluations a 0 cs)
          (op.run a (Calc.evaluations a 0 cs)) (Value.Within S.domain) :=
        op.run_composed a H.regular.closed H.within hwf.within hcache (fun _ => trivial)
          fun x hx => .given hx
      refine .of_composed H.regular (fun _ _ _ _ => trivial) (fun y hy => ?_) hcomposed
      obtain ⟨j, c, hc, rfl⟩ := Calc.mem_evaluations hy
      rw [Nat.zero_add]
      exact hchild j c hc
    | true =>
      cases op with
      | cache os =>
        obtain ⟨inner, hinner, -⟩ := hwf.cache os rfl
        change cs = [inner] at hinner
        subst hinner
        exact sound_cached hat (H.determined a level info os inner hat) (hchild 0 inner rfl)
      | _ => cases hcache

/-- Where dependency analysis covers what is kept, keys determine results. -/
theorem Apt.keyed (H : S.Apt) : S.Keyed := by
  refine ⟨H.regular, H.within, H.formed, fun a level info os inner hat => ?_⟩
  have hformed := (hat.every H.formed).child inner List.mem_cons_self
  have hinner : S.Sound (S.depth + (level + 1)) (S.Reads inner) (inner.evaluate (0 :: a))
      (S.Typed inner.type) := H.sound hformed (.child hat rfl)
  exact determines_of_covered H hat (hinner.mono fun v hv => hv.1)

end Scene

/-! ## Steady states -/

namespace Scene

variable {S : Scene} {d : Nat} {s t : EvalState}

/-- A state at some depth in which what is kept under the flag of the scene is right (module doc). -/
structure Steady (S : Scene) (d : Nat) (s : EvalState) : Prop extends S.Grounded d s where
  undo : ∀ change ∈ s.undo, change.Within S.env.cube

theorem steady_start (S : Scene) {execution : Execution} (hrunning : execution.stopped? = none)
    (counts : CallCounts) :
    S.Steady 0 (.start S.env.cube (.memory S.facts) execution counts) := by
  have hκ := Cube.coordinate_defaultMembers S.env.cube
  exact ⟨.of_empty hκ rfl rfl hrunning rfl, by rintro _ ⟨⟩⟩

namespace Steady

theorem calm (h : S.Steady d s) (hb : s.nonEmpty = S.nonEmpty) : S.Calm d s := ⟨h.toGrounded, hb⟩

theorem placed (h : S.Steady d s) : s.Placed S.env.cube := ⟨h.coordinate, h.undo⟩

theorem focus (h : S.Steady d s) (ht : t.Placed S.env.cube) : S.Steady d (s.withFocus t) where
  within := ⟨ht.coordinate.within, h.within.cache⟩
  coordinate := ht.coordinate
  undo := ht.undo
  depth := h.depth
  reader := h.reader
  running := h.running
  coherent := h.coherent

theorem setMember (hc : S.env.cube.Regular) (h : S.Steady d s) {m : Member}
    (hm : S.domain.member m) : S.Steady d (s.setMember m) := by
  have hfocus : s.setMember m = s.withFocus (s.setMember m) := by
    unfold EvalState.setMember
    split <;> rfl
  rw [hfocus]
  exact h.focus (h.placed.setMember hc hm)

theorem setNonEmpty (h : S.Steady d s) (b : Bool) : S.Steady d (s.setNonEmpty b) :=
  h.focus (h.placed.setNonEmpty b)

theorem restore (hc : S.env.cube.Regular) (h : S.Steady d s) (mark : Nat) :
    S.Steady d (s.restore mark) := by
  have hfocus : s.restore mark = s.withFocus (s.restore mark) := EvalState.restore_withFocus s s mark
  rw [hfocus]
  exact h.focus (h.placed.restore hc mark)

theorem setRow (hc : S.env.cube.Regular) (h : S.Steady d s) {r : Row} (hr : RowWithin S.domain r) :
    S.Steady d (s.setRow r) := by
  induction r generalizing s with
  | nil => exact h
  | cons m r ih =>
    obtain ⟨hm, hr⟩ := List.forall_mem_cons.1 hr
    exact ih (h.setMember hc hm) hr

theorem frame (h : S.Steady d s) (hf : s.Frame t) (hw : t.Within S.domain)
    (hco : S.Coherent t.cache) : S.Steady d t :=
  ⟨h.toGrounded.frame hf hw hco, hf.undo ▸ h.undo⟩

/-- An evaluation keeps right what is kept under the flag of the scene: with this flag since it is
sound, with the other one since it leaves these results alone. -/
theorem evaluate (H : S.Keyed) (h : S.Steady S.depth s) :
    S.Steady S.depth ((S.root.evaluate S.address).exec S.env s).2 := by
  have hwithin : S.root.Within S.domain := H.formed.mono fun _ h => h.within
  have hkeeps := Calc.evaluate_keeps H.regular.closed H.within hwithin S.address
  obtain ⟨hframe, hw, -⟩ := hkeeps s h.within
  refine h.frame hframe hw ?_
  by_cases hb : s.nonEmpty = S.nonEmpty
  · exact ((H.sound H.formed .root).calm (h.calm hb)).coherent
  · intro a level info os inner hat key v hv
    rw [hframe.cache _ (Ne.symm hb)] at hv
    exact h.coherent a level info os inner hat key v hv

theorem move (H : S.Keyed) (h : S.Steady S.depth s) {move : Move} (hm : move.Within S.domain) :
    S.Steady S.depth (move.run S.env S.root S.address s) := by
  cases move with
  | setMember m => exact h.setMember H.regular hm
  | setNonEmpty b => exact h.setNonEmpty b
  | restore mark => exact h.restore H.regular mark
  | evaluate => exact h.evaluate H

theorem after (H : S.Keyed) (h : S.Steady S.depth s) {moves : List Move}
    (hmoves : ∀ move ∈ moves, move.Within S.domain) :
    S.Steady S.depth (s.after S.env S.root S.address moves) := by
  induction moves generalizing s with
  | nil => exact h
  | cons move moves ih =>
    obtain ⟨hmove, hrest⟩ := List.forall_mem_cons.1 hmoves
    exact ih (h.move H hmove) hrest

end Steady

end Scene

end Olap
