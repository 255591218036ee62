import Olap.Proofs.Calc.TruthfulTrees
import Olap.Proofs.Evaluation.Moves
import Olap.Proofs.Evaluation.Relocation

/-!
# Values belong to the types of their expressions

A tree that is used in a session finds nothing but its own results among those that are kept for it
(`EvalState.Unused`), so that the contract under which it runs can be read off the tree
(`Contract.ofTree`); every move of the session keeps to it (`Contract.Lasting.after`). Therefore, in a
cube whose names can be read, the values of a closed and consistent expression belong to its type in
every state of a session (`Expr.evaluate_belongs`).
-/

set_option autoImplicit false

namespace Olap

/-! ## Contracts of one tree -/

theorem Calc.At.suffix {root c : Calc} {start a : Address} {level : Nat}
    (h : At root start a level c) : start <:+ a := by
  induction h with
  | root => exact List.suffix_refl _
  | child _ _ ih => exact ih.trans (List.suffix_cons _ _)

namespace Contract

variable {T : Contract} {c : Calc} {a : Address} {s t : EvalState}

/-- The contract with which the tree at an address has to be evaluated: what is kept for its
calculations is what their types allow. -/
def ofTree (T : Contract) (c : Calc) (a : Address) : Contract where
  env := T.env
  kept k v := ∀ (level : Nat) (info : CalcInfo) (os : List Nat) (inner : Calc),
    c.At a k.1 level (.node info (.cache os) [inner]) →
      (Calc.node info (.cache os) [inner]).Keepable T v
  strict := T.strict
  named := T.named

/-- What the value of a type is does not depend on what may be kept. -/
theorem holds_ofTree {t : ExprType} {v : Value} : (T.ofTree c a).Holds t v ↔ T.Holds t v := by
  cases t with
  | set t =>
    constructor <;> rintro ⟨s, hs, hsolid, harity, hpos, hrows⟩ <;>
      exact ⟨s, hs, hsolid, harity, hpos, hrows⟩
  | _ => exact Iff.rfl

theorem keepable_ofTree {k : Calc} {v : Value} :
    k.Keepable (T.ofTree c a) v ↔ k.Keepable T v := by
  rw [Calc.Keepable, Calc.Keepable, holds_ofTree]

theorem guarded_ofTree (T : Contract) (c : Calc) (a : Address) : c.Guarded (T.ofTree c a) a := by
  intro b level info os inner hat flag names v
  rw [keepable_ofTree]
  refine ⟨fun h => h level info os inner hat, fun h level' info' os' inner' hat' => ?_⟩
  obtain ⟨-, heq⟩ := hat.unique hat'
  exact heq ▸ h

/-- A state of a session in which the contract is kept. -/
structure Lasting (T : Contract) (s : EvalState) : Prop extends s.Placed T.env.cube where
  kept : ∀ (k : CacheKey) (v : Value), s.cache[k]? = some v → T.kept k v

theorem lasting_of_unused (hs : s.Placed T.env.cube) (hunused : s.Unused a) :
    (T.ofTree c a).Lasting s where
  toPlaced := hs
  kept k v hv _ _ _ _ hat := absurd hat.suffix (hunused k v hv)

namespace Lasting

theorem upheld (h : T.Lasting s) : T.Upheld s := ⟨fun _ => h.coordinate, h.kept⟩

variable {Q : Value → Prop} (hregular : T.env.cube.Regular) (heval : T.Ensures (c.evaluate a) Q)
include hregular heval

theorem move (h : T.Lasting s) {move : Move} (hm : move.Within (Domain.ofCube T.env.cube)) :
    T.Lasting (move.run T.env c a s) := by
  cases move with
  | setMember m =>
    refine ⟨h.toPlaced.setMember hregular hm, fun k v hv => h.kept k v ?_⟩
    obtain ⟨-, -, -, -, hcache, -⟩ := s.setMember_rest m
    rwa [Move.run, hcache] at hv
  | setNonEmpty b => exact ⟨h.toPlaced.setNonEmpty b, h.kept⟩
  | restore mark =>
    refine ⟨h.toPlaced.restore hregular mark, fun k v hv => h.kept k v ?_⟩
    rwa [Move.run, EvalState.cache_restore] at hv
  | evaluate =>
    have hends := heval s h.upheld
    exact ⟨h.toPlaced.frame hends.frame, hends.kept⟩

theorem after (h : T.Lasting s) {moves : List Move}
    (hmoves : ∀ move ∈ moves, move.Within (Domain.ofCube T.env.cube)) :
    T.Lasting (s.after T.env c a moves) := by
  induction moves generalizing s with
  | nil => exact h
  | cons move moves ih =>
    obtain ⟨hmove, hrest⟩ := List.forall_mem_cons.1 hmoves
    exact ih (h.move hregular heval hmove) hrest

end Lasting

end Contract

/-! ## Trees of an expression -/

/-- The trees that an expression can be compiled to: in any style, and sets also to lists and to sets
that are produced on demand. -/
inductive Expr.CompilesTo (cube : Cube) (e : Expr) (c : Calc) : Prop
  | any {styles : List ResultStyle} (h : e.compile cube styles = .ok c)
  | list {styles : List ResultStyle} {owned : Bool} (hset : e.type.isSet = true)
      (h : (e.toOperand cube).list styles owned = .ok c)
  | iterable {styles : List ResultStyle} (hset : e.type.isSet = true)
      (h : (e.toOperand cube).iterable styles = .ok c)

theorem Expr.CompilesTo.serves {T : Contract} {e : Expr} {c : Calc}
    (he : (e.toOperand T.env.cube).Faithful T) (hc : e.CompilesTo T.env.cube c) :
    c.Serves T e.type := by
  cases hc with
  | any h => exact he.serves _ c h
  | list hs h =>
    obtain ⟨t, ht⟩ := ExprType.eq_set_of_isSet hs
    rw [ht]
    exact (he.list _ ht _ c h).serves
  | iterable hs h =>
    obtain ⟨t, ht⟩ := ExprType.eq_set_of_isSet hs
    rw [ht]
    exact he.iterable _ ht c h

/-- In every state of a session the value of a closed expression belongs to its type, and no tuple
meets a list of another number of columns, if the rules for the types of its calls agree with the
arguments and the names of the dimensions can be read off those of the hierarchies. -/
theorem Expr.evaluate_belongs {env : Environment} (hbuilt : env.cube.Built)
    (hreadable : env.cube.DimensionsReadable) {source bound : Expr} {registry : ParameterRegistry}
    (hclosed : source.isClosed = true) (hover : source.Over env.cube)
    (hvalid : ((source.validate .builtin).run registry).1 = .ok bound)
    (hconsistent : bound.isConsistent = true) {c : Calc} (hc : bound.CompilesTo env.cube c)
    {a : Address} {s : EvalState} (hs : s.Placed env.cube) (hunused : s.Unused a)
    {moves : List Move} (hmoves : ∀ move ∈ moves, move.Within (Domain.ofCube env.cube)) :
    (∀ v, ((c.evaluate a).exec env (s.after env c a moves)).1 = .ok v →
        v.Belongs env.cube bound.type) ∧
      ∀ expected actual, ((c.evaluate a).exec env (s.after env c a moves)).1 ≠
        .error (.arityMismatch expected actual) := by
  have hnamed := hbuilt.named hreadable
  let T : Contract := ⟨env, fun _ _ => True, True, fun _ => hnamed⟩
  have hfaithful : (bound.toOperand env.cube).Faithful (T.ofTree c a) :=
    (validate_bound hclosed hvalid).faithful fun _ => ⟨validate_over hover hvalid, hconsistent⟩
  have heval := (hc.serves hfaithful).delivers a (T.guarded_ofTree c a)
  have hlasting : (T.ofTree c a).Lasting (s.after env c a moves) :=
    (Contract.lasting_of_unused hs hunused).after hnamed.toRegular heval hmoves
  have hallowed := (heval _ hlasting.upheld).allowed
  refine ⟨fun v hv => ?_, fun expected actual herror => ?_⟩
  · change Contract.Allows _ _ ((c.evaluate a).exec env (s.after env c a moves)).1 at hallowed
    rw [hv] at hallowed
    exact Contract.Holds.belongs hallowed trivial
  · change Contract.Allows _ _ ((c.evaluate a).exec env (s.after env c a moves)).1 at hallowed
    rw [herror] at hallowed
    exact Bool.noConfusion (hallowed trivial)

namespace Sample

theorem cube_readable : cube.DimensionsReadable := by
  unfold Cube.DimensionsReadable
  decide

/-- The set of both measures. -/
def bothMeasures : Expr := .call "\x7b\x7d" .braces [.member amount, .member cost]

def bothBound : Expr :=
  match ((bothMeasures.validate .builtin).run []).1 with
  | .ok e => e
  | .error _ => .literal .null

theorem bothMeasures_checks : ((bothMeasures.validate .builtin).run []).1.toOption.isSome = true ∧
    bothBound.type.isSet = true ∧ bothBound.isConsistent = true := by
  decide +kernel

theorem validate_bothMeasures : ((bothMeasures.validate .builtin).run []).1 = .ok bothBound := by
  obtain ⟨e, he⟩ := exists_ok_of_isSome bothMeasures_checks.1
  rw [bothBound, he]

theorem bothBound_bound : bothBound.Bound := Expr.validate_bound rfl validate_bothMeasures

/-- The set of both measures has members of the type that it says, also after another evaluation. -/
theorem evaluate_belongs_bothMeasures :
    environment.cube.Built ∧ environment.cube.DimensionsReadable ∧ bothMeasures.isClosed = true ∧
      bothMeasures.Over environment.cube ∧
      ((bothMeasures.validate .builtin).run []).1 = .ok bothBound ∧
      bothBound.isConsistent = true ∧
      ∃ c, bothBound.CompilesTo environment.cube c ∧
        ∃ s : EvalState, s.Placed environment.cube ∧ s.Unused [0] ∧
          (∀ move ∈ [Move.setMember cost, .evaluate], move.Within (Domain.ofCube environment.cube)) ∧
          ∀ v, ((c.evaluate [0]).exec environment
              (s.after environment c [0] [.setMember cost, .evaluate])).1 = .ok v →
            v.Belongs environment.cube bothBound.type := by
  have hover : bothMeasures.Over environment.cube :=
    ⟨measure_mem (by decide), measure_mem (by decide), trivial⟩
  obtain ⟨-, hset, hconsistent⟩ := bothMeasures_checks
  obtain ⟨c, hc⟩ := bothBound_bound.list_compiles hset cube Expr.anyStyles false
  have hplaced := EvalState.placed_start cube (.memory [⟨[amount], 5⟩]) {} ∅
  have hunused : (EvalState.start cube (.memory [⟨[amount], 5⟩]) {}).Unused [0] :=
    EvalState.unused_of_empty rfl
  have hmoves : ∀ move ∈ [Move.setMember cost, .evaluate],
      move.Within (Domain.ofCube environment.cube) :=
    List.forall_mem_cons.2 ⟨measure_mem (by decide), List.forall_mem_singleton.2 trivial⟩
  refine ⟨cube_built, cube_readable, rfl, hover, validate_bothMeasures, hconsistent, c,
    .list hset hc, _, hplaced, hunused, hmoves, ?_⟩
  exact (Expr.evaluate_belongs cube_built cube_readable rfl hover validate_bothMeasures hconsistent
    (.list hset hc) hplaced hunused hmoves).1

end Sample

end Olap
