import Olap.Proofs.Evaluation.Exec

/-!
# Results that no state decides

`EvalM.Returns env d x r`: at depth `d` the action has the result `r`, whatever else the state is, and
leaves the depth as it was. The rules follow the ways to build an action, so the result of an operation
whose operands read neither cells nor the context is computed from theirs (`Returns.bind`). A
calculation has the result of its operation as long as the limit on nesting lets it be entered
(`Calc.returns_node`).
-/

set_option autoImplicit false

namespace Olap

def EvalM.Returns {α : Type} (env : Environment) (d : Nat) (x : EvalM α) (r : Except CalcError α) :
    Prop :=
  ∀ s : EvalState, s.depth = d → (x.exec env s).1 = r ∧ (x.exec env s).2.depth = d

namespace EvalM.Returns

variable {α β : Type} {env : Environment} {d : Nat} {x : EvalM α} {r : Except CalcError α}

/-! ## The monad -/

theorem pure (a : α) : Returns env d (Pure.pure a : EvalM α) (.ok a) := fun _ hs => ⟨rfl, hs⟩

theorem lift (r : Except CalcError α) : Returns env d (EvalM.lift r) r := by
  intro s hs
  rw [exec_lift]
  exact ⟨rfl, hs⟩

theorem read : Returns env d MonadReader.read (.ok env) := fun _ hs => ⟨rfl, hs⟩

theorem bind {f : α → EvalM β} {g : α → Except CalcError β} (hx : Returns env d x r)
    (hf : ∀ a, r = .ok a → Returns env d (f a) (g a)) : Returns env d (x >>= f) (r >>= g) := by
  intro s hs
  obtain ⟨hresult, hdepth⟩ := hx s hs
  rcases hexec : x.exec env s with ⟨e | a, t⟩
  · rw [hexec] at hresult hdepth
    subst hresult
    rw [exec_bind_error hexec]
    exact ⟨rfl, hdepth⟩
  · rw [hexec] at hresult hdepth
    subst hresult
    rw [exec_bind_ok hexec]
    exact hf a rfl t hdepth

theorem bind_ok {a : α} {f : α → EvalM β} {r : Except CalcError β} (hx : Returns env d x (.ok a))
    (hf : Returns env d (f a) r) : Returns env d (x >>= f) r := by
  refine hx.bind (g := fun _ => r) fun b hb => ?_
  cases hb
  exact hf

theorem bind_error {e : CalcError} {f : α → EvalM β} (hx : Returns env d x (.error e)) :
    Returns env d (x >>= f) (.error e) := by
  refine hx.bind (g := fun _ => .error e) fun b hb => ?_
  cases hb

theorem map (f : α → β) (hx : Returns env d x r) : Returns env d (do return f (← x)) (f <$> r) :=
  hx.bind fun a _ => pure (f a)

theorem liftCatalog {a : α} {r : Except CatalogError α} (h : r = .ok a) :
    Returns env d (EvalM.liftCatalog r) (.ok a) := by
  subst h
  exact pure a

theorem resultLimit : Returns env d EvalM.resultLimit (.ok env.config.resultLimit) :=
  read.bind_ok (pure _)

/-! ## Values of a wanted kind -/

theorem through (f : α → Except CalcError β) (hx : Returns env d x r) :
    Returns env d (do EvalM.lift (f (← x))) (r >>= f) :=
  hx.bind fun a _ => lift (f a)

section
variable {x : EvalM Value} {r : Except CalcError Value} (hx : Returns env d x r)
include hx

theorem asInteger : Returns env d (EvalM.asInteger x) (r >>= Value.toInteger) := hx.through _

theorem asDouble : Returns env d (EvalM.asDouble x) (r >>= Value.toDouble) := hx.through _

theorem asMember : Returns env d (EvalM.asMember x) (r >>= Value.toMember) := hx.through _

theorem asLevel : Returns env d (EvalM.asLevel x) (r >>= Value.toLevel) := hx.through _

end

/-! ## Nested calculations -/

theorem calculation (a : Address) (hd : d < env.config.maxEvalDepth)
    (hx : Returns env (d + 1) x r) : Returns env d (EvalM.calculation a x) r := by
  intro s hs
  obtain ⟨hresult, hdepth⟩ := hx (entered s) (congrArg (· + 1) hs)
  rw [exec_calculation a x (hs ▸ hd)]
  refine ⟨hresult, ?_⟩
  show (x.exec env (entered s)).2.depth - 1 = d
  omega

end EvalM.Returns

namespace Calc

variable {env : Environment} {c : Calc}

/-- The calculation has the result `r` wherever it stands, if it and `n` levels below it can be
entered. -/
def Returns (env : Environment) (c : Calc) (n : Nat) (r : Except CalcError Value) : Prop :=
  ∀ (a : Address) (d : Nat), d + n < env.config.maxEvalDepth → EvalM.Returns env d (c.evaluate a) r

theorem Returns.fst_exec {n : Nat} {r : Except CalcError Value} (h : c.Returns env n r) (a : Address)
    {s : EvalState} (hs : s.depth + n < env.config.maxEvalDepth) : ((c.evaluate a).exec env s).1 = r :=
  (h a s.depth hs s rfl).1

theorem returns_constant (v : Value) (t : ExprType) : (constant v t).Returns env 0 (.ok v) := by
  intro a d hd
  exact (EvalM.Returns.pure v).calculation a hd

/-- The result of a calculation is that of its operation on what its children yield one level
below. -/
theorem returns_node {info : CalcInfo} {op : Operation} {cs : List Calc} {n : Nat}
    {r : Except CalcError Value}
    (h : ∀ (a : Address) (d : Nat), d + n < env.config.maxEvalDepth →
      EvalM.Returns env d (op.run a (evaluations a 0 cs)) r) :
    (node info op cs).Returns env (n + 1) r := by
  intro a d hd
  rw [evaluate]
  refine .calculation a (by omega) (h a (d + 1) (by omega))

end Calc

end Olap
