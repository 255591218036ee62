import Olap.Proofs.Calc.Total
import Olap.Proofs.Double.Nearest
import Olap.Proofs.Evaluation.Returns
import Olap.Proofs.Function.Categories

/-!
# Comparisons of numbers

Numbers are compared as doubles: there is no overload on integers, so an integer operand is widened to
the nearest double by a calculation of its own. The comparison gives what it gives for the values of
these doubles, which is what it gives for the numbers themselves unless different numbers have the same
nearest double (`Numeral.compare_nearest`). Doubles are compared in their total order; this theorem says
nothing of zeros of different sign but that one of them is less.
-/

set_option autoImplicit false

namespace Olap

/-! ## What comparisons mean -/

/-- What a comparison says of two numbers. -/
def Comparison.Holds : Comparison → ℚ → ℚ → Prop
  | lt, p, q => p < q
  | le, p, q => p ≤ q
  | gt, p, q => q < p
  | ge, p, q => q ≤ p
  | eq, p, q => p = q
  | ne, p, q => p ≠ q

theorem Comparison.test_compare (c : Comparison) (p q : ℚ) :
    c.test (compare p q) = true ↔ c.Holds p q := by
  cases c <;> simp only [test, Holds, beq_iff_eq, bne_iff_ne, compare_lt_iff_lt, compare_gt_iff_gt,
    compare_eq_iff_eq, Ne, not_lt]

/-- Exactly one of the three holds. -/
theorem Comparison.test_trichotomy (o : Ordering) :
    (lt.test o, eq.test o, gt.test o) ∈ [(true, false, false), (false, true, false), (false, false, true)] := by
  cases o <;> decide

/-- A number as it is written: an integer of 64 bits, or a finite double. -/
inductive Numeral where
  | whole (i : Int64)
  | double (x : Double) (h : x.IsFinite)

namespace Numeral

def expr : Numeral → Expr
  | whole i => .literal (.integer i)
  | double x _ => .literal (.numeric x)

/-- The exact value. -/
def value : Numeral → ℚ
  | whole i => i.toInt
  | double x _ => x.value

/-- The double as which the number is compared. -/
def widened : Numeral → Double
  | whole i => .ofInt64 i
  | double x _ => x

/-- How many calculations are nested below the one of the operand: an integer is widened. -/
def height : Numeral → Nat
  | whole _ => 1
  | double .. => 0

/-- Integers of this size are doubles. -/
def IsShort : Numeral → Prop
  | whole i => i.toInt.natAbs ≤ 2 ^ 53
  | double .. => True

variable (a b : Numeral)

theorem widened_nearest : a.widened.Nearest a.value := by
  cases a with
  | whole i => exact Double.ofInt64_nearest i
  | double x h => exact Double.nearest_self h

variable {a b}

theorem IsShort.exact (h : a.IsShort) : a.widened.value = a.value := by
  cases a with
  | whole i => exact Double.ofInt64_exact h
  | double x _ => rfl

/-- Equal numbers are widened to doubles of the same value. -/
theorem widened_value_congr (h : a.value = b.value) : a.widened.value = b.widened.value := by
  cases a with
  | whole i =>
    cases b with
    | whole j => rw [Int64.toInt_inj.1 (Int.cast_injective h : i.toInt = j.toInt)]
    | double y hy =>
      have hnearest := widened_nearest (whole i)
      rw [h] at hnearest
      exact hnearest.value_eq hy
  | double x hx =>
    cases b with
    | whole j =>
      have hnearest := widened_nearest (whole j)
      rw [← h] at hnearest
      exact (hnearest.value_eq hx).symm
    | double y _ => exact h

/-- Where the widened doubles differ, they are in order as the numbers are. -/
theorem compare_widened (h : a.value = b.value ∨ a.widened.value ≠ b.widened.value) :
    compare a.widened.value b.widened.value = compare a.value b.value := by
  rcases lt_trichotomy a.value b.value with hlt | heq | hgt
  · have hle := (widened_nearest a).le_of_lt (widened_nearest b) hlt
    have hne := h.resolve_left hlt.ne
    rw [compare_lt_iff_lt.2 hlt, compare_lt_iff_lt.2 (lt_of_le_of_ne hle hne)]
  · rw [compare_eq_iff_eq.2 heq, compare_eq_iff_eq.2 (widened_value_congr heq)]
  · have hle := (widened_nearest b).le_of_lt (widened_nearest a) hgt
    have hne := h.resolve_left hgt.ne'
    rw [compare_gt_iff_gt.2 hgt, compare_gt_iff_gt.2 (lt_of_le_of_ne hle hne.symm)]

end Numeral

/-! ## Evaluation -/

namespace EvalM.Returns

variable {env : Environment} {d : Nat} {x y : EvalM Value} {v w : Double}

theorem integerToDouble {i : Int64} (hx : Returns env d x (.ok (.int i))) :
    Returns env d (EvalM.adapt .integerToDouble x) (.ok (.double (.ofInt64 i))) :=
  hx.asInteger.bind_ok (pure _)

theorem compareNumbers (a : Address) (c : Comparison) (hx : Returns env d x (.ok (.double v)))
    (hy : Returns env d y (.ok (.double w))) :
    Returns env d (Operation.run a (.compareNumbers c) [x, y])
      (.ok (.bool (c.test (Double.compareTotal v w)))) :=
  hx.asDouble.bind_ok (hy.asDouble.bind_ok (pure _))

end EvalM.Returns

theorem BoundCall.compare_numbers {call : BoundCall} (htakes : call.takes 0 .string = false)
    (op : Comparison) {styles : List ResultStyle} {l r : Operand} (ho : call.operands = [l, r])
    {c c' : Calc} (hc : l.double styles = .ok c) (hc' : r.double styles = .ok c') :
    call.compare op styles = .ok (.plain op.sign .boolean (.compareNumbers op) [c, c']) := by
  unfold compare operand
  rw [ho, htakes]
  simp only [List.getElem?_cons_zero, List.getElem?_cons_succ, bind, Except.bind, hc, hc']
  rfl

namespace Numeral

open ValidateM

/-- The calculation of an operand that is wanted as a double. -/
def compiled : Numeral → Calc
  | whole i => .adapted .integerToDouble (.constant (.int i) .integer) .numeric
  | double x _ => .constant (.double x) .numeric

/-- The operand as it is passed to a parameter for a number. -/
def passed (a : Numeral) : Expr := a.expr.passedTo .numeric

theorem double_passed (a : Numeral) (cube : Cube) (styles : List ResultStyle) :
    Operand.double ⟨a.passed, a.passed.compile cube⟩ styles = .ok a.compiled := by
  cases a <;> rfl

theorem returns_compiled (a : Numeral) (env : Environment) :
    a.compiled.Returns env a.height (.ok (.double a.widened)) := by
  cases a with
  | whole i =>
    refine Calc.returns_node fun address d hd => ?_
    exact (Calc.returns_constant (.int i) .integer (0 :: address) d hd).integerToDouble
  | double x _ => exact Calc.returns_constant (.double x) .numeric

theorem type_expr (a : Numeral) : a.expr.type ∈ [ExprType.integer, .numeric] := by
  cases a with
  | whole i => exact List.mem_cons_self
  | double x _ => exact List.mem_cons_of_mem _ (List.mem_singleton_self _)

theorem symbol?_passed (a : Numeral) : a.passed.symbol? = none := by
  cases a <;> rfl

/-- The cheapest overload for integers and other numbers is the one on numbers. -/
theorem cheapest_comparison (c : Comparison) :
    (FunctionTable.builtin.lookup c.sign .infixOp).all Resolver.isFixed = true ∧
      ∀ t ∈ [ExprType.integer, .numeric], ∀ u ∈ [ExprType.integer, .numeric],
        (cheapest (FunctionTable.builtin.fits c.sign .infixOp [.ofType t, .ofType u])).map
            Definition.undescribed =
          [⟨⟨c.sign, .infixOp, .logical, [.numeric, .numeric]⟩, "", [], .declared, .compare c⟩] := by
  cases c <;> decide +kernel

theorem validate_comparison (a b : Numeral) (c : Comparison) (registry : ParameterRegistry) :
    ∃ description, ((Expr.call c.sign .infixOp [a.expr, b.expr]).validate .builtin).run registry =
      (.ok (.bound ⟨⟨c.sign, .infixOp, .logical, [.numeric, .numeric]⟩, description, [], .declared,
        .compare c⟩ .boolean [a.passed, b.passed]), registry) := by
  have hargs : (Expr.validateAll .builtin [a.expr, b.expr]).run registry =
      (.ok [a.expr, b.expr], registry) := by
    cases a <;> cases b <;> rfl
  obtain ⟨hfixed, hcheapest⟩ := cheapest_comparison c
  refine Expr.validate_call_passed c.sign .infixOp [a.expr.type, b.expr.type]
    ⟨⟨c.sign, .infixOp, .logical, [.numeric, .numeric]⟩, "", [], .declared, .compare c⟩ hargs hfixed
    rfl (hcheapest _ a.type_expr _ b.type_expr) (fun p hp => ?_) fun e he => ?_
  · have hnumeric : p.2 = .numeric := by
      rcases List.mem_cons.1 hp with rfl | hp
      · rfl
      · rw [List.mem_singleton.1 hp]
    rintro ⟨_, -, h | h⟩ <;> cases hnumeric.symm.trans h
  · have hnone : e.symbol? = none := by
      rcases List.mem_cons.1 he with rfl | he
      · exact a.symbol?_passed
      · rw [List.mem_singleton.1 he]
        exact b.symbol?_passed
    rw [hnone]
    exact fun _ h => nomatch h

/-- A comparison of numbers is valid, compiles, and gives what the comparison is in the total order of
the widened doubles. -/
theorem evaluate_comparison (a b : Numeral) (c : Comparison) (registry : ParameterRegistry) :
    ∃ bound, ((Expr.call c.sign .infixOp [a.expr, b.expr]).validate .builtin).run registry =
        (.ok bound, registry) ∧
      ∀ (cube : Cube) (styles : List ResultStyle), ∃ tree, bound.compile cube styles = .ok tree ∧
        ∀ (env : Environment) (s : EvalState) (address : Address),
          s.depth + (max a.height b.height + 1) < env.config.maxEvalDepth →
          ((tree.evaluate address).exec env s).1 =
            .ok (.bool (c.test (Double.compareTotal a.widened b.widened))) := by
  obtain ⟨description, hvalid⟩ := a.validate_comparison b c registry
  refine ⟨_, hvalid, fun cube styles => ⟨.plain c.sign .boolean (.compareNumbers c) [a.compiled, b.compiled],
    ?_, fun env s address hs => ?_⟩⟩
  · exact BoundCall.compare_numbers rfl c rfl (a.double_passed cube styles) (b.double_passed cube styles)
  · have hreturns : (Calc.plain c.sign .boolean (.compareNumbers c) [a.compiled, b.compiled]).Returns env
        (max a.height b.height + 1)
        (.ok (.bool (c.test (Double.compareTotal a.widened b.widened)))) := by
      refine Calc.returns_node fun address d hd => ?_
      exact (a.returns_compiled env (0 :: address) d (by omega)).compareNumbers address c
        (b.returns_compiled env (1 :: address) d (by omega))
    exact hreturns.fst_exec address hs

/-- Comparisons of numbers are comparisons of the nearest doubles. Every comparison of two numbers is
valid and compiles, and where its calculations may be nested it gives a verdict; exactly one of less,
equal and greater is true. Unless the operands are zeros of different sign, the verdict is what the
comparison says of the nearest doubles. It is what it says of the numbers themselves if they are equal
or have different nearest doubles, and so if integers among them are not beyond two to the power
of 53. -/
theorem compare_nearest (a b : Numeral) :
    ∃ verdict : Comparison → Bool,
      (∀ (c : Comparison) (registry : ParameterRegistry), ∃ bound,
        ((Expr.call c.sign .infixOp [a.expr, b.expr]).validate .builtin).run registry =
            (.ok bound, registry) ∧
          ∀ (cube : Cube) (styles : List ResultStyle), ∃ tree,
            bound.compile cube styles = .ok tree ∧
              ∀ (env : Environment) (s : EvalState) (address : Address),
                s.depth + (max a.height b.height + 1) < env.config.maxEvalDepth →
                ((tree.evaluate address).exec env s).1 = .ok (.bool (verdict c))) ∧
      (verdict .lt, verdict .eq, verdict .gt) ∈
        [(true, false, false), (false, true, false), (false, false, true)] ∧
      a.widened.Nearest a.value ∧ b.widened.Nearest b.value ∧
      (¬ Double.OppositeZeros a.widened b.widened → ∀ c,
        (verdict c = true ↔ c.Holds a.widened.value b.widened.value) ∧
        (a.value = b.value ∨ a.widened.value ≠ b.widened.value →
          (verdict c = true ↔ c.Holds a.value b.value)) ∧
        (a.IsShort → b.IsShort → (verdict c = true ↔ c.Holds a.value b.value))) := by
  refine ⟨fun c => c.test (Double.compareTotal a.widened b.widened), a.evaluate_comparison b,
    Comparison.test_trichotomy _, a.widened_nearest, b.widened_nearest, fun hzeros c => ?_⟩
  have hnearest : c.test (Double.compareTotal a.widened b.widened) = true ↔
      c.Holds a.widened.value b.widened.value := by
    rw [Double.compareTotal_eq hzeros, Comparison.test_compare]
  refine ⟨hnearest, fun h => ?_, fun ha hb => ?_⟩
  · rw [Double.compareTotal_eq hzeros, compare_widened h, Comparison.test_compare]
  · rw [hnearest, ha.exact, hb.exact]

end Numeral

namespace Sample

/-- Two to the power of 53 and its successor have the same nearest double, so they count as equal. -/
theorem evaluate_equal_nearest :
    (Numeral.whole 9007199254740992).value ≠ (Numeral.whole 9007199254740993).value ∧
      ∃ bound tree, ((Expr.call "=" .infixOp [.literal (.integer 9007199254740992),
          .literal (.integer 9007199254740993)]).validate .builtin).run [] = (.ok bound, []) ∧
        bound.compile cube Expr.anyStyles = .ok tree ∧
        ((tree.evaluate [0]).exec ⟨cube, {}, []⟩ (.start cube (.memory []) {})).1 =
          .ok (.bool true) := by
  refine ⟨fun h => ?_, ?_⟩
  · have hints : (9007199254740992 : Int64).toInt = (9007199254740993 : Int64).toInt :=
      Int.cast_injective h
    exact absurd hints (by decide)
  · obtain ⟨bound, hvalid, hcompiles⟩ := (Numeral.whole 9007199254740992).evaluate_comparison
      (.whole 9007199254740993) .eq []
    obtain ⟨tree, htree, hresult⟩ := hcompiles cube Expr.anyStyles
    refine ⟨bound, tree, hvalid, htree, ?_⟩
    rw [hresult ⟨cube, {}, []⟩ (.start cube (.memory []) {}) [0] (by decide)]
    have htest : Comparison.eq.test (Double.compareTotal (.ofInt64 9007199254740992)
        (.ofInt64 9007199254740993)) = true := by decide +kernel
    exact congrArg (fun b => Except.ok (Value.bool b)) htest

/-- Three is greater than the double of the value two. -/
theorem evaluate_three_gt_two :
    ∃ bound tree, ((Expr.call ">" .infixOp [.literal (.integer 3),
          .literal (.numeric (.ofInt64 2))]).validate .builtin).run [] = (.ok bound, []) ∧
        bound.compile cube Expr.anyStyles = .ok tree ∧
        ((tree.evaluate [0]).exec ⟨cube, {}, []⟩ (.start cube (.memory []) {})).1 =
          .ok (.bool true) := by
  have hfinite := Double.isFinite_ofInt64 2
  obtain ⟨verdict, hevaluates, -, -, -, hverdict⟩ :=
    Numeral.compare_nearest (.whole 3) (.double (.ofInt64 2) hfinite)
  obtain ⟨bound, hvalid, hcompiles⟩ := hevaluates .gt []
  obtain ⟨tree, htree, hresult⟩ := hcompiles cube Expr.anyStyles
  refine ⟨bound, tree, hvalid, htree, ?_⟩
  have hdepth : 0 + (max 1 0 + 1) < 512 := by decide
  rw [hresult ⟨cube, {}, []⟩ (.start cube (.memory []) {}) [0] hdepth]
  have htwo : (Double.ofInt64 2).value = 2 := Double.ofInt64_exact (by decide)
  have hthree : (Double.ofInt64 3).value = 3 := Double.ofInt64_exact (by decide)
  have hzeros : ¬ Double.OppositeZeros (.ofInt64 3) (.ofInt64 2) := by
    rintro ⟨hzero, -⟩
    rw [hthree] at hzero
    norm_num at hzero
  obtain ⟨-, -, hshort⟩ := hverdict hzeros .gt
  have hgreater : Comparison.Holds .gt (Numeral.whole 3).value
      (Numeral.double (.ofInt64 2) hfinite).value := by
    show (Double.ofInt64 2).value < ((3 : Int64).toInt : ℚ)
    rw [htwo, show (3 : Int64).toInt = 3 by decide]
    norm_num
  exact congrArg (fun b => Except.ok (Value.bool b))
    ((hshort (show (3 : Int64).toInt.natAbs ≤ 2 ^ 53 by decide) trivial).2 hgreater)

end Sample

end Olap
