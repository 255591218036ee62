import Olap.Proofs.Calc.Total
import Olap.Proofs.Evaluation.Returns
import Olap.Proofs.Function.Categories

/-!
# Exact arithmetic on whole numbers

An `IntegerTree` is written with integers, the four infix operators and the prefix `-`. Every node is
bound to the overload on integers, so such a tree means the same before and after it is compiled: what
it means over the integers of mathematics (`IntegerTree.meaning`), unless the exact result of some
operation fits no 64 bits; then the first operation of this kind, in the order of evaluation, is
reported (`IntegerTree.evaluate_exact`).
-/

set_option autoImplicit false

namespace Olap

/-! ## Trees and what they mean -/

inductive IntegerTree where
  | literal (i : Int64)
  | negate (t : IntegerTree)
  | combine (op : ArithmeticOp) (l r : IntegerTree)

/-- An operator over the integers, where null stands for nothing: one null operand of a sum or a
difference counts as zero, any other makes the result null, and so does division by zero. -/
def ArithmeticOp.meaning : ArithmeticOp → Option Int → Option Int → Option Int
  | add, some x, some y => some (x + y)
  | add, some x, none => some (x + 0)
  | add, none, some y => some (0 + y)
  | add, none, none => none
  | subtract, some x, some y => some (x - y)
  | subtract, some x, none => some (x - 0)
  | subtract, none, some y => some (0 - y)
  | subtract, none, none => none
  | multiply, some x, some y => some (x * y)
  | multiply, _, _ => none
  | divide, some x, some y => if y = 0 then none else some (x.tdiv y)
  | divide, _, _ => none

/-- An operation that is carried out: how it is written, and its exact result. -/
structure IntegerStep where
  sign : String
  result : Option Int
  deriving DecidableEq

/-- The result is a number that fits no 64 bits. -/
def IntegerStep.overflows (o : IntegerStep) : Bool :=
  match o.result with
  | none => false
  | some n => n < Int64.minValue.toInt || Int64.maxValue.toInt < n

/-- The operator on 64-bit integers that may be missing. -/
def ArithmeticOp.onOptional (op : ArithmeticOp) (a b : Option Int64) :
    Except CalcError (Option Int64) :=
  match op.operands 0 a b with
  | none => .ok none
  | some (a, b) => op.onIntegers a b

def negateOptional : Option Int64 → Except CalcError (Option Int64)
  | none => .ok none
  | some a => some <$> negateInteger a

namespace IntegerTree

/-- The tree as an expression, as it is written. -/
def expr : IntegerTree → Expr
  | literal i => .literal (.integer i)
  | negate t => .call "-" .prefixOp [t.expr]
  | combine op l r => .call op.sign .infixOp [l.expr, r.expr]

/-- How deeply the operations are nested. -/
def height : IntegerTree → Nat
  | literal _ => 0
  | negate t => t.height + 1
  | combine _ l r => max l.height r.height + 1

/-- The value of the tree over the integers, which have no limits. -/
def meaning : IntegerTree → Option Int
  | literal i => some i.toInt
  | negate t => t.meaning.map (- ·)
  | combine op l r => op.meaning l.meaning r.meaning

/-- The operations in the order of evaluation: the left operand before the right one, and both before
the operation itself. -/
def steps : IntegerTree → List IntegerStep
  | literal _ => []
  | negate t => t.steps ++ [⟨"-", (negate t).meaning⟩]
  | combine op l r => l.steps ++ r.steps ++ [⟨op.sign, (combine op l r).meaning⟩]

/-- The value of the tree over 64-bit integers. -/
def run : IntegerTree → Except CalcError (Option Int64)
  | literal i => .ok (some i)
  | negate t => do negateOptional (← t.run)
  | combine op l r => do op.onOptional (← l.run) (← r.run)

end IntegerTree

/-! ## Operations within 64 bits -/

theorem int64?_eq_some {n : Int} (h : Int64.minValue.toInt ≤ n ∧ n ≤ Int64.maxValue.toInt) :
    ∃ i, int64? n = some i ∧ i.toInt = n := by
  have hsome : int64? n = some (Int64.ofInt n) := if_pos h
  exact ⟨_, hsome, toInt_of_int64? hsome⟩

namespace IntegerStep

variable {sign : String}

theorem overflows_iff {n : Int} :
    (⟨sign, some n⟩ : IntegerStep).overflows = true ↔
      ¬ (Int64.minValue.toInt ≤ n ∧ n ≤ Int64.maxValue.toInt) := by
  simp only [overflows, Bool.or_eq_true, decide_eq_true_eq]
  omega

/-- A run agrees with the exact result of its last step: it succeeds with it, or reports that it
overflows. -/
def Describes (o : IntegerStep) (r : Except CalcError (Option Int64)) : Prop :=
  if o.overflows then r = .error (integerOverflow o.sign)
  else ∃ i : Option Int64, r = .ok i ∧ i.map Int64.toInt = o.result

theorem describes_none : Describes ⟨sign, none⟩ (.ok none) := ⟨none, rfl, rfl⟩

/-- A number that fits into 64 bits is the result, and any other one is reported. -/
theorem describes_some {n : Int} {r : Except CalcError (Option Int64)}
    (hsome : ∀ i, int64? n = some i → r = .ok (some i))
    (hnone : int64? n = none → r = .error (integerOverflow sign)) : Describes ⟨sign, some n⟩ r := by
  unfold Describes
  by_cases h : Int64.minValue.toInt ≤ n ∧ n ≤ Int64.maxValue.toInt
  · obtain ⟨i, hi, hn⟩ := int64?_eq_some h
    rw [if_neg fun hover => overflows_iff.1 hover h]
    exact ⟨some i, hsome i hi, congrArg some hn⟩
  · rw [if_pos (overflows_iff.2 h)]
    exact hnone (if_neg h)

end IntegerStep

theorem negateOptional_describes (i : Option Int64) :
    IntegerStep.Describes ⟨"-", (i.map Int64.toInt).map (- ·)⟩ (negateOptional i) := by
  rcases i with _ | a
  · exact IntegerStep.describes_none
  · refine IntegerStep.describes_some (fun i hi => ?_) fun hi => ?_ <;>
      simp only [negateOptional, negateInteger, hi] <;> rfl

theorem ArithmeticOp.exact_describes (op : ArithmeticOp) (a b : Int64) :
    IntegerStep.Describes ⟨op.sign, op.exact a.toInt b.toInt⟩ (op.onIntegers a b) := by
  unfold onIntegers
  rcases op.exact a.toInt b.toInt with _ | n
  · exact IntegerStep.describes_none
  · refine IntegerStep.describes_some (fun i hi => ?_) fun hi => ?_ <;> simp only [hi]

/-- Filling in missing operands and then computing exactly is what the operator means. -/
theorem ArithmeticOp.meaning_eq (op : ArithmeticOp) (a b : Option Int64) :
    op.meaning (a.map Int64.toInt) (b.map Int64.toInt) =
      (op.operands 0 a b).bind fun (a, b) => op.exact a.toInt b.toInt := by
  cases op <;> rcases a with _ | a <;> rcases b with _ | b <;>
    simp [meaning, operands, exact]

theorem ArithmeticOp.onOptional_describes (op : ArithmeticOp) (a b : Option Int64) :
    IntegerStep.Describes ⟨op.sign, op.meaning (a.map Int64.toInt) (b.map Int64.toInt)⟩
      (op.onOptional a b) := by
  rw [meaning_eq, onOptional]
  rcases op.operands 0 a b with _ | ⟨a, b⟩
  · exact IntegerStep.describes_none
  · exact op.exact_describes a b

/-! ## Runs of trees -/

namespace IntegerTree

/-- A run reports the first step that overflows, and gives the exact value if there is none. -/
def Sound (t : IntegerTree) : Prop :=
  match t.steps.find? IntegerStep.overflows with
  | some o => t.run = .error (integerOverflow o.sign)
  | none => ∃ i : Option Int64, t.run = .ok i ∧ i.map Int64.toInt = t.meaning

variable {t l r : IntegerTree}

/-- Where no earlier step overflows, the last one decides. -/
theorem sound_of_last {before : List IntegerStep} {o : IntegerStep} (hsteps : t.steps = before ++ [o])
    (hbefore : before.find? IntegerStep.overflows = none) (ho : o.Describes t.run)
    (hresult : o.result = t.meaning) : t.Sound := by
  unfold Sound
  rw [hsteps, List.find?_append, hbefore, Option.none_or, List.find?_singleton]
  unfold IntegerStep.Describes at ho
  by_cases hover : o.overflows = true
  · rw [if_pos hover] at ho ⊢
    exact ho
  · rw [if_neg hover] at ho ⊢
    rwa [← hresult]

theorem sound_negate (ht : t.Sound) : (negate t).Sound := by
  have hsteps : (negate t).steps = t.steps ++ [⟨"-", (negate t).meaning⟩] := rfl
  unfold Sound at ht
  rcases hfirst : t.steps.find? IntegerStep.overflows with _ | o
  · rw [hfirst] at ht
    obtain ⟨i, hrun, hmeaning⟩ := ht
    refine sound_of_last hsteps hfirst ?_ rfl
    rw [meaning, ← hmeaning, run, hrun]
    exact negateOptional_describes i
  · rw [hfirst] at ht
    unfold Sound
    rw [hsteps, List.find?_append, hfirst, Option.some_or, run, ht]
    rfl

theorem sound_combine (op : ArithmeticOp) (hl : l.Sound) (hr : r.Sound) : (combine op l r).Sound := by
  have hsteps : (combine op l r).steps =
      (l.steps ++ r.steps) ++ [⟨op.sign, (combine op l r).meaning⟩] := rfl
  unfold Sound at hl hr
  rcases hfirst : l.steps.find? IntegerStep.overflows with _ | o
  · rw [hfirst] at hl
    obtain ⟨i, hrunl, hmeaningl⟩ := hl
    rcases hsecond : r.steps.find? IntegerStep.overflows with _ | o
    · rw [hsecond] at hr
      obtain ⟨j, hrunr, hmeaningr⟩ := hr
      refine sound_of_last hsteps (by rw [List.find?_append, hfirst, hsecond]; rfl) ?_ rfl
      rw [meaning, ← hmeaningl, ← hmeaningr, run, hrunl, hrunr]
      exact op.onOptional_describes i j
    · rw [hsecond] at hr
      unfold Sound
      rw [hsteps, List.find?_append, List.find?_append, hfirst, hsecond, Option.none_or,
        Option.some_or, run, hrunl, hr]
      rfl
  · rw [hfirst] at hl
    unfold Sound
    rw [hsteps, List.find?_append, List.find?_append, hfirst, Option.some_or, Option.some_or, run, hl]
    rfl

theorem sound (t : IntegerTree) : t.Sound := by
  induction t with
  | literal i => exact ⟨some i, rfl, rfl⟩
  | negate t ih => exact sound_negate ih
  | combine op l r ihl ihr => exact sound_combine op ihl ihr

end IntegerTree

/-! ## Evaluation -/

/-- The value of a whole number that may be missing. -/
def Value.ofInteger (i : Option Int64) : Value := i.elim .null .int

theorem Value.toInteger_ofInteger (i : Option Int64) : (ofInteger i).toInteger = .ok i := by
  cases i <;> rfl

namespace EvalM.Returns

variable {env : Environment} {d : Nat} {x y : EvalM Value} {i j : Except CalcError (Option Int64)}

theorem asInteger_ofInteger (hx : Returns env d x (Value.ofInteger <$> i)) :
    Returns env d (EvalM.asInteger x) i := by
  have h := hx.asInteger
  rcases i with e | i
  · exact h
  · have hvalue : (Value.ofInteger <$> (Except.ok i : Except CalcError _)) >>= Value.toInteger = .ok i :=
      Value.toInteger_ofInteger i
    rwa [hvalue] at h

theorem integerNegation (a : Address) (hx : Returns env d x (Value.ofInteger <$> i)) :
    Returns env d (Operation.run a .integerNegation [x]) (Value.ofInteger <$> (i >>= negateOptional)) := by
  have hx := hx.asInteger_ofInteger
  rcases i with e | _ | n
  · exact hx.bind_error
  · exact hx.bind_ok (pure Value.null)
  · refine hx.bind_ok ?_
    have hvalue : Value.ofInteger <$> negateOptional (some n) = Value.int <$> negateInteger n := by
      rw [negateOptional]
      cases negateInteger n <;> rfl
    show Returns env d _ (Value.ofInteger <$> negateOptional (some n))
    rw [hvalue]
    exact (lift (negateInteger n)).map Value.int

theorem integerArithmetic (a : Address) (op : ArithmeticOp) (hx : Returns env d x (Value.ofInteger <$> i))
    (hy : Returns env d y (Value.ofInteger <$> j)) :
    Returns env d (Operation.run a (.integerArithmetic op) [x, y])
      (Value.ofInteger <$> do op.onOptional (← i) (← j)) := by
  have hx := hx.asInteger_ofInteger
  have hy := hy.asInteger_ofInteger
  rcases i with e | i
  · exact hx.bind_error
  rcases j with e | j
  · exact hx.bind_ok hy.bind_error
  refine hx.bind_ok (hy.bind_ok ?_)
  show Returns env d _ (Value.ofInteger <$> op.onOptional i j)
  unfold ArithmeticOp.onOptional
  rcases op.operands 0 i j with _ | ⟨n, m⟩
  · exact pure Value.null
  · exact (lift (op.onIntegers n m)).map Value.ofInteger

end EvalM.Returns

/-! ## From the expression to its value -/

theorem Operand.scalar_of_integer {o : Operand} (ht : o.type = .integer) {c : Calc}
    (hc : o.compile [.value, .valueNotNull] = .ok c) (h : c.IsSingle) (styles : List ResultStyle) :
    o.scalar styles = .ok c := by
  have hscalar : o.scalar styles = o.compileAs [.value, .valueNotNull] := by
    rw [scalar, ht]
    rfl
  rw [hscalar, compileAs, hc]
  exact Calc.restyle_of_single h

section
variable {call : BoundCall} (hcall : call.givesInteger = true) {styles : List ResultStyle}
include hcall

theorem BoundCall.negate_integer {o : Operand} (ho : call.operands = [o]) {c : Calc}
    (hc : o.scalar styles = .ok c) :
    call.negate styles = .ok (.plain "-" .integer .integerNegation [c]) := by
  unfold negate operand
  rw [ho, hcall]
  simp only [List.getElem?_cons_zero, bind, Except.bind, hc]
  rfl

theorem BoundCall.arithmetic_integer (op : ArithmeticOp) {l r : Operand} (ho : call.operands = [l, r])
    {c c' : Calc} (hc : l.scalar styles = .ok c) (hc' : r.scalar styles = .ok c') :
    call.arithmetic op styles = .ok (.plain op.sign .integer (.integerArithmetic op) [c, c']) := by
  unfold arithmetic operand
  rw [ho, hcall]
  simp only [List.getElem?_cons_zero, List.getElem?_cons_succ, bind, Except.bind, hc, hc']
  rfl

end

namespace IntegerTree

open ValidateM

/-- The expression is a whole number that compiles, for whatever caller, to a calculation of the value
of the tree. -/
structure Realized (t : IntegerTree) (bound : Expr) : Prop where
  type : bound.type = .integer
  compiles : ∀ (cube : Cube) (styles : List ResultStyle), ∃ c, bound.compile cube styles = .ok c ∧
    c.IsSingle ∧ ∀ env, c.Returns env t.height (Value.ofInteger <$> t.run)

variable {t l r : IntegerTree} {registry : ParameterRegistry}

theorem Realized.scalar {bound : Expr} (h : t.Realized bound) (cube : Cube) (styles : List ResultStyle) :
    ∃ c, Operand.scalar ⟨bound, bound.compile cube⟩ styles = .ok c ∧
      ∀ env, c.Returns env t.height (Value.ofInteger <$> t.run) := by
  obtain ⟨c, hc, hsingle, hreturns⟩ := h.compiles cube [.value, .valueNotNull]
  exact ⟨c, Operand.scalar_of_integer (o := ⟨bound, bound.compile cube⟩) h.type hc hsingle styles,
    hreturns⟩

theorem Realized.symbol?_eq_none {bound : Expr} (h : t.Realized bound) : bound.symbol? = none :=
  Expr.symbol?_eq_none (by rw [h.type]; decide)

theorem realized_literal (i : Int64) : (literal i).Realized (.literal (.integer i)) where
  type := rfl
  compiles _ _ := ⟨_, rfl, .inr rfl, fun _ => Calc.returns_constant _ _⟩

theorem realized_negate {bound : Expr} (ht : t.Realized bound) (description : String) :
    (negate t).Realized (.bound
      ⟨⟨"-", .prefixOp, .integer, [.integer]⟩, description, [], .declared, .negate⟩ .integer
      [bound]) where
  type := rfl
  compiles cube styles := by
    obtain ⟨c, hc, hreturns⟩ := ht.scalar cube styles
    refine ⟨.plain "-" .integer .integerNegation [c], ?_, .inl rfl, fun env => ?_⟩
    · exact BoundCall.negate_integer rfl rfl hc
    · exact Calc.returns_node fun a d hd => (hreturns env (0 :: a) d hd).integerNegation a

theorem realized_combine (op : ArithmeticOp) {left right : Expr} (hl : l.Realized left)
    (hr : r.Realized right) (description : String) :
    (combine op l r).Realized (.bound
      ⟨⟨op.sign, .infixOp, .integer, [.integer, .integer]⟩, description, [], .declared,
        .arithmetic op⟩ .integer [left, right]) where
  type := rfl
  compiles cube styles := by
    obtain ⟨c, hc, hreturns⟩ := hl.scalar cube styles
    obtain ⟨c', hc', hreturns'⟩ := hr.scalar cube styles
    refine ⟨.plain op.sign .integer (.integerArithmetic op) [c, c'], ?_, .inl rfl, fun env => ?_⟩
    · exact BoundCall.arithmetic_integer rfl op rfl hc hc'
    · refine Calc.returns_node fun a d hd => ?_
      exact (hreturns env (0 :: a) d (by omega)).integerArithmetic a op
        (hreturns' env (1 :: a) d (by omega))

/-- The cheapest overload for integers is the one on integers. -/
theorem cheapest_negation :
    (FunctionTable.builtin.lookup "-" .prefixOp).all Resolver.isFixed = true ∧
      (cheapest (FunctionTable.builtin.fits "-" .prefixOp [.ofType .integer])).map
          Definition.undescribed =
        [⟨⟨"-", .prefixOp, .integer, [.integer]⟩, "", [], .declared, .negate⟩] := by
  decide +kernel

theorem cheapest_arithmetic (op : ArithmeticOp) :
    (FunctionTable.builtin.lookup op.sign .infixOp).all Resolver.isFixed = true ∧
      (cheapest (FunctionTable.builtin.fits op.sign .infixOp
          [.ofType .integer, .ofType .integer])).map Definition.undescribed =
        [⟨⟨op.sign, .infixOp, .integer, [.integer, .integer]⟩, "", [], .declared,
          .arithmetic op⟩] := by
  cases op <;> decide +kernel

/-- A tree of integers is valid, and adds no parameters; it is bound to an expression that realizes
it. -/
theorem validate_realized (t : IntegerTree) (registry : ParameterRegistry) :
    ∃ bound, (t.expr.validate .builtin).run registry = (.ok bound, registry) ∧ t.Realized bound := by
  induction t with
  | literal i => exact ⟨_, rfl, realized_literal i⟩
  | negate t ih =>
    obtain ⟨bound, hvalid, ht⟩ := ih
    have hargs : (Expr.validateAll .builtin [t.expr]).run registry = (.ok [bound], registry) :=
      run_bind_ok.2 ⟨bound, registry, hvalid, rfl⟩
    obtain ⟨description, hcall⟩ := Expr.validate_call_exact "-" .prefixOp [.integer]
      ⟨⟨"-", .prefixOp, .integer, [.integer]⟩, "", [], .declared, .negate⟩ hargs
      cheapest_negation.1 (by simp [ht.type]) cheapest_negation.2 rfl (by simp [ht.symbol?_eq_none])
    exact ⟨_, hcall, realized_negate ht description⟩
  | combine op l r ihl ihr =>
    obtain ⟨left, hvalidl, hl⟩ := ihl
    obtain ⟨right, hvalidr, hr⟩ := ihr
    have hargs : (Expr.validateAll .builtin [l.expr, r.expr]).run registry =
        (.ok [left, right], registry) :=
      run_bind_ok.2 ⟨left, registry, hvalidl, run_bind_ok.2 ⟨[right], registry,
        run_bind_ok.2 ⟨right, registry, hvalidr, rfl⟩, rfl⟩⟩
    obtain ⟨description, hcall⟩ := Expr.validate_call_exact op.sign .infixOp [.integer, .integer]
      ⟨⟨op.sign, .infixOp, .integer, [.integer, .integer]⟩, "", [], .declared, .arithmetic op⟩ hargs
      (cheapest_arithmetic op).1 (by simp [hl.type, hr.type]) (cheapest_arithmetic op).2 rfl
      (by simp [hl.symbol?_eq_none, hr.symbol?_eq_none])
    exact ⟨_, hcall, realized_combine op hl hr description⟩

/-- Arithmetic on whole numbers is exact. A tree of integers is valid and compiles. Evaluated where its
operations may be nested as they are, it fails if and only if the exact result of some operation fits no
64 bits, with the first of these operations as the one that overflows; otherwise it gives what the tree
means over the integers. -/
theorem evaluate_exact (t : IntegerTree) (registry : ParameterRegistry) :
    ∃ bound, (t.expr.validate .builtin).run registry = (.ok bound, registry) ∧
      ∀ (cube : Cube) (styles : List ResultStyle), ∃ c, bound.compile cube styles = .ok c ∧
        ∀ (env : Environment) (s : EvalState) (a : Address),
          s.depth + t.height < env.config.maxEvalDepth →
          (∀ e, ((c.evaluate a).exec env s).1 = .error e ↔
            ∃ o, t.steps.find? IntegerStep.overflows = some o ∧
              e = .invalidArgument o.sign "integer overflow") ∧
          ∀ v, ((c.evaluate a).exec env s).1 = .ok v ↔
            (∀ o ∈ t.steps, o.overflows = false) ∧
              ((t.meaning = none ∧ v = .null) ∨
                ∃ i : Int64, t.meaning = some i.toInt ∧ v = .int i) := by
  obtain ⟨bound, hvalid, -, hcompiles⟩ := t.validate_realized registry
  refine ⟨bound, hvalid, fun cube styles => ?_⟩
  obtain ⟨c, hc, -, hreturns⟩ := hcompiles cube styles
  refine ⟨c, hc, fun env s a hs => ?_⟩
  have hresult := (hreturns env).fst_exec a hs
  have hsound := t.sound
  unfold Sound at hsound
  rcases hfirst : t.steps.find? IntegerStep.overflows with _ | o
  · rw [hfirst] at hsound
    obtain ⟨i, hrun, hmeaning⟩ := hsound
    have hfits : ∀ o ∈ t.steps, o.overflows = false := by simpa using hfirst
    rw [hresult, hrun, ← hmeaning]
    refine ⟨fun e => ⟨nofun, nofun⟩, fun v => ⟨fun h => ?_, fun ⟨_, h⟩ => ?_⟩⟩
    · cases h
      refine ⟨hfits, ?_⟩
      cases i with
      | none => exact .inl ⟨rfl, rfl⟩
      | some n => exact .inr ⟨n, rfl, rfl⟩
    · cases i with
      | none =>
        rcases h with ⟨-, rfl⟩ | ⟨n, h, -⟩
        · rfl
        · cases h
      | some n =>
        rcases h with ⟨h, -⟩ | ⟨m, h, rfl⟩
        · cases h
        · rw [Int64.toInt_inj.1 (Option.some.inj h)]
          rfl
  · rw [hfirst] at hsound
    rw [hresult, hsound]
    refine ⟨fun e => ⟨fun h => ?_, ?_⟩, fun v => ⟨nofun, fun ⟨hfits, _⟩ => ?_⟩⟩
    · cases h
      exact ⟨o, rfl, rfl⟩
    · rintro ⟨o', ho', rfl⟩
      cases ho'
      rfl
    · have hover := List.find?_some hfirst
      rw [hfits o (List.mem_of_find?_eq_some hfirst)] at hover
      cases hover

end IntegerTree

namespace Sample

/-- Both operands of the difference are too large. -/
def excessive : IntegerTree :=
  .combine .subtract (.combine .multiply (.literal Int64.maxValue) (.literal 2))
    (.combine .add (.literal Int64.maxValue) (.literal 1))

/-- The negative of minus seven halves, less what division by zero leaves. -/
def truncating : IntegerTree :=
  .combine .subtract (.negate (.combine .divide (.literal (-7)) (.literal 2)))
    (.combine .divide (.literal 1) (.literal 0))

/-- Of two operands that are too large the left one is reported; quotients lose their fraction, and
null counts as zero beside a difference. -/
theorem evaluate_overflowing_truncating :
    (∃ bound c, (excessive.expr.validate .builtin).run [] = (.ok bound, []) ∧
      bound.compile cube Expr.anyStyles = .ok c ∧
      ((c.evaluate [0]).exec ⟨cube, {}, []⟩ (.start cube (.memory []) {})).1 =
        .error (.invalidArgument "*" "integer overflow")) ∧
    ∃ bound c, (truncating.expr.validate .builtin).run [] = (.ok bound, []) ∧
      bound.compile cube Expr.anyStyles = .ok c ∧
      ((c.evaluate [0]).exec ⟨cube, {}, []⟩ (.start cube (.memory []) {})).1 = .ok (.int 3) := by
  obtain ⟨bound, hvalid, hcompiles⟩ := excessive.evaluate_exact []
  obtain ⟨c, hc, hresult⟩ := hcompiles cube Expr.anyStyles
  obtain ⟨bound', hvalid', hcompiles'⟩ := truncating.evaluate_exact []
  obtain ⟨c', hc', hresult'⟩ := hcompiles' cube Expr.anyStyles
  refine ⟨⟨bound, c, hvalid, hc, ?_⟩, bound', c', hvalid', hc', ?_⟩
  · obtain ⟨hfails, -⟩ := hresult ⟨cube, {}, []⟩ (.start cube (.memory []) {}) [0] (by decide)
    exact (hfails _).2 ⟨⟨"*", some (9223372036854775807 * 2)⟩, by decide, rfl⟩
  · obtain ⟨-, hsucceeds⟩ := hresult' ⟨cube, {}, []⟩ (.start cube (.memory []) {}) [0] (by decide)
    exact (hsucceeds _).2 ⟨by decide, .inr ⟨3, by decide, rfl⟩⟩

end Sample

end Olap
