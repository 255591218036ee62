import Olap.Proofs.Evaluation.Belonging
import Olap.Proofs.Evaluation.Capped

/-!
# The limit on tuples

Every operation does under a limit what it does without one, unless the limit refuses some number of
tuples (`Operation.run_capped`), and so does every evaluation (`Calc.evaluate_capped`). For the trees of
an expression without parameters, whose nodes hold no sets, that says that the limit only turns results
into its own errors, and that no list which a node gives has more tuples than the limit allows
(`Expr.evaluate_limited`).
-/

set_option autoImplicit false

namespace Olap

namespace Cap.Actions

open EvalM

variable {K : Cap} {env : Environment} {α : Type}

/-! ## Constructors -/

theorem addElement {l m : TupleList} (h : K.Lists l m) {v w : Value} (hv : K.Values v w) :
    K.Actions env (EvalM.addElement l v) (EvalM.addElement m w) K.Lists := by
  cases hv with
  | @single v hv =>
    cases v with
    | member m => exact of_results (h.add _)
    | tuple r => exact of_results (h.add _)
    | null => exact pure h
    | list _ | iterable _ => cases hv
    | _ => exact throw _
  | list hk => exact of_results (h.append hk.freed.rows)
  | iterable _ => exact throw _

theorem addElements {xs ys : List (EvalM Value)}
    (hxs : List.Forall₂ (fun x y => K.Actions env x y K.Values) xs ys) {l m : TupleList}
    (h : K.Lists l m) :
    K.Actions env (EvalM.addElements l xs) (EvalM.addElements m ys) K.Lists := by
  induction hxs generalizing l m with
  | nil => exact pure h
  | cons hx _ ih => exact .bind hx fun _ _ hv => .bind (addElement h hv) fun _ _ h => ih h

theorem tupleOf (r : Row) : K.Actions env (EvalM.tupleOf r) (EvalM.tupleOf r) K.Values := by
  unfold EvalM.tupleOf
  split
  · exact throw _
  · exact pure (.single rfl)

/-! ## Catalog objects -/

theorem hierarchyOf (m : Member) :
    K.Actions env (EvalM.hierarchyOf m) (EvalM.hierarchyOf m) Eq := by
  refine bind_catalog (fun _ => rfl) (fun _ => rfl) ?_
  cases env.cube.hierarchyOf? m with
  | some h => exact pure rfl
  | none => exact throw _

theorem singleHierarchy (d : Dimension) :
    K.Actions env (EvalM.singleHierarchy d) (EvalM.singleHierarchy d) Eq := by
  unfold EvalM.singleHierarchy
  cases d.singleHierarchy? with
  | some h => exact pure rfl
  | none => exact throw _

theorem targetDepth {target : DescendantsTarget} {m : Member} {xs ys : List (EvalM Value)}
    (hxs : List.Forall₂ (fun x y => K.Actions env x y K.Values) xs ys) :
    K.Actions env (EvalM.targetDepth target m xs) (EvalM.targetDepth target m ys) Eq := by
  have hlevel {x y : EvalM Value} (hx : K.Actions env x y K.Values) :
      K.Actions env (EvalM.targetDepth .level m [x]) (EvalM.targetDepth .level m [y]) Eq :=
    .bind_eq (asLevel hx) fun l => .ite
      (fun _ => .bind_eq (throw _) fun _ => pure rfl) fun _ => pure rfl
  have hdistance {x y : EvalM Value} (hx : K.Actions env x y K.Values) :
      K.Actions env (EvalM.targetDepth .distance m [x]) (EvalM.targetDepth .distance m [y]) Eq :=
    .bind_eq (asInteger hx) fun n => .ite
      (fun _ => .bind_eq (throw _) fun _ => pure rfl) fun _ => pure rfl
  cases hxs with
  | nil => cases target <;> exact pure rfl
  | cons hx hrest =>
    cases hrest with
    | nil =>
      cases target with
      | unbounded => exact pure rfl
      | level => exact hlevel hx
      | distance => exact hdistance hx
    | cons _ _ => cases target <;> exact pure rfl

theorem drillDown (cube : Cube) (targets : List Member) (recursive : Bool) (round : Nat)
    (ms : List Member) :
    K.Actions env (EvalM.drillDown cube targets recursive round ms)
      (EvalM.drillDown cube targets recursive round ms) Eq := by
  induction ms generalizing round with
  | nil => exact pure rfl
  | cons m ms ih => exact .bind_eq (poll round) fun _ => .bind_eq (ih _) fun _ => pure rfl

theorem adapt (a : Adapter) {x y : EvalM Value} (hx : K.Actions env x y K.Values) :
    K.Actions env (EvalM.adapt a x) (EvalM.adapt a y) K.Values := by
  cases a with
  | memberToTuple => exact .bind_eq (asMember hx) fun m => pure (.single rfl)
  | memberToSet => exact .bind_eq (asMember hx) fun m => memberList [m]
  | tupleToSet =>
    refine .bind_eq (asTuple hx) fun r => bind_resultLimit ?_
    exact .bind (of_results ((lists_empty _).add r)) fun _ _ h => pure (.list h)
  | dimensionToHierarchy =>
    exact .bind_eq (asDimension hx) fun d => .bind_eq (singleHierarchy d) fun h => pure (.single rfl)
  | levelToHierarchy =>
    refine .bind_eq (asLevel hx) fun l => bind_catalog (fun _ => rfl) (fun _ => rfl) ?_
    exact .bind_eq (liftCatalog _) fun h => pure (.single rfl)
  | materialize =>
    have hheld {v w : Value} (h : K.Values v w) : K.Actions env
        (EvalM.lift v.toSource >>= fun p => EvalM.materialize p >>= fun l => Pure.pure (.list l))
        (EvalM.lift w.toSource >>= fun p => EvalM.materialize p >>= fun l => Pure.pure (.list l))
        K.Values :=
      .bind (of_results h.toSource) fun _ _ h => .bind (materialize h) fun _ _ h => pure (.list h)
    refine .bind hx fun v w hv => ?_
    cases hv with
    | @single v hv => cases v <;> first | exact hheld (.single rfl) | cases hv
    | list h => exact pure (.list h)
    | iterable h => exact hheld (.iterable h)
  | mutableCopy => exact .bind (asList hx) fun _ _ h => pure (.list h)
  | integerToDouble =>
    exact .bind_eq (asInteger hx) fun n => pure (.elim _ fun _ => rfl)

/-! ## Operations on two scalars -/

section
variable {x y x' y' : EvalM Value} (hx : K.Actions env x x' K.Values)
variable (hy : K.Actions env y y' K.Values) (a : Address)
include hx hy

theorem integerArithmetic (op : ArithmeticOp) :
    K.Actions env (Operation.run a (.integerArithmetic op) [x, y])
      (Operation.run a (.integerArithmetic op) [x', y']) K.Values := by
  refine .bind_eq (asInteger hx) fun m => .bind_eq (asInteger hy) fun n => ?_
  split
  · exact pure (.single rfl)
  · exact .bind_eq (lift _) fun i => pure (.elim _ fun _ => rfl)

theorem doubleArithmetic (op : ArithmeticOp) :
    K.Actions env (Operation.run a (.doubleArithmetic op) [x, y])
      (Operation.run a (.doubleArithmetic op) [x', y']) K.Values := by
  exact .bind_eq (asDouble hx) fun m => .bind_eq (asDouble hy) fun n => pure (.elim _ fun _ => rfl)

theorem compareNumbers (c : Comparison) :
    K.Actions env (Operation.run a (.compareNumbers c) [x, y])
      (Operation.run a (.compareNumbers c) [x', y']) K.Values := by
  refine .bind_eq (asDouble hx) fun m => .bind_eq (asDouble hy) fun n => ?_
  split <;> exact pure (.single rfl)

theorem compareTexts (c : Comparison) :
    K.Actions env (Operation.run a (.compareTexts c) [x, y])
      (Operation.run a (.compareTexts c) [x', y']) K.Values := by
  refine .bind_eq (asText hx) fun m => .bind_eq (asText hy) fun n => ?_
  split <;> exact pure (.single rfl)

theorem conjunction :
    K.Actions env (Operation.run a .conjunction [x, y]) (Operation.run a .conjunction [x', y'])
      K.Values :=
  .bind_eq (asBool hx) fun _ => .ite (fun _ => .bind_eq (asBool hy) fun _ => pure (.single rfl))
    fun _ => pure (.single rfl)

theorem disjunction :
    K.Actions env (Operation.run a .disjunction [x, y]) (Operation.run a .disjunction [x', y'])
      K.Values :=
  .bind_eq (asBool hx) fun _ => .ite (fun _ => pure (.single rfl))
    fun _ => .bind_eq (asBool hy) fun _ => pure (.single rfl)

/-! ## Operations on two sets -/

theorem drilldownMember (recursive : Bool) :
    K.Actions env (Operation.run a (.drilldownMember recursive) [x, y])
      (Operation.run a (.drilldownMember recursive) [x', y']) K.Values := by
  refine .bind (asList hx) fun l m h => .bind (asList hy) fun targets targets' h' => ?_
  rw [h.freed.arity, h.freed.members, h'.freed.members]
  refine .ite (fun _ => .bind_eq (throw _) fun _ => ?_) fun _ => ?_
  all_goals
    refine bind_catalog (fun _ => rfl) (fun _ => rfl) ?_
    exact .bind_eq (drillDown _ _ _ _ _) fun ms => memberList ms

theorem crossJoinValue (onDemand : Bool) :
    K.Actions env (Operation.run a (.crossJoin onDemand) [x, y])
      (Operation.run a (.crossJoin onDemand) [x', y']) K.Values := by
  refine .bind (asSource hx) fun p p' hp => .bind (asSource hy) fun q q' hq => ?_
  let join (p q : TupleSource) (b : Bool) : EvalM Value :=
    if onDemand && !b then Pure.pure (Value.iterable (.cross p q))
    else EvalM.crossJoin p q >>= fun joined => Pure.pure (Value.list joined)
  refine nonEmpty (f := join p q) (g := join p' q') fun b => ?_
  refine .ite (fun _ => pure (.iterable (.cross hp hq))) fun _ => ?_
  exact .bind (crossJoin hp hq) fun _ _ h => pure (.list h)

theorem filter :
    K.Actions env (Operation.run a .filter [x, y]) (Operation.run a .filter [x', y']) K.Values :=
  .bind (asSource hx) fun _ _ h => .bind_eq (forEachRow h fun _ => asBool hy) fun keep =>
    .bind (select h keep) fun _ _ h => pure (.list h)

theorem nonEmptyAmong :
    K.Actions env (Operation.run a .nonEmpty [x, y]) (Operation.run a .nonEmpty [x', y'])
      K.Values := by
  refine .bind (asSource hx) fun p q h => .bind (asList hy) fun others others' h' => ?_
  rw [h'.freed.rows]
  exact .bind_eq (forEachRow h fun _ => anyFilled others.rows) fun keep =>
    .bind (select h keep) fun _ _ h => pure (.list h)

theorem order (mode : SortMode) (byText : Bool) :
    K.Actions env (Operation.run a (.order mode byText) [x, y])
      (Operation.run a (.order mode byText) [x', y']) K.Values := by
  refine .bind (asList hx) fun l m h => .bind (sort ?_ mode h) fun _ _ h => pure (.list h)
  refine .ite (fun _ => ?_) fun _ => ?_
  · exact .bind_eq (asText hy) fun _ => pure rfl
  · exact .bind_eq (asDouble hy) fun _ => pure rfl

theorem aggregate (f : Aggregate) :
    K.Actions env (Operation.run a (.aggregate f) [x, y]) (Operation.run a (.aggregate f) [x', y'])
      K.Values := by
  refine .bind (asSource hx) fun _ _ h => .bind_eq (forEachRow h fun _ => asDouble hy) fun values => ?_
  exact pure (.elim _ fun _ => rfl)

end

/-! ## Operations on one set -/

section
variable {x y : EvalM Value} (hx : K.Actions env x y K.Values)
variable {xs ys : List (EvalM Value)} (a : Address)
include hx

theorem nonEmptyAlone :
    K.Actions env (Operation.run a .nonEmpty [x]) (Operation.run a .nonEmpty [y]) K.Values := by
  refine .bind (asSource hx) fun p q h => .bind_eq (forEachRow h fun _ => ?_) fun keep => ?_
  · exact .bind_eq isEmptyCell fun _ => pure rfl
  · exact .bind (select h keep) fun _ _ h => pure (.list h)

theorem head (hxs : List.Forall₂ (fun x y => K.Actions env x y K.Values) xs ys) :
    K.Actions env (Operation.run a .head (x :: xs)) (Operation.run a .head (y :: ys)) K.Values := by
  refine .bind (asList hx) fun l m h => ?_
  have hcut (n : Nat) : K.Values (.list (if l.size ≤ n then l else l.subList 0 n))
      (.list (if m.size ≤ n then m else m.subList 0 n)) := by
    rw [h.freed.size]
    split
    · exact .list h
    · exact .list (h.subList n)
  cases hxs with
  | nil => exact .bind_eq (pure rfl) fun n => pure (hcut n)
  | cons hy _ => exact .bind_eq (asInteger hy) fun n => .bind_eq (pure rfl) fun n => pure (hcut n)

theorem count (excludeEmpty : Bool) :
    K.Actions env (Operation.run a (.count excludeEmpty) (x :: xs))
      (Operation.run a (.count excludeEmpty) (y :: ys)) K.Values := by
  refine .bind (asSource hx) fun p q h => .ite (fun _ => ?_) fun _ => ?_
  · exact .bind_eq (forEachRow h fun _ => isEmptyCell) fun _ => pure (.single rfl)
  · rw [h.size]
    exact pure (.single rfl)

/-! ## Catalog objects -/

theorem levelMembers :
    K.Actions env (Operation.run a .levelMembers (x :: xs)) (Operation.run a .levelMembers (y :: ys))
      K.Values := by
  refine .bind_eq (asLevel hx) fun l => bind_catalog (fun _ => rfl) (fun _ => rfl) ?_
  exact .bind_eq (liftCatalog _) fun h => memberList _

theorem dimensionOf :
    K.Actions env (Operation.run a .dimensionOf (x :: xs)) (Operation.run a .dimensionOf (y :: ys))
      K.Values := by
  refine .bind_eq (asHierarchy hx) fun h => bind_catalog (fun _ => rfl) (fun _ => rfl) ?_
  exact .bind_eq (liftCatalog _) fun d => pure (.single rfl)

theorem descendants (target : DescendantsTarget) (flag : DescendantsFlag)
    (hxs : List.Forall₂ (fun x y => K.Actions env x y K.Values) xs ys) :
    K.Actions env (Operation.run a (.descendants target flag) (x :: xs))
      (Operation.run a (.descendants target flag) (y :: ys)) K.Values := by
  refine .bind_eq (asMember hx) fun m => .bind_eq (targetDepth hxs) fun depth => ?_
  exact bind_catalog (fun _ => rfl) (fun _ => rfl) (memberList _)

theorem toBoolean :
    K.Actions env (Operation.run a .toBoolean (x :: xs)) (Operation.run a .toBoolean (y :: ys))
      K.Values := by
  refine .bind hx fun v w h => ?_
  have htruth : K.Actions env (EvalM.lift v.toBool >>= fun b => Pure.pure (Value.bool b))
      (EvalM.lift w.toBool >>= fun b => Pure.pure (Value.bool b)) K.Values := by
    rw [h.convert (f := Value.toBool) (fun _ _ => rfl) fun _ _ => rfl]
    exact .bind_eq (lift _) fun _ => pure (.single rfl)
  cases h with
  | @single v _ =>
    split
    · exact pure (.single rfl)
    · exact htruth
  | list _ => exact htruth
  | iterable _ => exact htruth

theorem integerNegation :
    K.Actions env (Operation.run a .integerNegation (x :: xs))
      (Operation.run a .integerNegation (y :: ys)) K.Values := by
  refine .bind_eq (asInteger hx) fun n => ?_
  split
  · exact pure (.single rfl)
  · exact .bind_eq (lift _) fun _ => pure (.single rfl)

end

theorem sequence {xs ys : List (EvalM Value)}
    (hxs : List.Forall₂ (fun x y => K.Actions env x y K.Values) xs ys) {v w : Value}
    (h : K.Values v w) :
    K.Actions env (xs.foldlM (fun _ x => x) v) (ys.foldlM (fun _ x => x) w) K.Values := by
  induction hxs generalizing v w with
  | nil => exact pure h
  | cons hx _ ih =>
    rw [List.foldlM_cons, List.foldlM_cons]
    exact .bind hx fun v w h => ih h

end Cap.Actions

/-! ## All operations -/

/-- Lists that nodes hold have no more tuples than the limit allows, and nothing comes in from
outside. -/
def Demand.bounded (limit : Nat) : Demand := ⟨Value.Bounded limit, fun _ _ => False, trivial⟩

section
open EvalM Cap.Actions

variable {K : Cap} {env : Environment}

/-- Every operation does under the limit what it does without it, if its children do. -/
theorem Operation.run_capped {op : Operation} {xs ys : List (EvalM Value)} (a : Address)
    (hop : K.strict → op.Holds (.bounded K.limit))
    (hxs : List.Forall₂ (fun x y => K.Actions env x y K.Values) xs ys) :
    K.Actions env (op.run a xs) (op.run a ys) K.Values := by
  -- operations without operands, or with any number of them
  cases op
  case constant => exact .pure (.refl hop)
  case parameter =>
    exact bind_catalog (fun _ => rfl) (fun _ => rfl) (.pure (.refl fun hstrict => (hop hstrict).elim))
  case sequence => exact Cap.Actions.sequence hxs (.single rfl)
  case currentValue => exact .currentCell
  case memberValue => exact .bind_eq (.asMembers hxs) fun r => .withRow r .currentCell
  case set =>
    refine bind_resultLimit ?_
    exact .bind (addElements hxs (Cap.lists_empty _)) fun _ _ h => .pure (.list h)
  case tuple => exact .bind_eq (.asMembers hxs) fun r => tupleOf r
  -- all others have a first operand
  all_goals
    rcases hxs with _ | ⟨hx, hrest⟩
    · exact .throw _
  case tupleValue => exact .bind_eq (.asTuple hx) fun r => .withRow r .currentCell
  case currentMember =>
    exact .bind_eq (.asHierarchy hx) fun h => .bind_eq (.currentMember h) fun m => .pure (.single rfl)
  case adapt => exact Cap.Actions.adapt _ hx
  case cache => exact .cached a _ hx
  case toBoolean => exact Cap.Actions.toBoolean hx a
  case toNumber => exact .bind_eq (.asDouble hx) fun n => .pure (.elim _ fun _ => rfl)
  case toInteger => exact .bind_eq (.asInteger hx) fun n => .pure (.elim _ fun _ => rfl)
  case toText => exact .bind_eq (.asText hx) fun s => .pure (.elim _ fun _ => rfl)
  case hierarchyOf =>
    exact .bind_eq (.asMember hx) fun m => .bind_eq (Cap.Actions.hierarchyOf m) fun h =>
      .pure (.single rfl)
  case dimensionOf => exact Cap.Actions.dimensionOf hx a
  case integerNegation => exact Cap.Actions.integerNegation hx a
  case doubleNegation => exact .bind_eq (.asDouble hx) fun n => .pure (.elim _ fun _ => rfl)
  case negation => exact .bind_eq (.asBool hx) fun _ => .pure (.single rfl)
  case levelMembers => exact Cap.Actions.levelMembers hx a
  case hierarchyMembers => exact .bind_eq (.asHierarchy hx) fun h => .memberList _
  case children =>
    exact .bind_eq (.asMember hx) fun m => bind_catalog (fun _ => rfl) (fun _ => rfl) (.memberList _)
  case parent =>
    exact .bind_eq (.asMember hx) fun m => .pure (.elim _ fun _ => rfl)
  case descendants => exact Cap.Actions.descendants hx a _ _ hrest
  case head => exact Cap.Actions.head hx a hrest
  case count => exact Cap.Actions.count hx a _
  -- what is left takes two operands, or three
  all_goals
    rcases hrest with _ | ⟨hy, hrest⟩
    · first | exact .throw _ | exact nonEmptyAlone hx a
  case choice =>
    rcases hrest with _ | ⟨hz, _ | ⟨_, _⟩⟩
    · exact .throw _
    · exact .bind_eq (.asBool hx) fun b => .ite (fun _ => hy) fun _ => hz
    · exact .throw _
  all_goals
    rcases hrest with _ | ⟨_, _⟩
    rotate_left
    · exact .throw _
  case integerArithmetic => exact Cap.Actions.integerArithmetic hx hy a _
  case doubleArithmetic => exact Cap.Actions.doubleArithmetic hx hy a _
  case compareNumbers => exact Cap.Actions.compareNumbers hx hy a _
  case compareTexts => exact Cap.Actions.compareTexts hx hy a _
  case conjunction => exact Cap.Actions.conjunction hx hy a
  case disjunction => exact Cap.Actions.disjunction hx hy a
  case drilldownMember => exact Cap.Actions.drilldownMember hx hy a _
  case crossJoin => exact crossJoinValue hx hy a _
  case filter => exact Cap.Actions.filter hx hy a
  case nonEmpty => exact nonEmptyAmong hx hy a
  case order => exact Cap.Actions.order hx hy a _ _
  case aggregate => exact Cap.Actions.aggregate hx hy a _

/-- So does every evaluation. -/
theorem Calc.evaluate_capped {c : Calc}
    (hc : K.strict → c.Every fun c => c.operation.Holds (.bounded K.limit)) (a : Address) :
    K.Actions env (c.evaluate a) (c.evaluate a) K.Values := by
  have hevery : c.Every fun c => K.strict → c.operation.Holds (.bounded K.limit) := by
    by_cases hstrict : K.strict
    · exact (hc hstrict).mono fun _ h _ => h
    · exact every_of_forall (fun _ h => absurd h hstrict) c
  clear hc
  induction hevery generalizing a with
  | @node info op cs hop hcs ih =>
    rw [evaluate]
    exact .calculation a (op.run_capped a hop (forall₂_evaluations 0 fun c hc j => ih c hc _))

end

/-! ## Outcomes -/

namespace Cap.Outcomes

variable {K : Cap} {o p : Except CalcError Value × EvalState}

/-- The limit refuses, or the outcomes differ at most in the limits that lists carry. -/
theorem refused_or_same (h : K.Outcomes K.Values o p) :
    (∃ n, K.limit < n ∧ o.1 = .error (.resourceLimitExceeded n K.limit)) ∨
      o.1.map Value.unlimited = p.1.map Value.unlimited := by
  cases h with
  | @refused n _ _ h _ => exact .inl ⟨n, h, rfl⟩
  | both h _ =>
    cases h with
    | @refused n _ h => exact .inl ⟨n, h, rfl⟩
    | error e => exact .inr rfl
    | ok h => exact .inr (congrArg Except.ok h.unlimited)

theorem bounded (h : K.Outcomes K.Values o p) (hstrict : K.strict) :
    (∀ v, o.1 = .ok v → v.Bounded K.limit) ∧ o.2.Bounded K.limit := by
  cases h with
  | refused _ hbounded => exact ⟨nofun, hbounded hstrict⟩
  | both h hstates =>
    refine ⟨fun v hv => ?_, hstates.bounded hstrict⟩
    cases h with
    | refused _ => cases hv
    | error _ => cases hv
    | ok h =>
      cases hv
      exact h.bounded hstrict

end Cap.Outcomes

/-! ## Expressions -/

theorem EvalState.bounded_of_empty {s : EvalState} (h : s.cache = ∅) (limit : Nat) : s.Bounded limit := by
  intro k v hv
  simp [h] at hv

theorem Calc.Every.subtrees {P : Calc → Prop} {c : Calc} (h : c.Every P) :
    c.Every fun d => d.Every P := by
  induction h with
  | node h hs ih => exact .node (.node h hs) ih

namespace Expr

mutual

/-- Whether a parameter occurs in an expression. -/
def hasParameter : Expr → Bool
  | parameter _ => true
  | call _ _ args => anyParameter args
  | bound _ _ args => anyParameter args
  | convert e _ _ => e.hasParameter
  | _ => false

def anyParameter : List Expr → Bool
  | [] => false
  | e :: es => e.hasParameter || anyParameter es

end

mutual

theorem holds_bounded (limit : Nat) : ∀ e : Expr, e.hasParameter = false → e.Holds (.bounded limit)
  | literal l, _ => by cases l <;> trivial
  | member _, _ => trivial
  | level _, _ => trivial
  | hierarchy _, _ => trivial
  | dimension _, _ => trivial
  | parameter _, h => Bool.noConfusion h
  | call _ _ args, h => allHold_bounded limit args h
  | bound _ _ args, h => allHold_bounded limit args h
  | convert e _ _, h => holds_bounded limit e h

theorem allHold_bounded (limit : Nat) :
    ∀ es : List Expr, anyParameter es = false → AllHold (.bounded limit) es
  | [], _ => trivial
  | e :: es, h =>
    have ⟨he, hes⟩ := Bool.or_eq_false_iff.1 h
    ⟨holds_bounded limit e he, allHold_bounded limit es hes⟩

end

/-- What holds of the values in an expression holds of those in all its trees. -/
theorem CompilesTo.compiled {cube : Cube} {H : Demand} {e : Expr} {c : Calc}
    (hc : e.CompilesTo cube c) (hv : e.Holds H) : c.Compiled cube H False := by
  have hformed : (e.toOperand cube).Formed cube H False := formed e hv False.elim
  cases hc with
  | any h => exact hformed.tree _ c h
  | list _ h => exact hformed.list _ _ c h
  | iterable _ h => exact hformed.iterable _ c h

/-- For every tree of an expression without parameters: under a limit it gives in every state what it
gives without one, but for the limits that lists carry, or the limit refuses some larger number of
tuples; and no node of it gives a list with more tuples than the limit allows, or keeps one. -/
theorem evaluate_limited {env : Environment} {limit : Nat} (hpos : 0 < limit) {e : Expr}
    (hfree : e.hasParameter = false) {c : Calc} (hc : e.CompilesTo env.cube c) :
    (∀ (a : Address) (s : EvalState),
      let limited := ((c.evaluate a).exec (env.withLimit limit) s).1
      let free := ((c.evaluate a).exec (env.withLimit 0) s).1
      (∃ n, limit < n ∧ limited = .error (.resourceLimitExceeded n limit)) ∨
        limited.map Value.unlimited = free.map Value.unlimited) ∧
    c.Every fun d => ∀ (a : Address) (s : EvalState), s.Bounded limit →
      let outcome := (d.evaluate a).exec (env.withLimit limit) s
      (∀ l, outcome.1 = .ok (.list l) → l.size ≤ limit) ∧ outcome.2.Bounded limit := by
  refine ⟨fun a s => ?_, ?_⟩
  · let K : Cap := ⟨limit, hpos, False⟩
    have hcapped : K.Actions env (c.evaluate a) (c.evaluate a) K.Values :=
      c.evaluate_capped False.elim a
    exact (hcapped s s (.refl False.elim)).refused_or_same
  · let K : Cap := ⟨limit, hpos, True⟩
    have hholds : c.Every fun d => d.operation.Holds (.bounded limit) :=
      (hc.compiled (holds_bounded limit e hfree)).mono fun _ h => h.holds
    refine hholds.subtrees.mono fun d hd a s hs => ?_
    have hcapped : K.Actions env (d.evaluate a) (d.evaluate a) K.Values :=
      d.evaluate_capped (fun _ => hd) a
    obtain ⟨hvalue, hstate⟩ := (hcapped s s (.refl fun _ => hs)).bounded trivial
    exact ⟨fun l hl => (hvalue _ hl).size_le hpos, hstate⟩

end Expr

namespace Sample

/-- The set of both measures has two tuples, which a limit of one refuses. -/
theorem evaluate_limited_bothMeasures : 0 < 1 ∧ bothBound.hasParameter = false ∧
    ∃ c, bothBound.CompilesTo environment.cube c ∧
      let s := EvalState.start cube (.memory [⟨[amount], 5⟩]) {}
      (∃ n, 1 < n ∧ ((c.evaluate [0]).exec (environment.withLimit 1) s).1 =
        .error (.resourceLimitExceeded n 1)) ∧
      s.Bounded 1 ∧ ((c.evaluate [0]).exec (environment.withLimit 1) s).2.Bounded 1 := by
  obtain ⟨-, hset, -⟩ := bothMeasures_checks
  obtain ⟨c, hc⟩ := bothBound_bound.list_compiles hset cube Expr.anyStyles false
  let s := EvalState.start cube (.memory [⟨[amount], 5⟩]) {}
  -- without a limit there is a value, and under the limit there is none
  obtain ⟨hfree, hruns⟩ : bothBound.hasParameter = false ∧
      ((bothBound.toOperand cube).list Expr.anyStyles false).toOption.map (fun c =>
        let given (limit : Nat) := ((c.evaluate [0]).exec (environment.withLimit limit) s).1
        ((given 1).toOption.isSome, (given 0).toOption.isSome)) = some (false, true) := by
    decide +kernel
  have hs : s.Bounded 1 := EvalState.bounded_of_empty rfl 1
  have hcompiles : bothBound.CompilesTo environment.cube c := .list hset hc
  obtain ⟨hsame, hnodes⟩ := Expr.evaluate_limited Nat.one_pos hfree hcompiles
  refine ⟨Nat.one_pos, hfree, c, hcompiles, ?_, hs, (hnodes.self [0] s hs).2⟩
  rw [hc] at hruns
  obtain ⟨hlimited, hunlimited⟩ := Prod.mk.inj (Option.some.inj hruns)
  refine (hsame [0] s).resolve_right fun h => ?_
  have hsome (r : Except CalcError Value) :
      (r.map Value.unlimited).toOption.isSome = r.toOption.isSome := by
    cases r <;> rfl
  have hboth := congrArg (fun r => r.toOption.isSome) h
  simp only [hsome, hlimited, hunlimited, Bool.false_eq_true] at hboth

end Sample

end Olap
