import Olap.Evaluation.Run
import Olap.Proofs.Evaluation.Composed

/-!
# Operations are composed of their children

`Operation.run_matched`: every operation but the one that keeps results is composed of the evaluations
of its children, in the same way whatever these are and wherever it stands, in the sense of
`EvalM.Matched`. `Calc.evaluate_of_closed` is the induction over a tree that follows: what holds of
whatever is composed of actions that have it, of kept results and of nested calculations, holds of
every evaluation.
-/

set_option autoImplicit false

namespace Olap

/-! ## Nodes of a tree -/

/-- Every node of a tree satisfies `P`. -/
inductive Calc.Every (P : Calc → Prop) : Calc → Prop
  | node {info : CalcInfo} {op : Operation} {cs : List Calc} (h : P (.node info op cs))
      (hs : ∀ c ∈ cs, Calc.Every P c) : Calc.Every P (.node info op cs)

namespace Calc

variable {P Q : Calc → Prop} {c : Calc}

theorem Every.self (h : c.Every P) : P c := by
  cases h with
  | node h _ => exact h

theorem Every.child {info : CalcInfo} {op : Operation} {cs : List Calc}
    (h : (Calc.node info op cs).Every P) : ∀ c ∈ cs, c.Every P := by
  cases h with
  | node _ hs => exact hs

theorem Every.mono (h : c.Every P) (hPQ : ∀ c, P c → Q c) : c.Every Q := by
  induction h with
  | node h _ ih => exact .node (hPQ _ h) ih

section
variable {c' c'' : Calc} (h : c.Every P) (h' : c'.Every P) (h'' : c''.Every P)
include h

theorem Every.one : ∀ k ∈ [c], k.Every P := List.forall_mem_singleton.2 h

include h'

theorem Every.two : ∀ k ∈ [c, c'], k.Every P := List.forall_mem_cons.2 ⟨h, h'.one⟩

include h''

theorem Every.three : ∀ k ∈ [c, c', c''], k.Every P := List.forall_mem_cons.2 ⟨h, h'.two h''⟩

end

mutual

theorem every_of_forall (h : ∀ c, P c) : ∀ c : Calc, c.Every P
  | node _ _ cs => .node (h _) (forall_every_of_forall h cs)

theorem forall_every_of_forall (h : ∀ c, P c) : ∀ cs : List Calc, ∀ c ∈ cs, c.Every P
  | [] => by simp
  | c :: cs => List.forall_mem_cons.2 ⟨every_of_forall h c, forall_every_of_forall h cs⟩

end

theorem getElem?_evaluations (a : Address) (k : Nat) (cs : List Calc) (j : Nat) :
    (evaluations a k cs)[j]? = cs[j]?.map fun c => c.evaluate ((k + j) :: a) := by
  induction cs generalizing k j with
  | nil => rfl
  | cons c cs ih =>
    cases j with
    | zero => rfl
    | succ j =>
      rw [evaluations, List.getElem?_cons_succ, ih, List.getElem?_cons_succ]
      rw [show k + 1 + j = k + (j + 1) by omega]

theorem mem_evaluations {a : Address} {k : Nat} {cs : List Calc} {x : EvalM Value}
    (hx : x ∈ evaluations a k cs) : ∃ (j : Nat) (c : Calc), cs[j]? = some c ∧ x = c.evaluate ((k + j) :: a) := by
  obtain ⟨j, hj⟩ := List.getElem?_of_mem hx
  rw [getElem?_evaluations] at hj
  obtain ⟨c, hc, rfl⟩ := Option.map_eq_some_iff.1 hj
  exact ⟨j, c, hc, rfl⟩

end Calc

namespace EvalM.Matched

variable {env : Environment} {D : Domain} {contextual : Prop}
variable {given : EvalM Value → EvalM Value → Prop}

/-! ## Constructors -/

theorem addElement {l : TupleList} (hl : l.Within D) {v : Value} (hv : v.Within D) :
    Matched env D contextual given (EvalM.addElement l v) (EvalM.addElement l v)
      (TupleList.Within D) := by
  cases v with
  | member m => exact lift (TupleList.add_yields hl (RowWithin.nil.cons hv))
  | tuple r => exact lift (TupleList.add_yields hl hv)
  | list m => exact lift (TupleList.append_yields hl hv)
  | null => exact .pure hl
  | _ => exact .throw rfl

theorem addElements {xs ys : List (EvalM Value)}
    (hxs : List.Forall₂ (fun x y => Matched env D contextual given x y (Value.Within D)) xs ys)
    {l : TupleList} (hl : l.Within D) :
    Matched env D contextual given (EvalM.addElements l xs) (EvalM.addElements l ys)
      (TupleList.Within D) := by
  induction hxs generalizing l with
  | nil => exact .pure hl
  | cons hx _ ih => exact .bind hx fun v hv => .bind (addElement hl hv) fun l' hl' => ih hl'

theorem tupleOf {r : Row} (hr : RowWithin D r) :
    Matched env D contextual given (EvalM.tupleOf r) (EvalM.tupleOf r) (Value.Within D) := by
  unfold EvalM.tupleOf
  split
  · exact .throw rfl
  · exact .pure hr

/-! ## Catalog objects -/

theorem hierarchyOf (hD : D.Closed env.cube) (m : Member) :
    Matched env D contextual given (EvalM.hierarchyOf m) (EvalM.hierarchyOf m) D.hierarchy := by
  refine .bind .read ?_
  rintro _ rfl
  split
  · exact .pure (hD.hierarchies _ (Cube.mem_hierarchies_of_hierarchyOf? (by assumption)))
  · exact .throw rfl

theorem singleHierarchy {d : Dimension} (hd : d.Within D) :
    Matched env D contextual given (EvalM.singleHierarchy d) (EvalM.singleHierarchy d)
      D.hierarchy := by
  unfold EvalM.singleHierarchy
  rcases h : d.singleHierarchy? with _ | k
  · exact .throw rfl
  · exact .pure (hd k (Dimension.mem_of_singleHierarchy? h))

theorem catalogHierarchy (hD : D.Closed env.cube) (name : String) :
    Matched env D contextual given (EvalM.liftCatalog (env.cube.hierarchy name))
      (EvalM.liftCatalog (env.cube.hierarchy name)) D.hierarchy :=
  liftCatalog fun _ h => hD.hierarchies _ (Cube.mem_hierarchies_of_hierarchy h)

theorem targetDepth {target : DescendantsTarget} {m : Member} {xs ys : List (EvalM Value)}
    (hxs : List.Forall₂ (fun x y => Matched env D contextual given x y (Value.Within D)) xs ys) :
    Matched env D contextual given (EvalM.targetDepth target m xs) (EvalM.targetDepth target m ys)
      fun _ => True := by
  have hlevel {x y : EvalM Value} (hx : Matched env D contextual given x y (Value.Within D)) :
      Matched env D contextual given (EvalM.targetDepth .level m [x])
        (EvalM.targetDepth .level m [y]) fun _ => True :=
    .bind (asLevel hx) fun l _ => ite
      (fun _ => .bind (.throw (Q := fun _ => True) rfl) fun _ _ => .pure trivial)
      fun _ => .pure trivial
  have hdistance {x y : EvalM Value} (hx : Matched env D contextual given x y (Value.Within D)) :
      Matched env D contextual given (EvalM.targetDepth .distance m [x])
        (EvalM.targetDepth .distance m [y]) fun _ => True :=
    .bind (asInteger hx) fun n _ => ite
      (fun _ => .bind (.throw (Q := fun _ => True) rfl) fun _ _ => .pure trivial)
      fun _ => .pure trivial
  cases hxs with
  | nil => cases target <;> exact .pure trivial
  | cons hx hrest =>
    cases hrest with
    | nil =>
      cases target with
      | unbounded => exact .pure trivial
      | level => exact hlevel hx
      | distance => exact hdistance hx
    | cons _ _ => cases target <;> exact .pure trivial

theorem drillDown (hD : D.Closed env.cube) (targets : List Member) (recursive : Bool) {round : Nat}
    {ms : List Member} (hms : RowWithin D ms) :
    Matched env D contextual given (EvalM.drillDown env.cube targets recursive round ms)
      (EvalM.drillDown env.cube targets recursive round ms) (RowWithin D) := by
  induction ms generalizing round with
  | nil => exact .pure .nil
  | cons m ms ih =>
    refine .bind (.poll _) fun _ _ => ?_
    refine .bind (ih fun n hn => hms n (List.mem_cons_of_mem m hn)) fun rest hrest => ?_
    exact .pure ((hD.drillDown targets recursive (hms m List.mem_cons_self)).append hrest)

theorem adapt (hD : D.Closed env.cube) (a : Adapter) {x y : EvalM Value}
    (hx : Matched env D contextual given x y (Value.Within D)) :
    Matched env D contextual given (EvalM.adapt a x) (EvalM.adapt a y) (Value.Within D) := by
  cases a with
  | memberToTuple => exact .bind (asMember hx) fun m hm => .pure (RowWithin.nil.cons hm)
  | memberToSet => exact .bind (asMember hx) fun m hm => memberList (RowWithin.nil.cons hm)
  | tupleToSet =>
    refine .bind (asTuple hx) fun r hr => .bind resultLimit fun limit _ => ?_
    exact .bind (lift (TupleList.add_yields (TupleList.within_empty _ _) hr)) fun l hl => .pure hl
  | dimensionToHierarchy =>
    exact .bind (asDimension hx) fun d hd => .bind (singleHierarchy hd) fun h hh => .pure hh
  | levelToHierarchy =>
    refine .bind (asLevel hx) fun l _ => .bind .read ?_
    rintro _ rfl
    exact .bind (catalogHierarchy hD _) fun h hh => .pure hh
  | materialize =>
    refine .bind hx fun v hv => ?_
    split
    · exact .pure hv
    · exact .bind (lift (Value.toSource_yields hv)) fun s hs =>
        .bind (materialize hs) fun l hl => .pure hl
  | mutableCopy => exact .bind (asList hx) fun l hl => .pure hl
  | integerToDouble =>
    refine .bind (asInteger hx) fun n _ => .pure ?_
    rcases n with _ | n <;> trivial

end EvalM.Matched

/-! ## Operations -/

namespace Operation

/-- The operations that look at the context, or change it for a part of themselves. -/
def readsContext : Operation → Bool
  | currentValue | memberValue | tupleValue | currentMember | crossJoin _ | filter | nonEmpty
  | order .. | aggregate _ => true
  | count excludeEmpty => excludeEmpty
  | _ => false

/-- The values that the operation itself holds refer to members and hierarchies of the domain. -/
def Within (D : Domain) : Operation → Prop
  | constant v | parameter _ v => v.Within D
  | _ => True

def isCache : Operation → Bool
  | cache _ => true
  | _ => false

end Operation

/-- The values given for parameters refer to members and hierarchies of the domain. -/
def Environment.Within (env : Environment) (D : Domain) : Prop :=
  ∀ p ∈ env.parameters, p.2.Within D

theorem Environment.Within.getD {env : Environment} {D : Domain} (h : env.Within D) (name : String)
    {default : Value} (hd : default.Within D) :
    ((env.parameters.lookup name).getD default).Within D := by
  rcases hl : env.parameters.lookup name with _ | v
  · exact hd
  · obtain ⟨l, r, heq, -⟩ := List.lookup_eq_some_iff.1 hl
    exact h (name, v) (by simp [heq])

namespace Value

variable {D : Domain}

theorem within_double (o : Option Double) : (o.elim null double).Within D := by cases o <;> trivial

theorem within_int (o : Option Int64) : (o.elim null int).Within D := by cases o <;> trivial

theorem within_string (o : Option String) : (o.elim null string).Within D := by cases o <;> trivial

end Value

section
open EvalM EvalM.Matched

variable {env : Environment} {D : Domain} {contextual : Prop}
variable {given : EvalM Value → EvalM Value → Prop}

namespace EvalM.Matched

/-! ## Operations on two scalars -/

section
variable {x y x' y' : EvalM Value} (hx : Matched env D contextual given x x' (Value.Within D))
variable (hy : Matched env D contextual given y y' (Value.Within D)) (a b : Address)
include hx hy

theorem integerArithmetic (op : ArithmeticOp) :
    Matched env D contextual given (Operation.run a (.integerArithmetic op) [x, y])
      (Operation.run b (.integerArithmetic op) [x', y']) (Value.Within D) := by
  refine .bind (asInteger hx) fun m _ => .bind (asInteger hy) fun n _ => ?_
  split
  · exact .pure trivial
  · exact .bind (lift (op.onIntegers_yields _ _)) fun i _ =>
      .pure (Value.within_int i)

theorem doubleArithmetic (op : ArithmeticOp) :
    Matched env D contextual given (Operation.run a (.doubleArithmetic op) [x, y])
      (Operation.run b (.doubleArithmetic op) [x', y']) (Value.Within D) :=
  .bind (asDouble hx) fun _ _ => .bind (asDouble hy) fun _ _ =>
    .pure (Value.within_double _)

theorem compareNumbers (c : Comparison) :
    Matched env D contextual given (Operation.run a (.compareNumbers c) [x, y])
      (Operation.run b (.compareNumbers c) [x', y']) (Value.Within D) := by
  refine .bind (asDouble hx) fun m _ => .bind (asDouble hy) fun n _ => ?_
  split <;> exact .pure trivial

theorem compareTexts (c : Comparison) :
    Matched env D contextual given (Operation.run a (.compareTexts c) [x, y])
      (Operation.run b (.compareTexts c) [x', y']) (Value.Within D) := by
  refine .bind (asText hx) fun m _ => .bind (asText hy) fun n _ => ?_
  split <;> exact .pure trivial

theorem conjunction :
    Matched env D contextual given (Operation.run a .conjunction [x, y])
      (Operation.run b .conjunction [x', y']) (Value.Within D) :=
  .bind (asBool hx) fun _ _ =>
    ite (fun _ => .bind (asBool hy) fun _ _ => .pure trivial) fun _ => .pure trivial

theorem disjunction :
    Matched env D contextual given (Operation.run a .disjunction [x, y])
      (Operation.run b .disjunction [x', y']) (Value.Within D) :=
  .bind (asBool hx) fun _ _ =>
    ite (fun _ => .pure trivial) fun _ => .bind (asBool hy) fun _ _ => .pure trivial

/-! ## Operations on two sets -/

theorem drilldownMember (hD : D.Closed env.cube) (recursive : Bool) :
    Matched env D contextual given (Operation.run a (.drilldownMember recursive) [x, y])
      (Operation.run b (.drilldownMember recursive) [x', y']) (Value.Within D) := by
  refine .bind (asList hx) fun l hl => .bind (asList hy) fun targets _ => ?_
  have members : RowWithin D l.members.toList := fun m hm => hl m (Array.mem_toList_iff.1 hm)
  refine ite (fun _ => .bind (.throw (Q := fun _ => False) rfl) fun _ h => h.elim) fun _ => ?_
  refine .bind .read ?_
  rintro _ rfl
  exact .bind (drillDown hD _ recursive members) fun ms hms => memberList hms

theorem crossJoinValue (hc : contextual) (onDemand : Bool) :
    Matched env D contextual given (Operation.run a (.crossJoin onDemand) [x, y])
      (Operation.run b (.crossJoin onDemand) [x', y']) (Value.Within D) := by
  refine .bind (asSource hx) fun l hl => .bind (asSource hy) fun r hr => ?_
  let join (b : Bool) : EvalM Value :=
    if onDemand && !b then Pure.pure (Value.iterable (.cross l r))
    else EvalM.crossJoin l r >>= fun joined => Pure.pure (Value.list joined)
  refine .nonEmpty (f := join) (g := join) hc fun b => ?_
  exact ite (fun _ => .pure (hl.cross hr)) fun _ =>
    .bind (crossJoin hc hl hr) fun joined hj => .pure hj

theorem filter (hc : contextual) :
    Matched env D contextual given (Operation.run a .filter [x, y])
      (Operation.run b .filter [x', y']) (Value.Within D) := by
  refine .bind (asSource hx) fun s hs => ?_
  refine .bind (forEachRow hc hs fun _ _ => asBool hy) fun keep _ => ?_
  exact .bind (select hs keep) fun l hl => .pure hl

theorem nonEmptyAmong (hc : contextual) :
    Matched env D contextual given (Operation.run a .nonEmpty [x, y])
      (Operation.run b .nonEmpty [x', y']) (Value.Within D) := by
  refine .bind (asSource hx) fun s hs => .bind (asList hy) fun others ho => ?_
  refine .bind (forEachRow hc hs fun _ _ => anyFilled hc fun r hr => ho.rows hr) fun keep _ => ?_
  exact .bind (select hs keep) fun l hl => .pure hl

theorem order (hc : contextual) (hD : D.Closed env.cube) (mode : SortMode) (byText : Bool) :
    Matched env D contextual given (Operation.run a (.order mode byText) [x, y])
      (Operation.run b (.order mode byText) [x', y']) (Value.Within D) := by
  refine .bind (asList hx) fun l hl => .bind (sort hc hD mode hl ?_) fun sorted h => .pure h
  refine ite (fun _ => ?_) fun _ => ?_
  · exact .bind (asText hy) fun _ _ => .pure trivial
  · exact .bind (asDouble hy) fun _ _ => .pure trivial

theorem aggregate (hc : contextual) (f : Aggregate) :
    Matched env D contextual given (Operation.run a (.aggregate f) [x, y])
      (Operation.run b (.aggregate f) [x', y']) (Value.Within D) := by
  refine .bind (asSource hx) fun s hs => ?_
  refine .bind (forEachRow hc hs fun _ _ => asDouble hy) fun values _ => ?_
  exact .pure (Value.within_double _)

end

/-! ## Operations on one set -/

section
variable {x x' : EvalM Value} (hx : Matched env D contextual given x x' (Value.Within D))
variable {xs xs' : List (EvalM Value)} (a b : Address)
include hx

theorem nonEmptyAlone (hc : contextual) :
    Matched env D contextual given (Operation.run a .nonEmpty [x]) (Operation.run b .nonEmpty [x'])
      (Value.Within D) := by
  refine .bind (asSource hx) fun s hs => ?_
  refine .bind (forEachRow (Q := fun _ => True) hc hs fun _ _ => ?_) fun keep _ => ?_
  · exact .bind (isEmptyCell hc) fun _ _ => .pure trivial
  · exact .bind (select hs keep) fun l hl => .pure hl

theorem head
    (hxs : List.Forall₂ (fun x y => Matched env D contextual given x y (Value.Within D)) xs xs') :
    Matched env D contextual given (Operation.run a .head (x :: xs))
      (Operation.run b .head (x' :: xs')) (Value.Within D) := by
  refine .bind (asList hx) fun l hl => ?_
  have hcut (n : Nat) : (Value.list (if l.size ≤ n then l else l.subList 0 n)).Within D := by
    split
    · exact hl
    · exact hl.subList 0 n
  cases hxs with
  | nil => exact .bind (P := fun _ => True) (.pure trivial) fun n _ => .pure (hcut n)
  | cons hy _ =>
    refine .bind (asInteger hy) fun n _ => ?_
    exact .bind (P := fun _ => True) (.pure trivial) fun n _ => .pure (hcut n)

theorem count (excludeEmpty : Bool) (hc : excludeEmpty = true → contextual) :
    Matched env D contextual given (Operation.run a (.count excludeEmpty) (x :: xs))
      (Operation.run b (.count excludeEmpty) (x' :: xs')) (Value.Within D) := by
  refine .bind (asSource hx) fun s hs => ite (fun h => ?_) fun _ => .pure trivial
  refine .bind (forEachRow (Q := fun _ => True) (hc h) hs fun _ _ => ?_) fun _ _ => .pure trivial
  exact isEmptyCell (hc h)

/-! ## Catalog objects -/

theorem levelMembers (hD : D.Closed env.cube) :
    Matched env D contextual given (Operation.run a .levelMembers (x :: xs))
      (Operation.run b .levelMembers (x' :: xs')) (Value.Within D) := by
  refine .bind (asLevel hx) fun l _ => .bind .read ?_
  rintro _ rfl
  refine .bind (catalogHierarchy hD _) fun h hh => memberList fun m hm => ?_
  exact hD.members h hh m (h.levelMembers_subset_members l hm)

theorem dimensionOf (hD : D.Closed env.cube) :
    Matched env D contextual given (Operation.run a .dimensionOf (x :: xs))
      (Operation.run b .dimensionOf (x' :: xs')) (Value.Within D) := by
  refine .bind (asHierarchy hx) fun h _ => .bind .read ?_
  rintro _ rfl
  refine .bind (P := Dimension.Within D) (liftCatalog fun d hd => ?_) fun d hd => .pure hd
  exact hD.dimension (Cube.mem_dimensions_of_dimension hd)

theorem descendants (hD : D.Closed env.cube) (target : DescendantsTarget) (flag : DescendantsFlag)
    (hxs : List.Forall₂ (fun x y => Matched env D contextual given x y (Value.Within D)) xs xs') :
    Matched env D contextual given (Operation.run a (.descendants target flag) (x :: xs))
      (Operation.run b (.descendants target flag) (x' :: xs')) (Value.Within D) := by
  refine .bind (asMember hx) fun m hm => .bind (targetDepth hxs) fun depth _ => .bind .read ?_
  rintro _ rfl
  exact memberList (hD.descendants hm depth flag)

theorem toBoolean :
    Matched env D contextual given (Operation.run a .toBoolean (x :: xs))
      (Operation.run b .toBoolean (x' :: xs')) (Value.Within D) := by
  refine .bind hx fun v _ => ?_
  split
  · exact .pure trivial
  · exact .bind (lift (Value.toBool_yields _)) fun _ _ => .pure trivial

theorem integerNegation :
    Matched env D contextual given (Operation.run a .integerNegation (x :: xs))
      (Operation.run b .integerNegation (x' :: xs')) (Value.Within D) := by
  refine .bind (asInteger hx) fun n _ => ?_
  split
  · exact .pure trivial
  · exact .bind (lift (negateInteger_yields _)) fun _ _ => .pure trivial

end

theorem sequence {xs ys : List (EvalM Value)}
    (hxs : List.Forall₂ (fun x y => Matched env D contextual given x y (Value.Within D)) xs ys)
    {v : Value} (hv : v.Within D) :
    Matched env D contextual given (xs.foldlM (fun _ x => x) v) (ys.foldlM (fun _ x => x) v)
      (Value.Within D) := by
  induction hxs generalizing v with
  | nil => exact .pure hv
  | cons hx _ ih =>
    rw [List.foldlM_cons, List.foldlM_cons]
    exact .bind hx fun v hv => ih hv

end EvalM.Matched

/-! ## All operations -/

/-- Every operation but the one that keeps results is composed of the evaluations of its children in
the same way, whatever these are and wherever it stands. -/
theorem Operation.run_matched {op : Operation} {xs ys : List (EvalM Value)} (a b : Address)
    (hD : D.Closed env.cube) (henv : env.Within D) (hop : op.Within D)
    (hcache : op.isCache = false) (hc : op.readsContext = true → contextual)
    (hxs : List.Forall₂ (fun x y => Matched env D contextual given x y (Value.Within D)) xs ys) :
    Matched env D contextual given (op.run a xs) (op.run b ys) (Value.Within D) := by
  -- operations without operands, or with any number of them
  cases op
  case constant => exact .pure hop
  case parameter name _ =>
    refine .bind .read ?_
    rintro _ rfl
    exact .pure (henv.getD name hop)
  case sequence => exact EvalM.Matched.sequence hxs trivial
  case currentValue => exact .currentCell (hc rfl)
  case memberValue =>
    exact .bind (asMembers hxs) fun r hr => .withRow (hc rfl) hr (.currentCell (hc rfl))
  case set =>
    refine .bind resultLimit fun limit _ => ?_
    exact .bind (addElements hxs (TupleList.within_empty _ _)) fun l hl => .pure hl
  case tuple => exact .bind (asMembers hxs) fun r hr => tupleOf hr
  -- all others have a first operand
  all_goals
    rcases hxs with _ | ⟨hx, hrest⟩
    · exact .throw rfl
  case tupleValue =>
    exact .bind (asTuple hx) fun r hr => .withRow (hc rfl) hr (.currentCell (hc rfl))
  case currentMember =>
    exact .bind (asHierarchy hx) fun h hh => .bind (.currentMember (hc rfl) hh) fun m hm => .pure hm
  case adapt => exact EvalM.Matched.adapt hD _ hx
  case cache => cases hcache
  case toBoolean => exact EvalM.Matched.toBoolean hx a b
  case toNumber =>
    exact .bind (asDouble hx) fun n _ => .pure (Value.within_double n)
  case toInteger =>
    exact .bind (asInteger hx) fun n _ => .pure (Value.within_int n)
  case toText => exact .bind (asText hx) fun s _ => .pure (Value.within_string s)
  case hierarchyOf =>
    exact .bind (asMember hx) fun m _ => .bind (EvalM.Matched.hierarchyOf hD m) fun h hh => .pure hh
  case dimensionOf => exact EvalM.Matched.dimensionOf hx a b hD
  case integerNegation => exact EvalM.Matched.integerNegation hx a b
  case doubleNegation =>
    exact .bind (asDouble hx) fun n _ => .pure (Value.within_double _)
  case negation => exact .bind (asBool hx) fun _ _ => .pure trivial
  case levelMembers => exact EvalM.Matched.levelMembers hx a b hD
  case hierarchyMembers =>
    exact .bind (asHierarchy hx) fun h hh => memberList fun m hm => hD.members h hh m hm
  case children =>
    refine .bind (asMember hx) fun m _ => .bind .read ?_
    rintro _ rfl
    exact memberList (hD.children m)
  case parent =>
    refine .bind (asMember hx) fun m hm => .pure ?_
    rcases hp : m.parent? with _ | p
    · trivial
    · exact hD.parent hm hp
  case descendants => exact EvalM.Matched.descendants hx a b hD _ _ hrest
  case head => exact EvalM.Matched.head hx a b hrest
  case count => exact EvalM.Matched.count hx a b _ hc
  -- what is left takes two operands, or three
  all_goals
    rcases hrest with _ | ⟨hy, hrest⟩
    · first | exact .throw rfl | exact nonEmptyAlone hx a b (hc rfl)
  case choice =>
    rcases hrest with _ | ⟨hz, _ | ⟨_, _⟩⟩
    · exact .throw rfl
    · exact .bind (asBool hx) fun b _ => ite (fun _ => hy) fun _ => hz
    · exact .throw rfl
  all_goals
    rcases hrest with _ | ⟨_, _⟩
    rotate_left
    · exact .throw rfl
  case integerArithmetic => exact EvalM.Matched.integerArithmetic hx hy a b _
  case doubleArithmetic => exact EvalM.Matched.doubleArithmetic hx hy a b _
  case compareNumbers => exact EvalM.Matched.compareNumbers hx hy a b _
  case compareTexts => exact EvalM.Matched.compareTexts hx hy a b _
  case conjunction => exact EvalM.Matched.conjunction hx hy a b
  case disjunction => exact EvalM.Matched.disjunction hx hy a b
  case drilldownMember => exact EvalM.Matched.drilldownMember hx hy a b hD _
  case crossJoin => exact crossJoinValue hx hy a b (hc rfl) _
  case filter => exact EvalM.Matched.filter hx hy a b (hc rfl)
  case nonEmpty => exact nonEmptyAmong hx hy a b (hc rfl)
  case order => exact EvalM.Matched.order hx hy a b (hc rfl) hD _ _
  case aggregate => exact EvalM.Matched.aggregate hx hy a b (hc rfl) _

end

section
open EvalM

variable {env : Environment} {D : Domain} {contextual : Prop} {given : EvalM Value → Prop}

/-- Every operation but the one that keeps results is composed of the evaluations of its children. -/
theorem Operation.run_composed {op : Operation} {xs : List (EvalM Value)} (a : Address)
    (hD : D.Closed env.cube) (henv : env.Within D) (hop : op.Within D)
    (hcache : op.isCache = false) (hc : op.readsContext = true → contextual)
    (hxs : ∀ x ∈ xs, Composed env D contextual given x (Value.Within D)) :
    Composed env D contextual given (op.run a xs) (Value.Within D) :=
  .of_matched (op.run_matched a a hD henv hop hcache hc
    (List.forall₂_same.2 fun x hx => (hxs x hx).matched))

/-- The values that the operations of a tree hold refer to members and hierarchies of the domain. -/
def Calc.Within (D : Domain) (c : Calc) : Prop := c.Every fun c => c.operation.Within D

/-- What is closed under composition, kept results and nesting holds of every evaluation. -/
theorem Calc.evaluate_of_closed {P : EvalM Value → Prop} (hD : D.Closed env.cube)
    (henv : env.Within D)
    (hcomposed : ∀ x, Composed env D True P x (Value.Within D) → P x)
    (hcached : ∀ a os x, P x → P (EvalM.cached a os x))
    (hcalculation : ∀ a x, P x → P (EvalM.calculation a x))
    {c : Calc} (hc : c.Within D) (a : Address) : P (c.evaluate a) := by
  induction hc generalizing a with
  | @node info op cs hop hcs ih =>
    have hxs : ∀ x ∈ evaluations a 0 cs, P x := by
      intro x hx
      obtain ⟨j, c, hc, rfl⟩ := mem_evaluations hx
      exact ih c (List.mem_of_getElem? hc) _
    rw [evaluate]
    refine hcalculation a _ ?_
    cases hcache : op.isCache with
    | false =>
      exact hcomposed _ (op.run_composed a hD henv hop hcache (fun _ => trivial) fun x hx =>
        .given (hxs x hx))
    | true =>
      cases op with
      | cache os =>
        rcases hx : evaluations a 0 cs with _ | ⟨x, xs⟩
        · exact hcomposed _ (.throw rfl)
        · exact hcached a os x (hxs x (hx ▸ List.mem_cons_self))
      | _ => cases hcache

end

end Olap
