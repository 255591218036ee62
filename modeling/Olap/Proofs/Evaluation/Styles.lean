import Olap.Proofs.Evaluation.Rendering

/-!
# Operations give their results in one style

`ResultStyle.Admits` says what a calculation of a style may give. All operations but those that hand on
what a child, a parameter or the kept results give have a style of their own (`Operation.style?`), in
which they give every result, whatever their children give (`Operation.run_renders`). They want some
children as lists (`Operation.wantsList`), and those have to give lists if no list is to be wanted in
vain.
-/

set_option autoImplicit false

namespace Olap

/-! ## Styles -/

namespace ResultStyle

/-- What a calculation of the style may give. -/
def Admits : ResultStyle → Value → Prop
  | value, v => v.isSet = false
  | valueNotNull, v => v.isSet = false ∧ v ≠ .null
  | list, v | mutableList, v => ∃ l, v = .list l
  | iterable, v => v.isSet = true
  | any, _ => True

theorem admits_constantStyle (v : Value) : (Calc.constantStyle v).Admits v := by
  cases v with
  | null => rfl
  | list l => exact ⟨l, rfl⟩
  | iterable s => rfl
  | _ => exact ⟨rfl, nofun⟩

end ResultStyle

namespace Operation

/-- The style in which an operation gives its results, if that is its own. -/
def style? : Operation → Option ResultStyle
  | constant v => some (Calc.constantStyle v)
  | parameter .. | sequence | cache _ | choice => none
  | currentMember | count _ | tuple => some .valueNotNull
  | adapt a => some a.style
  | levelMembers | hierarchyMembers | children | descendants .. | drilldownMember _ | filter | nonEmpty
  | head => some .list
  | order .. | set _ => some .mutableList
  | crossJoin onDemand => some (if onDemand then .iterable else .list)
  | _ => some .value

/-- The places of the children that the operation wants as lists. -/
def wantsList : Operation → Nat → Bool
  | adapt .mutableCopy, k | head, k | order .., k => k == 0
  | drilldownMember _, k => k == 0 || k == 1
  | nonEmpty, k => k == 1
  | _, _ => false

end Operation

/-! ## Operations -/

namespace EvalM.Renders

variable {kept : CacheKey → Value → Prop} {x y : EvalM Value} {a : Address}

theorem isSet_elim {α : Type} (o : Option α) {f : α → Value} (hf : ∀ a, (f a).isSet = false) :
    (o.elim .null f).isSet = false := by
  cases o with
  | none => rfl
  | some a => exact hf a

/-- An action that ends in a list gives a list. -/
theorem giveList {y : EvalM TupleList} {Q : TupleList → Prop} (hy : Renders kept y Q) :
    Renders kept (y >>= fun l => Pure.pure (Value.list l)) fun v => ∃ l, v = .list l :=
  hy.bind fun l _ => pure ⟨l, rfl⟩

section
variable (hx : Renders kept x fun _ => True)
include hx

theorem adapt (ad : Adapter) (hlist : ad = .mutableCopy → Renders kept x fun v => ∃ l, v = .list l) :
    Renders kept (EvalM.adapt ad x) ad.style.Admits := by
  cases ad with
  | memberToTuple => exact hx.asMember.bind fun m _ => pure rfl
  | memberToSet => exact hx.asMember.bind fun m _ => memberList _
  | tupleToSet =>
    refine hx.asTuple.bind fun r _ => resultLimit.bind fun limit _ => ?_
    exact giveList (lift (TupleList.add_wantsNoList r))
  | dimensionToHierarchy =>
    exact hx.asDimension.bind fun d _ => (singleHierarchy d).bind fun h _ => pure rfl
  | levelToHierarchy =>
    refine hx.asLevel.bind fun l _ => read.bind fun env _ => ?_
    exact (liftCatalog _).bind fun h _ => pure rfl
  | materialize =>
    refine hx.bind fun v _ => ?_
    split
    · exact pure ⟨_, rfl⟩
    · exact (lift (Value.toSource_wantsNoList _)).bind fun s _ => giveList (materialize s)
  | mutableCopy => exact giveList (hlist rfl).asList
  | integerToDouble => exact hx.asInteger.bind fun n _ => pure (isSet_elim _ fun _ => rfl)

theorem run_toBoolean (xs : List (EvalM Value)) :
    Renders kept (Operation.run a .toBoolean (x :: xs)) fun v => v.isSet = false := by
  refine hx.bind fun v _ => ?_
  split
  · exact pure rfl
  · exact (lift (Value.toBool_wantsNoList _)).bind fun b _ => pure rfl

theorem run_integerNegation (xs : List (EvalM Value)) :
    Renders kept (Operation.run a .integerNegation (x :: xs)) fun v => v.isSet = false := by
  refine hx.asInteger.bind fun n _ => ?_
  split
  · exact pure rfl
  · rename_i i
    have hnegated : WantsNoList (negateInteger i) := by
      unfold negateInteger
      split
      · exact .ok _
      · exact .error rfl
    exact (lift hnegated).bind fun j _ => pure rfl

theorem run_descendants (target : DescendantsTarget) (flag : DescendantsFlag)
    {xs : List (EvalM Value)} (hxs : ∀ y ∈ xs, Renders kept y fun _ => True) :
    Renders kept (Operation.run a (.descendants target flag) (x :: xs)) fun v => ∃ l, v = .list l := by
  refine hx.asMember.bind fun m _ => (targetDepth target m hxs).bind fun depth _ => ?_
  exact read.bind fun env _ => memberList _

theorem run_count (excludeEmpty : Bool) (xs : List (EvalM Value)) :
    Renders kept (Operation.run a (.count excludeEmpty) (x :: xs))
      fun v => v.isSet = false ∧ v ≠ .null := by
  refine hx.asSource.bind fun s _ => ite (fun _ => ?_) fun _ => pure ⟨rfl, nofun⟩
  exact (forEachRow s fun _ => isEmptyCell).bind fun _ _ => pure ⟨rfl, nofun⟩

theorem run_nonEmpty :
    Renders kept (Operation.run a .nonEmpty [x]) fun v => ∃ l, v = .list l := by
  refine hx.asSource.bind fun s _ => (forEachRow s fun _ => ?_).bind fun keep _ => ?_
  · exact isEmptyCell.bind fun _ _ => pure trivial
  · exact giveList (select s keep)

theorem run_nonEmptyAmong (hy : Renders kept y fun v => ∃ l, v = .list l) :
    Renders kept (Operation.run a .nonEmpty [x, y]) fun v => ∃ l, v = .list l := by
  refine hx.asSource.bind fun s _ => hy.asList.bind fun others _ => ?_
  exact (forEachRow s fun _ => anyFilled _).bind fun keep _ => giveList (select s keep)

variable (hy : Renders kept y fun _ => True)
include hy

theorem run_integerArithmetic (op : ArithmeticOp) :
    Renders kept (Operation.run a (.integerArithmetic op) [x, y]) fun v => v.isSet = false := by
  refine hx.asInteger.bind fun m _ => hy.asInteger.bind fun n _ => ?_
  split
  · exact pure rfl
  · rename_i i j _
    have hresult : WantsNoList (op.onIntegers i j) := by
      unfold ArithmeticOp.onIntegers
      split
      · exact .ok _
      · split
        · exact .ok _
        · exact .error rfl
    exact (lift hresult).bind fun _ _ => pure (isSet_elim _ fun _ => rfl)

theorem run_doubleArithmetic (op : ArithmeticOp) :
    Renders kept (Operation.run a (.doubleArithmetic op) [x, y]) fun v => v.isSet = false :=
  hx.asDouble.bind fun _ _ => hy.asDouble.bind fun _ _ => pure (isSet_elim _ fun _ => rfl)

theorem run_compareNumbers (c : Comparison) :
    Renders kept (Operation.run a (.compareNumbers c) [x, y]) fun v => v.isSet = false := by
  refine hx.asDouble.bind fun m _ => hy.asDouble.bind fun n _ => ?_
  split <;> exact pure rfl

theorem run_compareTexts (c : Comparison) :
    Renders kept (Operation.run a (.compareTexts c) [x, y]) fun v => v.isSet = false := by
  refine hx.asText.bind fun m _ => hy.asText.bind fun n _ => ?_
  split <;> exact pure rfl

theorem run_conjunction :
    Renders kept (Operation.run a .conjunction [x, y]) fun v => v.isSet = false :=
  hx.asBool.bind fun _ _ => ite (fun _ => hy.asBool.bind fun _ _ => pure rfl) fun _ => pure rfl

theorem run_disjunction :
    Renders kept (Operation.run a .disjunction [x, y]) fun v => v.isSet = false :=
  hx.asBool.bind fun _ _ => ite (fun _ => pure rfl) fun _ => hy.asBool.bind fun _ _ => pure rfl

/-- A cross join that need not be produced on demand is a list. -/
theorem run_crossJoin (onDemand : Bool) :
    Renders kept (Operation.run a (.crossJoin onDemand) [x, y])
      (if onDemand then ResultStyle.iterable else .list).Admits := by
  refine hx.asSource.bind fun l _ => hy.asSource.bind fun r _ => ?_
  refine nonEmpty (f := fun b =>
    if onDemand && !b then Pure.pure (Value.iterable (.cross l r))
    else EvalM.crossJoin l r >>= fun joined => Pure.pure (Value.list joined)) fun b => ?_
  refine ite (fun h => pure ?_) fun _ => (crossJoin l r).bind fun joined _ => pure ?_
  · rw [(Bool.and_eq_true_iff.1 h).1]
    rfl
  · cases onDemand with
    | false => exact ⟨joined, rfl⟩
    | true => rfl

theorem run_filter :
    Renders kept (Operation.run a .filter [x, y]) fun v => ∃ l, v = .list l :=
  hx.asSource.bind fun s _ => (forEachRow s fun _ => hy.asBool).bind fun keep _ =>
    giveList (select s keep)

theorem run_aggregate (f : Aggregate) :
    Renders kept (Operation.run a (.aggregate f) [x, y]) fun v => v.isSet = false :=
  hx.asSource.bind fun s _ => (forEachRow s fun _ => hy.asDouble).bind fun _ _ =>
    pure (isSet_elim _ fun _ => rfl)

end

/-! ## Operations on lists -/

section
variable (hx : Renders kept x fun v => ∃ l, v = .list l)
include hx

theorem run_head {xs : List (EvalM Value)} (hxs : ∀ y ∈ xs, Renders kept y fun _ => True) :
    Renders kept (Operation.run a .head (x :: xs)) fun v => ∃ l, v = .list l := by
  refine hx.asList.bind fun l _ => ?_
  rcases xs with _ | ⟨y, xs⟩
  · exact bind (P := fun _ => True) (pure trivial) fun n _ => pure ⟨_, rfl⟩
  · refine (hxs y List.mem_cons_self).asInteger.bind fun n _ => ?_
    exact bind (P := fun _ => True) (pure trivial) fun n _ => pure ⟨_, rfl⟩

theorem run_order (hy : Renders kept y fun _ => True) (mode : SortMode) (byText : Bool) :
    Renders kept (Operation.run a (.order mode byText) [x, y]) fun v => ∃ l, v = .list l := by
  refine hx.asList.bind fun l _ => giveList (sort ?_ mode l)
  refine ite (fun _ => ?_) fun _ => ?_
  · exact hy.asText.bind fun _ _ => pure trivial
  · exact hy.asDouble.bind fun _ _ => pure trivial

theorem run_drilldownMember (hy : Renders kept y fun v => ∃ l, v = .list l) (recursive : Bool) :
    Renders kept (Operation.run a (.drilldownMember recursive) [x, y]) fun v => ∃ l, v = .list l := by
  refine hx.asList.bind fun l _ => hy.asList.bind fun targets _ => ?_
  refine ite (fun _ => (throw (Q := fun _ => False) rfl).bind fun _ h => h.elim) fun _ => ?_
  exact read.bind fun env _ => (drillDown _ _ _ _ _).bind fun ms _ => memberList ms

end

/-! ## Operations that hand on results -/

/-- A choice gives what one of its branches gives. -/
theorem run_choice {xs : List (EvalM Value)} {Q : Value → Prop}
    (hxs : ∀ x ∈ xs, Renders kept x fun _ => True)
    (hbranches : ∀ k ∈ [1, 2], ∀ x, xs[k]? = some x → Renders kept x Q) :
    Renders kept (Operation.run a .choice xs) Q := by
  rcases xs with _ | ⟨x, _ | ⟨y, _ | ⟨z, _ | ⟨_, _⟩⟩⟩⟩
  · exact throw rfl
  · exact throw rfl
  · exact throw rfl
  · refine (hxs x List.mem_cons_self).asBool.bind fun b _ => ite (fun _ => ?_) fun _ => ?_
    · exact hbranches 1 (by simp) y rfl
    · exact hbranches 2 (by simp) z rfl
  · exact throw rfl

theorem run_cache {xs : List (EvalM Value)} {os : List Nat} {Q : Value → Prop}
    (hkept : ∀ b names v, kept (a, b, names) v ↔ Q v)
    (hchild : ∀ k ∈ [0], ∀ x, xs[k]? = some x → Renders kept x Q) :
    Renders kept (Operation.run a (.cache os) xs) Q := by
  rcases xs with _ | ⟨x, xs⟩
  · exact throw rfl
  · exact cached hkept (hchild 0 List.mem_cons_self x rfl)

end EvalM.Renders

/-! ## All operations -/

open EvalM EvalM.Renders in
/-- An operation with a style of its own gives every result in it, if the children that it wants as
lists give lists. -/
theorem Operation.run_renders {kept : CacheKey → Value → Prop} {op : Operation} {style : ResultStyle}
    (hstyle : op.style? = some style) {xs : List (EvalM Value)}
    (hxs : ∀ x ∈ xs, Renders kept x fun _ => True)
    (hlists : ∀ k x, xs[k]? = some x → op.wantsList k = true → Renders kept x fun v => ∃ l, v = .list l)
    (a : Address) : Renders kept (op.run a xs) style.Admits := by
  -- operations without operands, or with any number of them
  cases op
  all_goals cases hstyle
  case constant v => exact .pure (ResultStyle.admits_constantStyle v)
  case currentValue => exact .currentCell
  case memberValue => exact (asMembers hxs).bind fun r _ => withRow r .currentCell
  case set =>
    exact EvalM.Renders.resultLimit.bind fun limit _ => giveList (addElements hxs _)
  case tuple =>
    refine (asMembers hxs).bind fun r _ => (EvalM.Renders.tupleOf r).mono ?_
    rintro _ ⟨r, rfl⟩
    exact ⟨rfl, nofun⟩
  -- all others have a first operand
  all_goals
    rcases xs with _ | ⟨x, xs⟩
    · exact .throw rfl
    obtain ⟨hx, hxs⟩ := List.forall_mem_cons.1 hxs
  case tupleValue => exact hx.asTuple.bind fun r _ => withRow r .currentCell
  case currentMember =>
    exact hx.asHierarchy.bind fun h _ => (EvalM.Renders.currentMember h).bind fun m _ =>
      .pure ⟨rfl, nofun⟩
  case adapt => exact EvalM.Renders.adapt hx _ fun h => hlists 0 x rfl (by rw [h]; rfl)
  case toBoolean => exact run_toBoolean hx xs
  case toNumber => exact hx.asDouble.bind fun n _ => .pure (isSet_elim n fun _ => rfl)
  case toInteger => exact hx.asInteger.bind fun n _ => .pure (isSet_elim n fun _ => rfl)
  case toText => exact hx.asText.bind fun s _ => .pure (isSet_elim s fun _ => rfl)
  case hierarchyOf =>
    exact hx.asMember.bind fun m _ => (EvalM.Renders.hierarchyOf m).bind fun h _ => .pure rfl
  case dimensionOf =>
    refine hx.asHierarchy.bind fun h _ => EvalM.Renders.read.bind fun env _ => ?_
    exact (EvalM.Renders.liftCatalog _).bind fun d _ => .pure rfl
  case integerNegation => exact run_integerNegation hx xs
  case doubleNegation => exact hx.asDouble.bind fun n _ => .pure (isSet_elim _ fun _ => rfl)
  case negation => exact hx.asBool.bind fun _ _ => .pure rfl
  case levelMembers =>
    refine hx.asLevel.bind fun l _ => EvalM.Renders.read.bind fun env _ => ?_
    exact (EvalM.Renders.liftCatalog _).bind fun h _ => memberList _
  case hierarchyMembers => exact hx.asHierarchy.bind fun h _ => memberList _
  case children =>
    exact hx.asMember.bind fun m _ => EvalM.Renders.read.bind fun env _ => memberList _
  case parent => exact hx.asMember.bind fun m _ => .pure (isSet_elim _ fun _ => rfl)
  case descendants => exact run_descendants hx _ _ hxs
  case head => exact run_head (hlists 0 x rfl rfl) hxs
  case count => exact run_count hx _ xs
  -- what is left takes two operands
  all_goals
    rcases xs with _ | ⟨y, xs⟩
    · first | exact .throw rfl | exact run_nonEmpty hx
    rcases xs with _ | ⟨_, _⟩
    rotate_left
    · exact .throw rfl
    have hy := hxs y List.mem_cons_self
  case integerArithmetic => exact run_integerArithmetic hx hy _
  case doubleArithmetic => exact run_doubleArithmetic hx hy _
  case compareNumbers => exact run_compareNumbers hx hy _
  case compareTexts => exact run_compareTexts hx hy _
  case conjunction => exact run_conjunction hx hy
  case disjunction => exact run_disjunction hx hy
  case drilldownMember => exact run_drilldownMember (hlists 0 x rfl rfl) (hlists 1 y rfl rfl) _
  case crossJoin => exact run_crossJoin hx hy _
  case filter => exact run_filter hx hy
  case nonEmpty => exact run_nonEmptyAmong hx (hlists 1 y rfl rfl)
  case order => exact run_order (hlists 0 x rfl rfl) hy _ _
  case aggregate => exact run_aggregate hx hy _

end Olap
