import Olap.Proofs.Calc.Total
import Olap.Proofs.Calc.WellFormed

/-!
# Styles do not matter but to joins

What a caller accepts decides only whether a cross join is produced on demand or in full: every other
bound expression compiles to one tree, whatever styles are accepted, and a set to one that holds it in
full (`Expr.Bound.fixed_or_joins`). So the trees that a set compiles to for callers who want it on
demand, in full, or as their own differ in their roots only (`Expr.Bound.renderings`).
-/

set_option autoImplicit false

namespace Olap

namespace Calc

/-- The join of two sets, produced on demand or in full. -/
def joined (type : ExprType) (onDemand : Bool) (l r : Calc) : Calc :=
  (plain "CrossJoin" type (.crossJoin onDemand) [l, r]).withStyle
    (if onDemand then .iterable else .list)

/-- The tree gives a set that is held in full. -/
def IsHeld (c : Calc) : Prop := c.style = .list ∨ c.style = .mutableList

theorem isHeld_plain {name : String} {type : ExprType} {op : Operation} {cs : List Calc}
    (h : type.isSet = true) : (plain name type op cs).IsHeld :=
  .inl (if_pos h)

theorem isHeld_withRule {c : Calc} {rule : DependencyRule} (h : c.IsHeld) :
    (c.withRule rule).IsHeld := h

/-- Where a list is wanted, nothing is produced on demand. -/
theorem restyle_isHeld (c : Calc) (owned : Bool) :
    Produces IsHeld (c.restyle (if owned then [.mutableList] else [.list, .mutableList])) := by
  intro d hd
  unfold restyle at hd
  cases owned <;> rcases hs : c.style <;> rw [hs] at hd <;> cases hd
  · exact .inl hs
  · exact .inr hs
  · exact .inl rfl
  · exact .inr rfl
  · exact .inr hs
  · exact .inr rfl

end Calc

/-! ## Operands -/

namespace Operand

/-- The operand compiles to the same tree, whatever styles are accepted. -/
def Uniform (o : Operand) : Prop := ∀ styles others, o.compile styles = o.compile others

/-- The operand is a join of two sets, which is produced on demand where that is accepted. -/
def Joins (o : Operand) : Prop :=
  ∃ (type : ExprType) (left right : Except CalcError Calc), ∀ styles, o.compile styles = do
    let l ← left
    let r ← right
    return .joined type (styles.contains .iterable || styles.contains .any) l r

/-- The styles that are accepted matter only if the operand is a set. -/
def Settled (o : Operand) : Prop := o.type.isSet = false → o.Uniform

namespace Settled

variable {o : Operand} (ho : o.Settled) (styles others : List ResultStyle)
include ho

theorem isSet_or_eq : (∃ t, o.type = .set t) ∨ o.compile styles = o.compile others := by
  cases hset : o.type.isSet with
  | false => exact .inr (ho hset styles others)
  | true => exact .inl (ExprType.eq_set_of_isSet hset)

theorem hierarchy : o.hierarchy styles = o.hierarchy others := by
  unfold Operand.hierarchy
  obtain ⟨t, ht⟩ | h := ho.isSet_or_eq styles others
  · simp only [ht]
  · rw [h]

theorem member : o.member styles = o.member others := by
  unfold Operand.member
  obtain ⟨t, ht⟩ | h := ho.isSet_or_eq styles others
  · simp only [ht]
  · rw [h, ho.hierarchy styles others]

theorem level : o.level styles = o.level others := by
  unfold Operand.level
  obtain ⟨t, ht⟩ | h := ho.isSet_or_eq styles others
  · simp only [ht]
  · rw [h]

theorem tuple : o.tuple styles = o.tuple others := by
  unfold Operand.tuple
  obtain ⟨t, ht⟩ | h := ho.isSet_or_eq styles others
  · simp only [ht]
  · rw [h, ho.member styles others]

theorem scalar : o.scalar styles = o.scalar others := by
  unfold Operand.scalar
  obtain ⟨t, ht⟩ | h := ho.isSet_or_eq styles others
  · simp only [ht]
  · rw [h, ho.member styles others]

theorem double : o.double styles = o.double others := by
  unfold Operand.double
  rw [ho.scalar styles others]

theorem list (owned : Bool) : o.list styles owned = o.list others owned := by
  unfold Operand.list
  obtain ⟨t, ht⟩ | h := ho.isSet_or_eq styles others
  · simp only [ht]
  · rw [h, ho.member styles others]

theorem iterable : o.iterable styles = o.iterable others := by
  unfold Operand.iterable
  rw [ho.list styles others false]

end Settled

theorem list_isHeld (o : Operand) (styles : List ResultStyle) (owned : Bool) :
    Produces Calc.IsHeld (o.list styles owned) := by
  unfold Operand.list
  split
  · exact Produces.anything.bind fun c _ => c.restyle_isHeld owned
  · exact Produces.anything.bind fun _ _ => .ok (.inr rfl)
  · exact Produces.anything.bind fun _ _ => .ok (.inr rfl)
  · exact Produces.anything.bind fun _ _ => .ok (.inr rfl)
  · exact Produces.anything.bind fun _ _ => .ok (.inr rfl)
  · exact .error

/-- A conversion does not look at the styles that are accepted. -/
theorem Settled.converted {o : Operand} (ho : o.Settled) {t : ExprType} {kind : ConversionKind}
    (h : Converts o.type.category t.category kind) (styles others : List ResultStyle) :
    o.converted t kind styles = o.converted t kind others := by
  have hcompile (hne : o.type.category ≠ .set) : o.compile styles = o.compile others := by
    refine ho ?_ styles others
    rw [ExprType.isSet_eq]
    exact beq_eq_false_iff_ne.2 hne
  generalize hsource : o.type.category = p, t.category = q at h
  rw [hsource] at hcompile
  unfold Operand.converted
  cases h with
  | numericPromotion => rw [hcompile nofun]
  | toNumber => rw [ho.scalar styles others]
  | toLogical _ => rw [ho.scalar styles others]
  | nullToScalar _ => rfl
  | scalarToValue hc => exact hcompile (by rintro rfl; cases hc)
  | valueToScalar _ => rw [ho.scalar styles others]
  | cellValue _ _ => exact ho.scalar styles others
  | memberToTuple => exact ho.tuple styles others
  | toSet _ => exact ho.list styles others false
  | currentMember _ => exact ho.member styles others
  | dimensionToHierarchy => exact ho.hierarchy styles others
  | levelToHierarchy => exact ho.hierarchy styles others

end Operand

/-! ## Calls -/

namespace BoundCall

variable {c : BoundCall} {styles others : List ResultStyle}

theorem operand_congr {α : Type} {f g : Operand → Except CalcError α} (k : Nat)
    (h : ∀ o ∈ c.operands, f o = g o) : (c.operand k >>= f) = (c.operand k >>= g) := by
  unfold operand
  split
  · exact h _ (List.mem_of_getElem? (by assumption))
  · rfl

theorem mapM_congr {α β : Type} {f g : α → Except CalcError β} {l : List α}
    (h : ∀ a ∈ l, f a = g a) : l.mapM f = l.mapM g := by
  induction l with
  | nil => rfl
  | cons a l ih =>
    obtain ⟨ha, hl⟩ := List.forall_mem_cons.1 h
    rw [List.mapM_cons, List.mapM_cons, ha, ih hl]

section
variable (hc : ∀ o ∈ c.operands, o.Settled)
include hc

theorem arithmetic_congr (op : ArithmeticOp) : c.arithmetic op styles = c.arithmetic op others := by
  refine operand_congr 0 fun l hl => operand_congr 1 fun r hr => ?_
  rw [(hc l hl).scalar styles others, (hc r hr).scalar styles others,
    (hc l hl).double styles others, (hc r hr).double styles others]

theorem negate_congr : c.negate styles = c.negate others := by
  refine operand_congr 0 fun o ho => ?_
  rw [(hc o ho).scalar styles others, (hc o ho).double styles others]

theorem compare_congr (op : Comparison) : c.compare op styles = c.compare op others := by
  refine operand_congr 0 fun l hl => operand_congr 1 fun r hr => ?_
  rw [(hc l hl).scalar styles others, (hc r hr).scalar styles others,
    (hc l hl).double styles others, (hc r hr).double styles others]

theorem logical_congr (name : String) (op : Operation) :
    c.logical name op styles = c.logical name op others := by
  refine operand_congr 0 fun l hl => ?_
  rw [(hc l hl).scalar styles others]
  refine bind_congr fun x => operand_congr 1 fun r hr => ?_
  rw [(hc r hr).scalar styles others]

theorem choice_congr : c.choice styles = c.choice others := by
  refine operand_congr 0 fun o ho => ?_
  rw [(hc o ho).scalar styles others]
  refine bind_congr fun condition => operand_congr 1 fun o ho => ?_
  beta_reduce
  rw [(hc o ho).member styles others, (hc o ho).list styles others, (hc o ho).scalar styles others]
  refine bind_congr fun yes => operand_congr 2 fun o ho => ?_
  rw [(hc o ho).member styles others, (hc o ho).list styles others, (hc o ho).scalar styles others]

theorem members_congr : c.members styles = c.members others := by
  refine operand_congr 0 fun o ho => ?_
  rw [(hc o ho).level styles others, (hc o ho).hierarchy styles others]

theorem descendantsLimit_congr : c.descendantsLimit styles = c.descendantsLimit others := by
  unfold descendantsLimit
  cases c.descendantsTarget with
  | level => exact operand_congr 1 fun o ho => by rw [(hc o ho).level styles others]
  | distance => exact operand_congr 1 fun o ho => by rw [(hc o ho).scalar styles others]
  | unbounded => rfl

theorem descendants_congr : c.descendants styles = c.descendants others := by
  rw [descendants_eq, descendants_eq]
  refine operand_congr 0 fun o ho => ?_
  rw [(hc o ho).member styles others, descendantsLimit_congr hc]

theorem drilldownMember_congr : c.drilldownMember styles = c.drilldownMember others := by
  refine operand_congr 0 fun o ho => ?_
  rw [(hc o ho).list styles others]
  refine bind_congr fun set => operand_congr 1 fun o ho => ?_
  rw [(hc o ho).list styles others]

theorem filter_congr : c.filter styles = c.filter others := by
  refine operand_congr 0 fun o ho => ?_
  rw [(hc o ho).iterable styles others]
  refine bind_congr fun set => operand_congr 1 fun o ho => ?_
  rw [(hc o ho).scalar styles others]

theorem nonEmpty_congr : c.nonEmpty styles = c.nonEmpty others := by
  refine operand_congr 0 fun o ho => ?_
  rw [(hc o ho).iterable styles others]
  refine bind_congr fun set => ?_
  split
  · refine operand_congr 1 fun o ho => ?_
    rw [(hc o ho).list styles others]
  · rfl

theorem head_congr : c.head styles = c.head others := by
  refine operand_congr 0 fun o ho => ?_
  rw [(hc o ho).list styles others]
  refine bind_congr fun set => ?_
  split
  · refine operand_congr 1 fun o ho => ?_
    rw [(hc o ho).scalar styles others]
  · rfl

theorem count_congr : c.count styles = c.count others := by
  refine bind_congr fun word => operand_congr 0 fun o ho => ?_
  rw [(hc o ho).iterable styles others]

theorem order_congr : c.order styles = c.order others := by
  rw [order_eq, order_eq]
  refine bind_congr fun mode => operand_congr 0 fun o ho => ?_
  rw [(hc o ho).list styles others]
  refine bind_congr fun set => operand_congr 1 fun o ho => ?_
  rw [(hc o ho).scalar styles others, (hc o ho).double styles others]

theorem set_congr : c.set styles = c.set others := by
  have helement (o : Operand) (ho : o ∈ c.operands) : element styles o = element others o := by
    unfold element
    rw [(hc o ho).list styles others, (hc o ho).tuple styles others, (hc o ho).member styles others]
  unfold set
  rw [mapM_congr helement]

theorem tuple_congr (hlen : c.operands.length ≠ 1) : c.tuple styles = c.tuple others := by
  unfold tuple
  split
  · rename_i o heq
    exact absurd (congrArg List.length heq) hlen
  · rw [mapM_congr fun o ho => (hc o ho).member styles others]

theorem aggregate_congr (a : Aggregate) : c.aggregate a styles = c.aggregate a others := by
  refine operand_congr 0 fun o ho => ?_
  rw [(hc o ho).iterable styles others]
  refine bind_congr fun set => ?_
  split
  · rename_i o heq
    rw [(hc o (List.mem_of_getElem? heq)).double styles others]
  · rfl

theorem cache_congr (cube : Cube) : c.cache cube styles = c.cache cube others := by
  refine operand_congr 0 fun o ho => ?_
  rw [(hc o ho).list styles others, (hc o ho).scalar styles others]

/-- A call that is neither a join nor a group compiles to the same tree, whatever styles are
accepted. -/
theorem compile_congr {cube : Cube} (hjoin : c.definition.body ≠ .crossJoin)
    (hgroup : c.definition.body = .tuple → c.operands.length ≠ 1) :
    c.compile cube styles = c.compile cube others := by
  unfold BoundCall.compile
  split
  · exact arithmetic_congr hc _
  · exact negate_congr hc
  · exact compare_congr hc _
  · exact logical_congr hc _ _
  · exact logical_congr hc _ _
  · exact operand_congr 0 fun o ho => by rw [(hc o ho).scalar styles others]
  · exact choice_congr hc
  · exact operand_congr 0 fun o ho => by rw [(hc o ho).hierarchy styles others]
  · exact members_congr hc
  · exact operand_congr 0 fun o ho => by rw [(hc o ho).member styles others]
  · exact operand_congr 0 fun o ho => by rw [(hc o ho).member styles others]
  · exact descendants_congr hc
  · exact drilldownMember_congr hc
  · exact absurd (by assumption) hjoin
  · exact filter_congr hc
  · exact nonEmpty_congr hc
  · exact head_congr hc
  · exact count_congr hc
  · exact order_congr hc
  · exact set_congr hc
  · exact tuple_congr hc (hgroup (by assumption))
  · exact aggregate_congr hc _
  · exact cache_congr hc cube
  · exact operand_congr 0 fun o ho => (hc o ho).scalar styles others
  · rfl

/-- The operands of a join compile to the same trees, whatever styles are accepted for the join. -/
theorem crossJoin_eq : ∃ left right : Except CalcError Calc, ∀ styles, c.crossJoin styles = do
    let l ← left
    let r ← right
    return .joined c.type (styles.contains .iterable || styles.contains .any) l r := by
  refine ⟨c.operand 0 >>= fun o => o.iterable [], c.operand 1 >>= fun o => o.iterable [],
    fun styles => ?_⟩
  rw [bind_assoc]
  refine operand_congr 0 fun o ho => ?_
  rw [(hc o ho).iterable styles []]
  refine bind_congr fun l => ?_
  rw [bind_assoc]
  refine operand_congr 1 fun o ho => ?_
  rw [(hc o ho).iterable styles []]
  rfl

end

/-! ### Sets in full -/

theorem produces_after {α β : Type} {P : β → Prop} {x : Except CalcError α}
    {f : α → Except CalcError β} (hf : ∀ a, Produces P (f a)) : Produces P (x >>= f) :=
  Produces.anything.bind fun a _ => hf a

theorem descendants_isHeld (hset : c.type.isSet = true) :
    Produces Calc.IsHeld (c.descendants styles) := by
  rw [descendants_eq]
  exact produces_after fun o => produces_after fun m => produces_after fun flag =>
    produces_after fun rest => .ok (Calc.isHeld_plain hset)

theorem order_isHeld : Produces Calc.IsHeld (c.order styles) := by
  rw [order_eq]
  refine produces_after fun mode => produces_after fun o => produces_after fun set =>
    produces_after fun o => ?_
  split <;> exact produces_after fun key => .ok (.inr rfl)

/-- A call whose value is a set gives it in full, unless it is a join or a group. -/
theorem compile_isHeld {cube : Cube} (hd : c.definition.Standard) (hset : c.type.isSet = true)
    (hresult : c.definition.signature.result = .set) (hjoin : c.definition.body ≠ .crossJoin)
    (hoperands : c.operands.map (·.type.category) = c.definition.signature.parameters) :
    Produces Calc.IsHeld (c.compile cube styles) := by
  have hplain {name : String} {op : Operation} {cs : List Calc} :
      (Calc.plain name c.type op cs).IsHeld := Calc.isHeld_plain hset
  obtain ⟨⟨⟨name, form, result, parameters⟩, description, reserved, rule, body⟩, t, os⟩ := c
  change Shape body parameters result rule reserved at hd
  change result = .set at hresult
  change body ≠ .crossJoin at hjoin
  cases hd with
  | arithmetic _ hc => rcases hc with rfl | rfl <;> cases hresult
  | negate hc => rcases hc with rfl | rfl <;> cases hresult
  | choice _ =>
    refine produces_after fun o => produces_after fun condition => ?_
    refine produces_after fun o => produces_after fun yes => ?_
    exact produces_after fun o => produces_after fun no => .ok hplain
  | members _ =>
    refine produces_after fun o => ?_
    split <;> exact produces_after fun x => .ok hplain
  | children => exact produces_after fun o => produces_after fun m => .ok hplain
  | descendants _ => exact descendants_isHeld hset
  | drilldownMember _ =>
    refine produces_after fun o => produces_after fun set => ?_
    refine produces_after fun o => produces_after fun targets => ?_
    exact produces_after fun word => .ok (Calc.isHeld_withRule hplain)
  | crossJoin => exact absurd rfl hjoin
  | filter =>
    refine produces_after fun o => produces_after fun set => ?_
    exact produces_after fun o => produces_after fun condition => .ok (Calc.isHeld_withRule hplain)
  | nonEmpty _ =>
    refine produces_after fun o => produces_after fun set => ?_
    split
    · exact produces_after fun o => produces_after fun others => .ok (Calc.isHeld_withRule hplain)
    · exact .ok (Calc.isHeld_withRule hplain)
  | head _ =>
    refine produces_after fun o => produces_after fun set => ?_
    split
    · exact produces_after fun o => produces_after fun count => .ok hplain
    · exact .ok hplain
  | order _ _ => exact order_isHeld
  | set _ => exact produces_after fun elements => .ok (.inr rfl)
  | cache _ =>
    -- the operand is a set, which is kept in full
    cases hresult
    obtain ⟨o, rfl, ho⟩ := List.map_eq_singleton_iff.1 hoperands
    show Produces Calc.IsHeld (do
      let inner ← if o.type.isSet then o.list styles else o.scalar styles
      return inner.cached cube)
    rw [ExprType.isSet_eq, ho, if_pos (by decide)]
    exact (o.list_isHeld styles false).bind fun inner hinner => .ok hinner
  | _ => cases hresult

end BoundCall

/-! ## Expressions -/

theorem Definition.Standard.result_of_crossJoin {d : Definition} (hd : d.Standard)
    (hbody : d.body = .crossJoin) : d.signature.result = .set := by
  obtain ⟨⟨name, form, result, parameters⟩, description, reserved, rule, body⟩ := d
  change Shape body parameters result rule reserved at hd
  change body = .crossJoin at hbody
  subst hbody
  cases hd with
  | crossJoin => rfl

namespace Operand

/-- The operand compiles to the same tree, whatever styles are accepted, and a set to one that holds it
in full. -/
def Fixed (o : Operand) : Prop :=
  o.Uniform ∧ (o.type.isSet = true → ∀ styles, Produces Calc.IsHeld (o.compile styles))

end Operand

namespace Expr

variable {cube : Cube} {e : Expr}

theorem fixed_leaf {c : Calc} (h : ∀ styles, e.compile cube styles = .ok c)
    (hset : e.type.isSet = false) : (e.toOperand cube).Fixed := by
  refine ⟨fun styles others => (h styles).trans (h others).symm, fun htrue => ?_⟩
  exact Bool.noConfusion (hset.symm.trans htrue)

/-- The expression compiles to the same tree, whatever styles are accepted, or is a join. -/
def FixedOrJoins (cube : Cube) (e : Expr) : Prop :=
  (e.toOperand cube).Fixed ∨ e.type.isSet = true ∧ (e.toOperand cube).Joins

theorem settled (h : e.FixedOrJoins cube) : (e.toOperand cube).Settled := by
  intro hset
  rcases h with h | ⟨hjoin, -⟩
  · exact h.1
  · exact Bool.noConfusion (hset.symm.trans hjoin)

/-- A call is fixed or a join if its operands are; a group is what its element is. -/
theorem FixedOrJoins.call {d : Definition} {args : List Expr} (hd : d.Standard)
    (hcat : args.map (fun e => e.type.category) = d.signature.parameters)
    (hargs : ∀ e ∈ args, e.FixedOrJoins cube) :
    (Expr.bound d (d.resultType (args.map Expr.type)) args).FixedOrJoins cube := by
  have hoperands : ∀ o ∈ operands cube args, o.Settled := by
    rw [operands_eq_map]
    exact List.forall_mem_map.2 fun e he => settled (hargs e he)
  by_cases hgroup : d.IsGroup
  · -- a group compiles as its element
    obtain ⟨-, e, rfl, htype⟩ := hd.resultType_group hgroup hcat
    have hcompile (styles : List ResultStyle) :
        (Expr.bound d (d.resultType ([e].map Expr.type)) [e]).compile cube styles =
          e.compile cube styles := by
      show BoundCall.compile ⟨d, _, operands cube [e]⟩ cube styles = _
      rw [BoundCall.compile, hgroup.1]
      rfl
    rcases hargs e List.mem_cons_self with ⟨huniform, hheld⟩ | ⟨hset, type, left, right, hjoin⟩
    · refine .inl ⟨fun styles others => ?_, fun hset styles => ?_⟩
      · exact (hcompile styles).trans ((huniform styles others).trans (hcompile others).symm)
      · show Produces Calc.IsHeld (Expr.compile cube _ styles)
        rw [hcompile]
        exact hheld ((congrArg ExprType.isSet htype).symm.trans hset) styles
    · refine .inr ⟨htype.symm ▸ hset, type, left, right, fun styles => ?_⟩
      exact (hcompile styles).trans (hjoin styles)
  · have hresult := hd.category_resultType hgroup hcat
    by_cases hbody : d.body = .crossJoin
    · have hset := hd.result_of_crossJoin hbody
      obtain ⟨left, right, hjoin⟩ :=
        BoundCall.crossJoin_eq (c := ⟨d, d.resultType (args.map Expr.type), _⟩) hoperands
      refine .inr ⟨?_, d.resultType (args.map Expr.type), left, right, fun styles => ?_⟩
      · show (d.resultType (args.map Expr.type)).isSet = true
        rw [ExprType.isSet_eq, hresult, hset]
        rfl
      · show BoundCall.compile ⟨d, _, operands cube args⟩ cube styles = _
        rw [BoundCall.compile, hbody]
        exact hjoin styles
    · refine .inl ⟨fun styles others => ?_, fun hset styles => ?_⟩
      · refine BoundCall.compile_congr hoperands hbody fun htuple hlen => hgroup ⟨htuple, ?_⟩
        rw [← hcat, List.length_map]
        rwa [operands_eq_map, List.length_map] at hlen
      · refine BoundCall.compile_isHeld hd hset ?_ hbody ?_
        · rw [ExprType.isSet_eq, beq_iff_eq] at hset
          exact hresult.symm.trans hset
        · show (operands cube args).map (·.type.category) = _
          rw [operands_eq_map, List.map_map]
          exact hcat

theorem FixedOrJoins.convert {p : Category} (he : e.FixedOrJoins cube) (hne : e.type.category ≠ p)
    (hcost : (e.type.category.conversionCost? p).isSome) :
    (Expr.convert e (e.type.convertedTo p) (e.type.category.conversionTo p)).FixedOrJoins cube := by
  have hconverts := Category.converts hne hcost
  refine .inl ⟨fun styles others => ?_, fun hset styles => ?_⟩
  · refine (settled he).converted ?_ styles others
    rw [convertedTo_category]
    exact hconverts
  · change (e.type.convertedTo p).isSet = true at hset
    rw [ExprType.isSet_eq, convertedTo_category, beq_iff_eq] at hset
    subst hset
    show Produces Calc.IsHeld (Operand.converted (e.toOperand cube) _ _ styles)
    generalize e.type.category = c, e.type.category.conversionTo .set = kind at hconverts
    cases hconverts with
    | toSet _ => exact (e.toOperand cube).list_isHeld styles false
    | nullToScalar hp => cases hp
    | valueToScalar hp => exact absurd hp (by decide)
    | cellValue _ hp => exact absurd hp (by decide)

theorem FixedOrJoins.passedTo {p : Category} (he : e.FixedOrJoins cube) (hp : e.Passes p) :
    (e.passedTo p).FixedOrJoins cube := by
  unfold Expr.passedTo
  split
  · exact he
  · rename_i hne
    exact he.convert hne hp.1

theorem fixedOrJoins_literal (l : Literal) : (literal l).FixedOrJoins cube :=
  .inl (fixed_leaf (fun _ => rfl) (by cases l <;> rfl))

theorem fixedOrJoins_parameter (p : Parameter) : (parameter p).FixedOrJoins cube := by
  refine .inl ⟨fun _ _ => rfl, fun hset styles => ?_⟩
  exact .ok (Calc.isHeld_withRule (Calc.isHeld_plain hset))

/-- A bound expression compiles to the same tree, whatever styles are accepted, or is a join. -/
theorem Bound.fixed_or_joins (he : e.Bound) :
    (e.toOperand cube).Fixed ∨ e.type.isSet = true ∧ (e.toOperand cube).Joins := by
  show e.FixedOrJoins cube
  induction he with
  | literal l => exact fixedOrJoins_literal l
  | member m => exact .inl (fixed_leaf (fun _ => rfl) rfl)
  | level l => exact .inl (fixed_leaf (fun _ => rfl) rfl)
  | hierarchy h => exact .inl (fixed_leaf (fun _ => rfl) rfl)
  | dimension d => exact .inl (fixed_leaf (fun _ => rfl) rfl)
  | call hd hcat _ _ ih => exact .call hd hcat ih
  | convert _ hne hcost _ ih => exact ih.convert hne hcost

/-! ## Expressions as they were written -/

open ValidateM (Gives)

theorem passed_fixedOrJoins {args : List Expr} {ps : List Category}
    (h : List.Forall₂ Passes args ps) (hargs : ∀ e ∈ args, e.FixedOrJoins cube) :
    ∀ e ∈ List.zipWith Expr.passedTo args ps, e.FixedOrJoins cube := by
  induction h with
  | nil => exact List.forall_mem_nil _
  | cons hp _ ih =>
    obtain ⟨he, hes⟩ := List.forall_mem_cons.1 hargs
    exact List.forall_mem_cons.2 ⟨he.passedTo hp, ih hes⟩

theorem bind_fixedOrJoins {name : String} {form : CallForm} {args : List Expr}
    (hargs : ∀ e ∈ args, e.FixedOrJoins cube) :
    Produces (FixedOrJoins cube) (FunctionTable.builtin.bind name form args) := by
  intro e he
  obtain ⟨d, args', hres, -, rfl⟩ := FunctionTable.bind_eq_ok_iff.1 he
  obtain ⟨⟨r, hr, hd⟩, rfl, hpasses⟩ := FunctionTable.resolveCall_passes hres
  exact .call (FunctionTable.allStandard_builtin r hr _ d hd) (passed_categories hpasses)
    (passed_fixedOrJoins hpasses hargs)

mutual

theorem validate_fixedOrJoins_gives : ∀ e : Expr, e.isUnbound = true →
    Gives (FixedOrJoins cube) (e.validate .builtin)
  | call _ _ args, hu =>
    (validateAll_fixedOrJoins_gives args hu).bind fun _ h => .lift (bind_fixedOrJoins h)
  | parameter p, _ => Gives.bind .anything fun _ _ => .pure (fixedOrJoins_parameter p)
  | bound .., hu => nomatch hu
  | convert .., hu => nomatch hu
  | literal l, _ => .pure (fixedOrJoins_literal l)
  | member _, _ => .pure (.inl (fixed_leaf (fun _ => rfl) rfl))
  | level _, _ => .pure (.inl (fixed_leaf (fun _ => rfl) rfl))
  | hierarchy _, _ => .pure (.inl (fixed_leaf (fun _ => rfl) rfl))
  | dimension _, _ => .pure (.inl (fixed_leaf (fun _ => rfl) rfl))

theorem validateAll_fixedOrJoins_gives : ∀ es : List Expr, allUnbound es = true →
    Gives (fun es => ∀ e ∈ es, FixedOrJoins cube e) (validateAll .builtin es)
  | [], _ => .pure (List.forall_mem_nil _)
  | e :: es, hu => by
    rw [allUnbound, Bool.and_eq_true] at hu
    exact (validate_fixedOrJoins_gives e hu.1).bind fun _ h =>
      (validateAll_fixedOrJoins_gives es hu.2).bind fun _ h' =>
        .pure (List.forall_mem_cons.2 ⟨h, h'⟩)

end

/-- An expression as it was written, parameters included, compiles to the same tree whatever styles are
accepted, or is a join, once it has been validated. -/
theorem validate_fixedOrJoins {source : Expr} {registry : ParameterRegistry}
    (hu : source.isUnbound = true)
    (h : ((source.validate .builtin).run registry).1 = .ok e) : e.FixedOrJoins cube :=
  validate_fixedOrJoins_gives source hu registry e h

/-! ## Trees for different callers -/

/-- The trees of a set for callers who want it on demand, in full, or as their own: a join differs in
its root, anything else only in that it is copied. -/
theorem FixedOrJoins.renderings {c₁ c₂ c₃ : Calc} {styles₁ styles₂ styles₃ : List ResultStyle}
    (he : e.FixedOrJoins cube) (hset : e.type.isSet = true)
    (h₁ : (e.toOperand cube).iterable styles₁ = .ok c₁)
    (h₂ : (e.toOperand cube).list styles₂ false = .ok c₂)
    (h₃ : (e.toOperand cube).list styles₃ true = .ok c₃) :
    (c₁ = c₂ ∨ ∃ type l r, c₁ = .joined type true l r ∧ c₂ = .joined type false l r) ∧
      (c₃ = c₂ ∨ c₃ = .adapted .mutableCopy c₂ c₂.type) := by
  obtain ⟨t, ht⟩ := ExprType.eq_set_of_isSet hset
  change (e.toOperand cube).type = .set t at ht
  simp only [Operand.iterable, Operand.list, ht] at h₁ h₂ h₃
  rcases he with ⟨huniform, hheld⟩ | ⟨-, type, left, right, hjoin⟩
  · rw [Operand.compileAs, huniform _ []] at h₁ h₂ h₃
    obtain ⟨c, hc, h₁⟩ := bind_eq_ok.1 h₁
    rw [hc] at h₂ h₃
    change c.restyle [.list, .mutableList] = .ok c₂ at h₂
    change c.restyle [.mutableList] = .ok c₃ at h₃
    unfold Calc.restyle at h₁ h₂ h₃
    rcases hheld hset [] c hc with hstyle | hstyle
    all_goals
      rw [hstyle] at h₁ h₂ h₃
      cases h₁
      cases h₂
      cases h₃
    · exact ⟨.inl rfl, .inr rfl⟩
    · exact ⟨.inl rfl, .inl rfl⟩
  · rw [Operand.compileAs, hjoin] at h₁ h₂ h₃
    rcases left with err | l
    · cases h₁
    rcases right with err | r
    · cases h₁
    cases h₁
    cases h₂
    cases h₃
    exact ⟨.inr ⟨type, l, r, rfl, rfl⟩, .inr rfl⟩

/-- The trees of a bound set for different callers. -/
theorem Bound.renderings {c₁ c₂ c₃ : Calc} {styles₁ styles₂ styles₃ : List ResultStyle}
    (he : e.Bound) (hset : e.type.isSet = true)
    (h₁ : (e.toOperand cube).iterable styles₁ = .ok c₁)
    (h₂ : (e.toOperand cube).list styles₂ false = .ok c₂)
    (h₃ : (e.toOperand cube).list styles₃ true = .ok c₃) :
    (c₁ = c₂ ∨ ∃ type l r, c₁ = .joined type true l r ∧ c₂ = .joined type false l r) ∧
      (c₃ = c₂ ∨ c₃ = .adapted .mutableCopy c₂ c₂.type) :=
  FixedOrJoins.renderings he.fixed_or_joins hset h₁ h₂ h₃

end Expr

end Olap
