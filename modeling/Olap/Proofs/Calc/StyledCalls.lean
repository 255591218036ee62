import Olap.Proofs.Calc.Compile
import Olap.Proofs.Calc.Styled
import Olap.Proofs.Evaluation.Limits

/-!
# Compiling gives styled trees

The nodes of a call take their style from its type, so that the type has to be that of a set exactly if
the function gives one (`Definition.givesSet`); likewise for conversions
(`ConversionKind.givesSet`). In an expression in which that holds throughout no set goes by another
name (`Expr.namesSets`), and all its trees are styled (`Expr.honest`). Validation gives such
expressions from closed ones (`Expr.Bound.namesSets`).
-/

set_option autoImplicit false

namespace Olap

/-- Whether a call of the function, with arguments of the given types, gives a set. -/
def Definition.givesSet (d : Definition) (arguments : List ExprType) : Bool :=
  match d.body with
  | .members | .children | .descendants | .drilldownMember | .crossJoin | .filter | .nonEmpty | .head
  | .order | .set => true
  | .choice => d.signature.result == .set
  | .tuple => arguments.length == 1 && arguments.all ExprType.isSet
  | .cache => arguments.head?.any ExprType.isSet
  | _ => false

/-- Whether the conversion of an operand of the given type gives a set. -/
def ConversionKind.givesSet (kind : ConversionKind) (operand : ExprType) : Bool :=
  match kind with
  | identity | scalarToValue => operand.isSet
  | toSet => true
  | _ => false

/-! ## Conversions -/

open Calc in
theorem Operand.Honest.converted {o : Operand} (ho : o.Honest) {target : ExprType}
    {kind : ConversionKind} (hset : target.isSet = kind.givesSet o.type)
    (styles : List ResultStyle) : Produces (Fits target) (o.converted target kind styles) := by
  unfold Operand.converted
  split
  · exact (ho styles).mono fun _ h => h.congr hset
  · exact (ho styles).mono fun _ h => h.congr hset
  · exact (ho styles).bind fun c h => .ok ((single_adapted rfl h.tree _).fits _)
  · refine (ho.scalar styles).bind fun c h => .ok (Single.fits ?_ _)
    split <;> exact single_node rfl (.inl rfl) h.tree.one
  · exact .ok ((single_constant (.inl rfl) target).fits _)
  · refine (ho.scalar styles).bind fun c h => .ok (Single.fits ?_ _)
    split <;> exact single_node rfl (.inl rfl) h.tree.one
  · exact (ho.scalar styles).mono fun _ h => h.fits _
  · exact (ho.tuple styles).mono fun _ h => h.fits _
  · exact (ho.list styles).mono fun _ h => fits_of_isSet h.tree hset
  · exact (ho.member styles).mono fun _ h => h.fits _
  · exact (ho.hierarchy styles).mono fun _ h => h.fits _
  · exact (ho.hierarchy styles).mono fun _ h => h.fits _
  · exact .error

/-! ## Calls -/

namespace BoundCall

open Calc

variable {c : BoundCall} {styles : List ResultStyle}

/-- A node with the style of a set in full. -/
theorem styled_setNode {info : CalcInfo} {op : Operation} {cs : List Calc}
    (hset : c.type.isSet = true) (hinfo : info.style = defaultStyle c.type)
    (hstyle : op.style? = some .list)
    (hlists : ∀ k d, cs[k]? = some d → op.wantsList k = true → d.IsHeld)
    (hcs : ∀ k ∈ cs, k.Every Styled) : (Calc.node info op cs).Every Styled := by
  refine styled_node ?_ hlists hcs
  rw [hstyle, hinfo, defaultStyle_of_isSet hset]

/-- A node that wants its first child as a list, if any. -/
theorem lists_first {op : Operation} {x : Calc} {cs : List Calc} (hx : x.IsHeld)
    (hrest : ∀ k, op.wantsList (k + 1) = false) :
    ∀ k d, (x :: cs)[k]? = some d → op.wantsList k = true → d.IsHeld := by
  intro k d hd hwants
  cases k with
  | zero =>
    cases hd
    exact hx
  | succ k => cases (hrest k).symm.trans hwants

/-- A node that wants its second child as a list, and perhaps the first one. -/
theorem lists_second {op : Operation} {x y : Calc} {cs : List Calc}
    (hx : op.wantsList 0 = true → x.IsHeld) (hy : y.IsHeld)
    (hrest : ∀ k, op.wantsList (k + 2) = false) :
    ∀ k d, (x :: y :: cs)[k]? = some d → op.wantsList k = true → d.IsHeld := by
  intro k d hd hwants
  rcases k with _ | _ | k
  · cases hd
    exact hx hwants
  · cases hd
    exact hy
  · cases (hrest k).symm.trans hwants

theorem styled_choice {info : CalcInfo} {x y z : Calc} (hx : x.Every Styled) (hy : y.Every Styled)
    (hz : z.Every Styled) (hyes : y.style.Refines info.style) (hno : z.style.Refines info.style) :
    (Calc.node info .choice [x, y, z]).Every Styled := by
  refine .node ⟨nofun, fun _ => ⟨nofun, fun k hk d hd => ?_⟩, nofun⟩ (hx.three hy hz)
  change k ∈ [1, 2] at hk
  rcases List.mem_pair.1 hk with rfl | rfl
  · cases hd
    exact hyes
  · cases hd
    exact hno

theorem styled_cached {k : Calc} (hk : k.Every Styled) (cube : Cube) : (k.cached cube).Every Styled := by
  refine .node ⟨nofun, fun _ => ⟨nofun, fun j hj d hd => ?_⟩, nofun⟩ hk.one
  obtain rfl : j = 0 := List.mem_singleton.1 hj
  cases hd
  exact fun _ h => h

section
variable (hc : ∀ o ∈ c.operands, o.Honest)
include hc

/-! ### Operators -/

theorem arithmetic_single (op : ArithmeticOp) : Produces Single (c.arithmetic op styles) := by
  refine (operand_produces hc 0).bind fun l hl => (operand_produces hc 1).bind fun r hr => ?_
  split
  · exact (hl.scalar styles).bind fun x hx => (hr.scalar styles).bind fun y hy =>
      .ok (single_node rfl (.inl rfl) (hx.tree.two hy.tree))
  · exact (hl.double styles).bind fun x hx => (hr.double styles).bind fun y hy =>
      .ok (single_node rfl (.inl rfl) (hx.tree.two hy.tree))

theorem negate_single : Produces Single (c.negate styles) := by
  refine (operand_produces hc 0).bind fun o ho => ?_
  split
  · exact (ho.scalar styles).bind fun x hx => .ok (single_node rfl (.inl rfl) hx.tree.one)
  · exact (ho.double styles).bind fun x hx => .ok (single_node rfl (.inl rfl) hx.tree.one)

theorem compare_single (op : Comparison) : Produces Single (c.compare op styles) := by
  refine (operand_produces hc 0).bind fun l hl => (operand_produces hc 1).bind fun r hr => ?_
  split
  · exact (hl.scalar styles).bind fun x hx => (hr.scalar styles).bind fun y hy =>
      .ok (single_node rfl (.inl rfl) (hx.tree.two hy.tree))
  · exact (hl.double styles).bind fun x hx => (hr.double styles).bind fun y hy =>
      .ok (single_node rfl (.inl rfl) (hx.tree.two hy.tree))

theorem logical_single {op : Operation} (name : String) (hop : op.style? = some .value) :
    Produces Single (c.logical name op styles) := by
  refine (operand_produces hc 0).bind fun l hl => (hl.scalar styles).bind fun x hx => ?_
  refine (operand_produces hc 1).bind fun r hr => (hr.scalar styles).bind fun y hy => ?_
  exact .ok (single_node hop (.inl rfl) (hx.tree.two hy.tree))

omit hc in
/-- A branch of a choice is a set in full or a single value, as the type of the choice says. -/
theorem branch_styled (hset : c.type.isSet = (c.definition.signature.result == .set)) {o : Operand}
    (ho : o.Honest) :
    Produces (fun k => k.Every Styled ∧ k.style.Refines (defaultStyle c.type))
      (match c.definition.signature.result with
        | .member => o.member styles
        | .set => o.list styles
        | _ => o.scalar styles) := by
  generalize c.definition.signature.result = result at hset
  split
  · rw [defaultStyle_of_not_isSet hset]
    exact (ho.member styles).mono fun k h => ⟨h.tree, h.refines_value⟩
  · rw [defaultStyle_of_isSet hset]
    exact (ho.list styles).mono fun k h => ⟨h.tree, h.refines_list⟩
  · rename_i hne
    rw [defaultStyle_of_not_isSet (hset.trans (beq_eq_false_iff_ne.2 hne))]
    exact (ho.scalar styles).mono fun k h => ⟨h.tree, h.refines_value⟩

theorem choice_fits (hset : c.type.isSet = (c.definition.signature.result == .set)) :
    Produces (Fits c.type) (c.choice styles) := by
  refine (operand_produces hc 0).bind fun o ho => (ho.scalar styles).bind fun x hx => ?_
  refine (operand_produces hc 1).bind fun o ho => (branch_styled hset ho).bind fun y hy => ?_
  refine (operand_produces hc 2).bind fun o ho => (branch_styled hset ho).bind fun z hz => .ok ?_
  exact ⟨styled_choice hx.tree hy.1 hz.1 hy.2 hz.2, fun h => .inl (defaultStyle_of_not_isSet h)⟩

theorem parent_single (hset : c.type.isSet = false) : Produces Single (do
    return .plain "Parent" c.type .parent [← (← c.operand 0).member styles]) := by
  refine (operand_produces hc 0).bind fun o ho => (ho.member styles).bind fun x hx => .ok ?_
  have hstyle := defaultStyle_of_not_isSet hset
  exact single_node (congrArg some hstyle.symm) (.inl hstyle) hx.tree.one

theorem count_single : Produces Single (c.count styles) := by
  refine Produces.anything.bind fun word _ => ?_
  refine (operand_produces hc 0).bind fun o ho => (ho.iterable styles).bind fun x hx => ?_
  exact .ok (single_node rfl (.inr rfl) hx.one)

theorem aggregate_single (a : Aggregate) (hset : c.type.isSet = false) :
    Produces Single (c.aggregate a styles) := by
  have hstyle := defaultStyle_of_not_isSet hset
  refine (operand_produces hc 0).bind fun o ho => (ho.iterable styles).bind fun x hx => ?_
  have hnode (y : Calc) (hy : y.Every Styled) :
      ((Calc.plain c.name c.type (.aggregate a) [x, y]).withRule .allButFirst).Single :=
    single_node (congrArg some hstyle.symm) (.inl hstyle) (hx.two hy)
  split
  · rename_i o heq
    exact ((hc o (List.mem_of_getElem? heq)).double styles).bind fun y hy => .ok (hnode y hy.tree)
  · exact .ok (hnode _ (styled_node rfl nofun (List.forall_mem_nil _)))

/-- A single operand is only grouped. -/
theorem tuple_fits (hset : ∀ o, c.operands = [o] → c.type.isSet = o.type.isSet) :
    Produces (Fits c.type) (c.tuple styles) := by
  unfold tuple
  split
  · rename_i o heq
    exact (hc o (heq ▸ List.mem_cons_self) styles).mono fun _ h => h.congr (hset o heq)
  · refine (Produces.mapM fun o ho => (hc o ho).member styles).bind fun cs hcs => .ok ?_
    exact (single_node rfl (.inr rfl) fun k hk => (hcs k hk).tree).fits _

theorem cache_fits {cube : Cube}
    (hset : ∀ o, c.operands.head? = some o → c.type.isSet = o.type.isSet) :
    Produces (Fits c.type) (c.cache cube styles) := by
  have hoperand : Produces (fun o => o.Honest ∧ c.type.isSet = o.type.isSet) (c.operand 0) := by
    unfold operand
    split
    · rename_i o heq
      exact .ok ⟨hc o (List.mem_of_getElem? heq), hset o (List.head?_eq_getElem?.trans heq)⟩
    · exact .error
  refine hoperand.bind fun o ho => ?_
  obtain ⟨ho, htype⟩ := ho
  split
  · rename_i htrue
    exact (ho.list styles).bind fun k hk =>
      .ok (fits_of_isSet (styled_cached hk.tree cube) (htype.trans htrue))
  · exact (ho.scalar styles).bind fun k hk =>
      .ok ⟨styled_cached hk.tree cube, fun _ => hk.single⟩

/-! ### Functions that give sets -/

section
variable (hset : c.type.isSet = true)
include hset

theorem members_styled : Produces (Every Styled) (c.members styles) := by
  refine (operand_produces hc 0).bind fun o ho => ?_
  split
  · exact (ho.level styles).bind fun x hx => .ok (styled_setNode hset rfl rfl nofun hx.tree.one)
  · exact (ho.hierarchy styles).bind fun x hx => .ok (styled_setNode hset rfl rfl nofun hx.tree.one)

theorem children_styled : Produces (Every Styled) (do
    return .plain "Children" c.type .children [← (← c.operand 0).member styles]) :=
  (operand_produces hc 0).bind fun _ ho => (ho.member styles).bind fun _ hx =>
    .ok (styled_setNode hset rfl rfl nofun hx.tree.one)

theorem descendants_styled : Produces (Every Styled) (c.descendants styles) := by
  rw [descendants_eq]
  refine (operand_produces hc 0).bind fun o ho => (ho.member styles).bind fun m hm => ?_
  refine Produces.anything.bind fun flag _ => ?_
  refine (descendantsLimit_produces (P := Every Styled)
    (fun o ho => ((hc o ho).level styles).mono fun _ h => h.tree)
    fun o ho => ((hc o ho).scalar styles).mono fun _ h => h.tree).bind fun rest hrest => ?_
  rcases hrest with rfl | ⟨k, hk, rfl⟩
  · exact .ok (styled_setNode hset rfl rfl nofun hm.tree.one)
  · exact .ok (styled_setNode hset rfl rfl nofun (hm.tree.two hk))

theorem drilldownMember_styled : Produces (Every Styled) (c.drilldownMember styles) := by
  refine (operand_produces hc 0).bind fun o ho => (ho.list styles).bind fun x hx => ?_
  refine (operand_produces hc 1).bind fun o ho => (ho.list styles).bind fun y hy => ?_
  refine Produces.anything.bind fun word _ => .ok ?_
  exact styled_setNode hset rfl rfl (lists_second (fun _ => hx.held) hy.held fun _ => rfl)
    (hx.tree.two hy.tree)

theorem filter_styled : Produces (Every Styled) (c.filter styles) := by
  refine (operand_produces hc 0).bind fun o ho => (ho.iterable styles).bind fun x hx => ?_
  refine (operand_produces hc 1).bind fun o ho => (ho.scalar styles).bind fun y hy => ?_
  exact .ok (styled_setNode hset rfl rfl nofun (hx.two hy.tree))

theorem nonEmpty_styled : Produces (Every Styled) (c.nonEmpty styles) := by
  refine (operand_produces hc 0).bind fun o ho => (ho.iterable styles).bind fun x hx => ?_
  split
  · refine (operand_produces hc 1).bind fun o ho => (ho.list styles).bind fun y hy => .ok ?_
    exact styled_setNode hset rfl rfl (lists_second nofun hy.held fun _ => rfl) (hx.two hy.tree)
  · refine .ok (styled_setNode hset rfl rfl (fun k d hd hwants => ?_) hx.one)
    obtain rfl : k = 1 := eq_of_beq hwants
    cases hd

theorem head_styled : Produces (Every Styled) (c.head styles) := by
  refine (operand_produces hc 0).bind fun o ho => (ho.list styles).bind fun x hx => ?_
  split
  · refine (operand_produces hc 1).bind fun o ho => (ho.scalar styles).bind fun y hy => .ok ?_
    exact styled_setNode hset rfl rfl (lists_first hx.held fun _ => rfl) (hx.tree.two hy.tree)
  · exact .ok (styled_setNode hset rfl rfl (lists_first hx.held fun _ => rfl) hx.tree.one)

end

/-! ### Functions that say the style of their sets themselves -/

theorem crossJoin_styled : Produces (Every Styled) (c.crossJoin styles) := by
  refine (operand_produces hc 0).bind fun o ho => (ho.iterable styles).bind fun x hx => ?_
  refine (operand_produces hc 1).bind fun o ho => (ho.iterable styles).bind fun y hy => ?_
  exact .ok (styled_node rfl nofun (hx.two hy))

theorem order_styled : Produces (Every Styled) (c.order styles) := by
  rw [order_eq]
  refine Produces.anything.bind fun mode _ => ?_
  refine (operand_produces hc 0).bind fun o ho => (ho.list styles).bind fun x hx => ?_
  refine (operand_produces hc 1).bind fun o ho => ?_
  split
  · exact (ho.scalar styles).bind fun y hy =>
      .ok (styled_node rfl (lists_first hx.held fun _ => rfl) (hx.tree.two hy.tree))
  · exact (ho.double styles).bind fun y hy =>
      .ok (styled_node rfl (lists_first hx.held fun _ => rfl) (hx.tree.two hy.tree))

theorem set_styled : Produces (Every Styled) (c.set styles) := by
  refine (Produces.mapM (Q := Every Styled) fun o ho => ?_).bind fun cs hcs =>
    .ok (styled_node rfl nofun hcs)
  unfold element
  split
  · exact ((hc o ho).list styles).mono fun _ h => h.tree
  · exact ((hc o ho).tuple styles).mono fun _ h => h.tree
  · exact ((hc o ho).member styles).mono fun _ h => h.tree

/-! ### All functions -/

/-- A call whose type is that of a set exactly if its function gives one compiles to a styled tree. -/
theorem compile_fits {cube : Cube}
    (hset : c.type.isSet = c.definition.givesSet (c.operands.map (·.type))) :
    Produces (Fits c.type) (c.compile cube styles) := by
  have hsingle {x : Except CalcError Calc} (hx : Produces Single x) : Produces (Fits c.type) x :=
    hx.mono fun _ h => h.fits _
  have hsets {x : Except CalcError Calc} (hx : c.type.isSet = true → Produces (Every Styled) x)
      (ht : c.type.isSet = true) : Produces (Fits c.type) x :=
    (hx ht).mono fun _ h => fits_of_isSet h ht
  unfold BoundCall.compile
  unfold Definition.givesSet at hset
  split
  all_goals
    rename_i hbody
    rw [hbody] at hset
  · exact hsingle (arithmetic_single hc _)
  · exact hsingle (negate_single hc)
  · exact hsingle (compare_single hc _)
  · exact hsingle (logical_single hc _ rfl)
  · exact hsingle (logical_single hc _ rfl)
  · exact hsingle ((operand_produces hc 0).bind fun o ho => (ho.scalar styles).bind fun x hx =>
      .ok (single_node rfl (.inl rfl) hx.tree.one))
  · exact choice_fits hc hset
  · exact hsingle ((operand_produces hc 0).bind fun o ho => (ho.hierarchy styles).bind fun x hx =>
      .ok (single_currentMember hx.tree))
  · exact hsets (members_styled hc) hset
  · exact hsets (children_styled hc) hset
  · exact hsingle (parent_single hc hset)
  · exact hsets (descendants_styled hc) hset
  · exact hsets (drilldownMember_styled hc) hset
  · exact hsets (fun _ => crossJoin_styled hc) hset
  · exact hsets (filter_styled hc) hset
  · exact hsets (nonEmpty_styled hc) hset
  · exact hsets (head_styled hc) hset
  · exact hsingle (count_single hc)
  · exact hsets (fun _ => order_styled hc) hset
  · exact hsets (fun _ => set_styled hc) hset
  · exact tuple_fits hc fun o ho => by rw [hset, ho]; exact Bool.and_true _
  · exact hsingle (aggregate_single hc _ hset)
  · exact cache_fits hc fun o ho => by rw [hset, List.head?_map, ho]; rfl
  · exact hsingle ((operand_produces hc 0).bind fun o ho => ho.scalar styles)
  · exact .error

end

end BoundCall

/-! ## Types of calls and conversions -/

theorem Converts.givesSet {p : Category} {kind : ConversionKind} {t : ExprType}
    (h : Converts t.category p kind) : kind.givesSet t = (p == .set) := by
  generalize hc : t.category = c at h
  cases h with
  | scalarToValue hscalar =>
    show t.isSet = _
    rw [ExprType.isSet_eq, hc]
    cases c <;> first | rfl | cases hscalar
  | nullToScalar hp => cases p <;> first | rfl | cases hp
  | valueToScalar hp => cases p <;> first | rfl | exact absurd hp (by decide)
  | cellValue _ hp => cases p <;> first | rfl | exact absurd hp (by decide)
  | _ => rfl

/-- The type of a call of a built-in function is that of a set exactly if the function gives one. -/
theorem Definition.Standard.givesSet {d : Definition} (hd : d.Standard) {args : List Expr}
    (hcat : args.map (fun e => e.type.category) = d.signature.parameters) :
    (d.resultType (args.map Expr.type)).isSet = d.givesSet (args.map Expr.type) := by
  by_cases hgroup : d.IsGroup
  · obtain ⟨-, e, rfl, htype⟩ := hd.resultType_group hgroup hcat
    rw [htype, Definition.givesSet, hgroup.1]
    exact (Bool.and_true _).symm
  · rw [ExprType.isSet_eq, hd.category_resultType hgroup hcat]
    obtain ⟨⟨name, form, result, parameters⟩, description, reserved, rule, body⟩ := d
    change Shape body parameters result rule reserved at hd
    change args.map (fun e => e.type.category) = parameters at hcat
    cases hd with
    | arithmetic _ hc => rcases hc with rfl | rfl <;> rfl
    | negate hc => rcases hc with rfl | rfl <;> rfl
    | group => exact absurd ⟨rfl, rfl⟩ hgroup
    | tuple =>
      obtain ⟨e, es, rfl, -, hcat⟩ := List.map_eq_cons_iff.1 hcat
      obtain ⟨e', es, rfl, -, hcat⟩ := List.map_eq_cons_iff.1 hcat
      rfl
    | cache =>
      obtain ⟨e, es, rfl, he, hcat⟩ := List.map_eq_cons_iff.1 hcat
      rw [← he, ← ExprType.isSet_eq]
      rfl
    | _ => rfl

/-! ## Expressions -/

namespace Expr

open Calc

mutual

/-- Every call and every conversion in the expression has the type of a set exactly if it gives one. -/
def namesSets : Expr → Bool
  | bound d type args => type.isSet == d.givesSet (args.map Expr.type) && allNameSets args
  | convert e target kind => target.isSet == kind.givesSet e.type && e.namesSets
  | _ => true

def allNameSets : List Expr → Bool
  | [] => true
  | e :: es => e.namesSets && allNameSets es

end

theorem honest_constant {e : Expr} {v : Value} {t : ExprType} {cube : Cube}
    (h : ∀ styles, e.compile cube styles = .ok (.constant v t))
    (hv : constantStyle v = .value ∨ constantStyle v = .valueNotNull) :
    (e.toOperand cube).Honest := by
  intro styles
  show Produces _ (e.compile cube styles)
  rw [h]
  exact .ok ((single_constant hv t).fits _)

mutual

theorem honest (cube : Cube) : ∀ e : Expr, e.hasParameter = false → e.namesSets = true →
    (e.toOperand cube).Honest
  | literal l, _, _ =>
    honest_constant (fun _ => rfl) (by cases l <;> first | exact .inl rfl | exact .inr rfl)
  | member _, _, _ => honest_constant (fun _ => rfl) (.inr rfl)
  | level _, _, _ => honest_constant (fun _ => rfl) (.inr rfl)
  | hierarchy _, _, _ => honest_constant (fun _ => rfl) (.inr rfl)
  | dimension _, _, _ => honest_constant (fun _ => rfl) (.inr rfl)
  | parameter _, hfree, _ => nomatch hfree
  | call _ _ _, _, _ => fun _ => .error
  | bound d type args, hfree, h => by
    obtain ⟨htype, hargs⟩ := Bool.and_eq_true_iff.1 h
    refine fun styles => BoundCall.compile_fits (allHonest cube args hfree hargs) ?_
    rw [operands_eq_map, List.map_map]
    exact eq_of_beq htype
  | convert e target kind, hfree, h => by
    obtain ⟨htarget, he⟩ := Bool.and_eq_true_iff.1 h
    exact fun styles => (honest cube e hfree he).converted (eq_of_beq htarget) styles

theorem allHonest (cube : Cube) : ∀ es : List Expr, anyParameter es = false → allNameSets es = true →
    ∀ o ∈ operands cube es, o.Honest
  | [], _, _ => List.forall_mem_nil _
  | e :: es, hfree, h => by
    obtain ⟨he, hes⟩ := Bool.or_eq_false_iff.1 hfree
    obtain ⟨hnames, hall⟩ := Bool.and_eq_true_iff.1 h
    exact List.forall_mem_cons.2 ⟨honest cube e he hnames, allHonest cube es hes hall⟩

end

/-! ### Closed expressions -/

theorem allNameSets_iff {es : List Expr} : allNameSets es = true ↔ ∀ e ∈ es, e.namesSets = true := by
  induction es with
  | nil => simp [allNameSets]
  | cons e es ih => rw [allNameSets, Bool.and_eq_true, ih, List.forall_mem_cons]

theorem anyParameter_eq_false_iff {es : List Expr} :
    anyParameter es = false ↔ ∀ e ∈ es, e.hasParameter = false := by
  induction es with
  | nil => simp [anyParameter]
  | cons e es ih => rw [anyParameter, Bool.or_eq_false_iff, ih, List.forall_mem_cons]

theorem Bound.hasParameter_eq_false {e : Expr} (he : e.Bound) : e.hasParameter = false := by
  induction he with
  | call _ _ _ _ ih => exact anyParameter_eq_false_iff.2 ih
  | convert _ _ _ _ ih => exact ih
  | _ => rfl

theorem Bound.namesSets {e : Expr} (he : e.Bound) : e.namesSets = true := by
  induction he with
  | call hd hcat _ _ ih =>
    exact Bool.and_eq_true_iff.2 ⟨beq_iff_eq.2 (hd.givesSet hcat), allNameSets_iff.2 ih⟩
  | convert _ hne hcost _ ih =>
    refine Bool.and_eq_true_iff.2 ⟨beq_iff_eq.2 ?_, ih⟩
    rw [Converts.givesSet (Category.converts hne hcost), ExprType.isSet_eq, convertedTo_category]
  | _ => rfl

end Expr

end Olap
