import Olap.Proofs.Calc.Truthful

/-!
# Calls keep to contracts

The rules for types take the first argument's type, or put the scopes of several arguments together;
where they look for a common type and there is none they fall back on some other one. A rule agrees
with the arguments of a call (`ResultRule.agrees`) if it need not fall back, and if the columns of a
join can be counted. Then the tree that a call compiles to serves the type of the call
(`BoundCall.Sound.serves`).
-/

set_option autoImplicit false

namespace Olap

/-! ## Rules that find what they look for -/

namespace ResultRule

/-- The common type of several types, if there is one. -/
def commonElement? : List ExprType → Option ExprType
  | [] => some .anyMember
  | t :: ts => ts.foldlM ExprType.common? t

/-- Whether the rule finds a common type where it looks for one, and can count the columns of a
join. -/
def agrees (rule : ResultRule) (arguments : List ExprType) : Bool :=
  match rule, arguments with
  | branches, _ :: t :: u :: _ => (t.common? u).isSome
  | joined, ts => (ts.flatMap ExprType.scopes).length < UInt64.size
  | elements, ts => (commonElement? (ts.map elementOf)).isSome
  | _, _ => true

theorem commonElement_eq (ts : List ExprType) :
    commonElement ts = (commonElement? ts).getD .anyMember := by
  cases ts <;> rfl

/-- The set that is declared for a single object is one of members of its scope. -/
theorem ofCategory_set {t : ExprType} (h : t.category ∈ [Category.hierarchy, .level, .member])
    (ts : List ExprType) : ofCategory .set (t :: ts) = .set (.member t.scope) := by
  cases t <;> first | rfl | simp [ExprType.category] at h

theorem ofCategory_set_of_set {t e : ExprType} (h : t = .set e) (ts : List ExprType) :
    ofCategory .set (t :: ts) = .set e := by
  rw [h]
  rfl

theorem commonElement_pos {ts : List ExprType} (h : ∀ t ∈ ts, 0 < t.scopes.length) :
    0 < (commonElement ts).scopes.length := by
  rw [commonElement_eq]
  rcases hw : commonElement? ts with _ | w
  · exact Nat.one_pos
  cases ts with
  | nil =>
    cases hw
    exact Nat.one_pos
  | cons t ts =>
    obtain ⟨ht, -⟩ := List.forall_mem_cons.1 h
    clear h
    change ts.foldlM ExprType.common? t = some w at hw
    induction ts generalizing t with
    | nil =>
      cases hw
      exact ht
    | cons u ts ih =>
      rw [List.foldlM_cons] at hw
      obtain ⟨x, hx, hw⟩ := Option.bind_eq_some_iff.1 hw
      exact ih x ((ExprType.length_scopes_common? hx).1 ▸ ht) hw

theorem hasColumns_declared {result : Category} (hres : result ≠ .tuple)
    {arguments : List ExprType} (h : ∀ t ∈ arguments, t.HasColumns) :
    (declared.apply result arguments).HasColumns := by
  cases result with
  | tuple => exact absurd rfl hres
  | set =>
    rcases arguments with _ | ⟨t, ts⟩
    · exact Nat.one_pos
    · have ht := h t List.mem_cons_self
      cases t with
      | set e => exact ht
      | tuple ss => exact ht
      | _ => exact Nat.one_pos
  | _ => trivial

theorem scopes_elementOf (t : ExprType) : (elementOf t).scopes = t.scopes := by
  cases t <;> rfl

end ResultRule

namespace Contract

variable {T : Contract} {ss us vs : List Scope} {v : Value} {t u : ExprType}

/-- Under a strict contract what is of the scopes `ss` is of the scopes `us`, too. -/
def Covers (T : Contract) (ss us : List Scope) : Prop :=
  T.strict → us.length = ss.length ∧ ∀ r, Row.Holds T.env.cube ss r → Row.Holds T.env.cube us r

theorem Covers.refl (ss : List Scope) : T.Covers ss ss := fun _ => ⟨rfl, fun _ h => h⟩

theorem Covers.trans (h : T.Covers ss us) (h' : T.Covers us vs) : T.Covers ss vs := by
  intro hstrict
  obtain ⟨hlen, hrow⟩ := h hstrict
  obtain ⟨hlen', hrow'⟩ := h' hstrict
  exact ⟨hlen'.trans hlen, fun r hr => hrow' r (hrow r hr)⟩

theorem IsList.mono (hv : T.IsList ss v) (h : T.Covers ss us) : T.IsList us v := by
  obtain ⟨l, rfl, hl⟩ := hv
  refine ⟨l, rfl, hl.legal, fun hstrict => ?_, fun r hr hstrict => ?_⟩
  · rw [(h hstrict).1, hl.arity hstrict]
  · exact (h hstrict).2 r (hl.rows r hr hstrict)

theorem holds_member_of_covers {s s' : Scope} (hv : T.Holds (.member s) v)
    (h : T.Covers [s] [s']) : T.Holds (.member s') v := by
  intro hstrict
  rcases hv hstrict with hnull | ⟨m, rfl, hm⟩
  · exact .inl hnull
  · exact .inr ⟨m, rfl, (List.forall₂_cons.1 ((h hstrict).2 [m] (.cons hm .nil))).1⟩

/-- A common type covers both types. -/
theorem covers_common? {w : ExprType} (h : t.common? u = some w) :
    T.Covers t.scopes w.scopes ∧ T.Covers u.scopes w.scopes := by
  obtain ⟨hlen, hlen'⟩ := ExprType.length_scopes_common? h
  exact ⟨fun _ => ⟨hlen, fun _ => ExprType.holds_common?_left h⟩,
    fun _ => ⟨hlen', fun _ => ExprType.holds_common?_right h⟩⟩

theorem covers_foldlM_common? {ts : List ExprType} {w : ExprType}
    (h : ts.foldlM ExprType.common? t = some w) : ∀ u ∈ t :: ts, T.Covers u.scopes w.scopes := by
  induction ts generalizing t with
  | nil =>
    cases h
    exact List.forall_mem_singleton.2 (.refl _)
  | cons u ts ih =>
    rw [List.foldlM_cons] at h
    obtain ⟨x, hx, h⟩ := Option.bind_eq_some_iff.1 h
    obtain ⟨hw, hrest⟩ := List.forall_mem_cons.1 (ih h)
    obtain ⟨ht, hu⟩ := covers_common? hx
    exact List.forall_mem_cons.2 ⟨ht.trans hw, List.forall_mem_cons.2 ⟨hu.trans hw, hrest⟩⟩

theorem covers_commonElement {ts : List ExprType}
    (h : T.strict → (ResultRule.commonElement? ts).isSome = true) :
    ∀ u ∈ ts, T.Covers u.scopes (ResultRule.commonElement ts).scopes := by
  intro u hu hstrict
  obtain ⟨w, hw⟩ := Option.isSome_iff_exists.1 (h hstrict)
  rw [ResultRule.commonElement_eq, hw]
  cases ts with
  | nil => cases hu
  | cons t ts => exact covers_foldlM_common? hw u hu hstrict

/-- The type of a choice covers those of its branches. -/
theorem covers_branches (h : T.strict → (t.common? u).isSome = true) :
    T.Covers t.scopes ((t.common? u).getD t).scopes ∧
      T.Covers u.scopes ((t.common? u).getD t).scopes := by
  rcases hw : t.common? u with _ | w
  · rw [hw] at h
    exact ⟨fun hstrict => (Bool.false_ne_true (h hstrict)).elim,
      fun hstrict => (Bool.false_ne_true (h hstrict)).elim⟩
  · exact covers_common? hw

end Contract

/-! ## Calls -/

theorem ExprType.eq_member_of_category {t : ExprType} (h : t.category = .member) :
    t = .member t.scope := by
  cases t <;> first | rfl | cases h

namespace BoundCall

open Calc Contract Contract.Ensures

/-- The operands are faithful and have the categories of the parameters; the call has the type that
its rule gives, which under a strict contract agrees with the operands. -/
structure Sound (T : Contract) (c : BoundCall) : Prop where
  operands : ∀ o ∈ c.operands, o.Faithful T
  categories : c.operands.map (fun o => o.type.category) = c.definition.signature.parameters
  type : c.type = c.definition.resultType (c.operands.map Operand.type)
  agrees : T.strict → c.definition.resultRule.agrees (c.operands.map Operand.type) = true

theorem produces_operand {c : BoundCall} {k : Nat} {o : Operand} (h : c.operands[k]? = some o) :
    Produces (o = ·) (c.operand k) := by
  rw [operand, h]
  exact .ok rfl

variable {T : Contract} {c : BoundCall} {styles : List ResultStyle}

theorem lists_default {e : ExprType} {k : Calc} (ht : k.type = .set e)
    (hs : k.style = defaultStyle k.type) (hd : k.Delivers T (T.IsList e.scopes)) : k.Lists T e := by
  refine ⟨ht, ?_, hd⟩
  rw [hs, ht]
  nofun

section
variable (hc : ∀ o ∈ c.operands, o.Faithful T)
include hc

/-! ### Scalars -/

theorem arithmetic_scalar (op : ArithmeticOp) : Produces (Scalar T) (c.arithmetic op styles) := by
  refine (operand_produces hc 0).bind fun l hl => (operand_produces hc 1).bind fun r hr => ?_
  split
  · exact (hl.scalar styles).bind fun _ hx => (hr.scalar styles).bind fun _ hy =>
      .ok ⟨rfl, hx.delivers.two hy.delivers fun _ _ _ h h' => run_integerArithmetic h h' op⟩
  · exact (hl.double styles).bind fun _ hx => (hr.double styles).bind fun _ hy =>
      .ok ⟨rfl, hx.delivers.two hy.delivers fun _ _ _ h h' => run_doubleArithmetic h h' op⟩

theorem negate_scalar : Produces (Scalar T) (c.negate styles) := by
  refine (operand_produces hc 0).bind fun o ho => ?_
  split
  · exact (ho.scalar styles).bind fun _ hx =>
      .ok ⟨rfl, hx.delivers.one fun _ _ h => run_integerNegation h⟩
  · exact (ho.double styles).bind fun _ hx =>
      .ok ⟨rfl, hx.delivers.one fun _ _ h => run_doubleNegation h⟩

theorem compare_scalar (op : Comparison) : Produces (Scalar T) (c.compare op styles) := by
  refine (operand_produces hc 0).bind fun l hl => (operand_produces hc 1).bind fun r hr => ?_
  split
  · exact (hl.scalar styles).bind fun _ hx => (hr.scalar styles).bind fun _ hy =>
      .ok ⟨rfl, hx.delivers.two hy.delivers fun _ _ _ h h' => run_compareTexts h h' op⟩
  · exact (hl.double styles).bind fun _ hx => (hr.double styles).bind fun _ hy =>
      .ok ⟨rfl, hx.delivers.two hy.delivers fun _ _ _ h h' => run_compareNumbers h h' op⟩

theorem logical_scalar {op : Operation} (name : String)
    (hrun : ∀ a x y, T.Ensures x (fun _ => True) → T.Ensures y (fun _ => True) →
      T.Ensures (op.run a [x, y]) fun _ => True) :
    Produces (Scalar T) (c.logical name op styles) := by
  refine (operand_produces hc 0).bind fun l hl => (hl.scalar styles).bind fun _ hx => ?_
  refine (operand_produces hc 1).bind fun r hr => (hr.scalar styles).bind fun _ hy => ?_
  exact .ok ⟨rfl, hx.delivers.two hy.delivers hrun⟩

theorem negation_scalar : Produces (Scalar T) (do
    return .plain "NOT" .boolean .negation [← (← c.operand 0).scalar styles]) :=
  (operand_produces hc 0).bind fun _ ho => (ho.scalar styles).bind fun _ hx =>
    .ok ⟨rfl, hx.delivers.one fun _ _ h => run_negation h⟩

theorem value_scalar : Produces (Scalar T) (do (← c.operand 0).scalar styles) :=
  (operand_produces hc 0).bind fun _ ho => ho.scalar styles

/-! ### Choices -/

/-- The branches of a choice, and their types in common. -/
theorem choice_serves {p : Category} (hp : p ∈ [Category.numeric, .string, .logical, .member, .set])
    (hres : c.definition.signature.result = p) {x y : Operand} (hx : c.operands[1]? = some x)
    (hy : c.operands[2]? = some y) (hxp : x.type.category = p) (hyp : y.type.category = p)
    (ht : c.type = (x.type.common? y.type).getD x.type)
    (hagree : T.strict → (x.type.common? y.type).isSome = true) :
    Produces (Serves T c.type) (c.choice styles) := by
  have htype : c.type.category = p := by
    rw [ht]
    rcases hw : x.type.common? y.type with _ | w
    · exact hxp
    · exact (ExprType.common?_category hw (hxp.trans hyp.symm)).trans hxp
  obtain ⟨hcx, hcy⟩ := covers_branches hagree
  rw [← ht] at hcx hcy
  have hfx := hc x (List.mem_of_getElem? hx)
  have hfy := hc y (List.mem_of_getElem? hy)
  refine (operand_produces hc 0).bind fun o ho => (ho.scalar styles).bind fun k hk => ?_
  refine (produces_operand hx).bind ?_
  rintro _ rfl
  rw [hres]
  simp only [List.mem_cons, List.not_mem_nil, or_false] at hp
  rcases hp with rfl | rfl | rfl | rfl | rfl
  rotate_left 3
  · -- members
    refine (hfx.member styles (by rw [hxp]; decide)).bind fun yes hyes => ?_
    refine (produces_operand hy).bind ?_
    rintro _ rfl
    refine (hfy.member styles (by rw [hyp]; decide)).bind fun no hno => .ok ?_
    have hm := ExprType.eq_member_of_category htype
    rw [ExprType.eq_member_of_category hxp, hm] at hcx
    rw [ExprType.eq_member_of_category hyp, hm] at hcy
    rw [hm]
    exact .of_single (hk.delivers.three (hyes.delivers.mono fun _ h => holds_member_of_covers h hcx)
      (hno.delivers.mono fun _ h => holds_member_of_covers h hcy)
      fun _ _ _ _ h h' h'' => run_choice h h' (fun _ h => h) h'') rfl rfl
  · -- sets
    obtain ⟨e, he⟩ := ExprType.eq_set_of_category htype
    obtain ⟨f, hf⟩ := ExprType.eq_set_of_category hxp
    obtain ⟨g, hg⟩ := ExprType.eq_set_of_category hyp
    rw [he, hf] at hcx
    rw [he, hg] at hcy
    refine (hfx.list styles hf).bind fun yes hyes => (produces_operand hy).bind ?_
    rintro _ rfl
    refine (hfy.list styles hg).bind fun no hno => .ok ?_
    rw [he]
    refine (lists_default rfl rfl ?_).serves
    exact hk.delivers.three (hyes.delivers.mono fun _ h => h.mono hcx)
      (hno.delivers.mono fun _ h => h.mono hcy)
      fun _ _ _ _ h h' h'' => run_choice h h' (fun _ h => h) h''
  all_goals
    refine (hfx.scalar styles).bind fun yes hyes => (produces_operand hy).bind ?_
    rintro _ rfl
    refine (hfy.scalar styles).bind fun no hno => .ok ?_
    have hscalar : c.type.isScalar = true := congrArg Category.isScalar htype
    refine Scalar.serves ⟨isSet_of_isScalar hscalar, ?_⟩ hscalar
    exact hk.delivers.three hyes.delivers hno.delivers
      fun _ _ _ _ h h' h'' => run_choice h h' (fun _ h => h) h''

/-! ### Members of one scope -/

section
variable {o : Operand} (ho : c.operands[0]? = some o)
include ho

theorem currentMember_serves : Produces (Serves T (.member o.type.scope)) (do
    return .currentMember (← (← c.operand 0).hierarchy styles)) := by
  refine (produces_operand ho).bind ?_
  rintro _ rfl
  exact ((hc _ (List.mem_of_getElem? ho)).hierarchy styles).bind fun _ hx =>
    .ok (serves_currentMember hx)

theorem parent_serves (hcat : o.type.category = .member) (ht : c.type = .member o.type.scope) :
    Produces (Serves T c.type) (do
      return .plain "Parent" c.type .parent [← (← c.operand 0).member styles]) := by
  refine (produces_operand ho).bind ?_
  rintro _ rfl
  rw [ht]
  exact ((hc _ (List.mem_of_getElem? ho)).member styles (by rw [hcat]; decide)).bind fun _ hx =>
    .ok (.of_single (hx.delivers.one fun _ _ h => run_parent h) rfl rfl)

section
variable (ht : c.type = .set (.member o.type.scope))
include ht

theorem members_lists : Produces (Lists T (.member o.type.scope)) (c.members styles) := by
  refine (produces_operand ho).bind ?_
  rintro _ rfl
  have hfaithful := hc _ (List.mem_of_getElem? ho)
  split
  · exact (hfaithful.level styles).bind fun _ hx =>
      .ok (lists_default ht rfl (hx.delivers.one fun _ _ h => run_levelMembers h))
  · exact (hfaithful.hierarchy styles).bind fun _ hx =>
      .ok (lists_default ht rfl (hx.delivers.one fun _ _ h => run_hierarchyMembers h))

theorem children_lists (hcat : o.type.category = .member) :
    Produces (Lists T (.member o.type.scope)) (do
      return .plain "Children" c.type .children [← (← c.operand 0).member styles]) := by
  refine (produces_operand ho).bind ?_
  rintro _ rfl
  exact ((hc _ (List.mem_of_getElem? ho)).member styles (by rw [hcat]; decide)).bind fun _ hx =>
    .ok (lists_default ht rfl (hx.delivers.one fun _ _ h => run_children h))

theorem descendants_lists (hcat : o.type.category = .member) :
    Produces (Lists T (.member o.type.scope)) (c.descendants styles) := by
  rw [descendants_eq]
  refine (produces_operand ho).bind ?_
  rintro _ rfl
  refine ((hc _ (List.mem_of_getElem? ho)).member styles (by rw [hcat]; decide)).bind fun m hm => ?_
  refine Produces.anything.bind fun flag _ => ?_
  refine (descendantsLimit_produces (P := fun k => k.Delivers T fun _ => True)
    (fun o ho => ((hc o ho).level styles).mono fun _ h => h.delivers.mono fun _ _ => trivial)
    fun o ho => ((hc o ho).scalar styles).mono fun _ h => h.delivers.mono fun _ _ => trivial).bind
    fun rest hrest => ?_
  rcases hrest with rfl | ⟨k, hk, rfl⟩
  · exact .ok (lists_default ht rfl (hm.delivers.one fun _ _ h =>
      run_descendants _ flag h (List.forall_mem_nil _)))
  · exact .ok (lists_default ht rfl (hm.delivers.two hk fun _ _ _ h h' =>
      run_descendants _ flag h (List.forall_mem_singleton.2 h')))

end

end

/-! ### Sets of the type of the first operand -/

section
variable {o : Operand} (ho : c.operands[0]? = some o) {e : ExprType} (he : o.type = .set e)
include ho he

theorem count_scalar : Produces (Scalar T) (c.count styles) := by
  refine Produces.anything.bind fun word _ => (produces_operand ho).bind ?_
  rintro _ rfl
  exact ((hc _ (List.mem_of_getElem? ho)).iterable styles he).bind fun _ hx =>
    .ok ⟨rfl, hx.delivers.one fun _ _ h => run_count h _⟩

theorem aggregate_scalar (f : Aggregate) (ht : c.type.isSet = false) :
    Produces (Scalar T) (c.aggregate f styles) := by
  refine (produces_operand ho).bind ?_
  rintro _ rfl
  refine ((hc _ (List.mem_of_getElem? ho)).iterable styles he).bind fun _ hx => ?_
  split
  · rename_i x hxs
    exact ((hc x (List.mem_of_getElem? hxs)).double styles).bind fun _ hy =>
      .ok ⟨ht, hx.delivers.two hy.delivers fun _ _ _ h h' => run_aggregate h f h'⟩
  · have hcell : Calc.currentValue.Delivers T fun _ => True := .none fun _ => run_currentValue []
    exact .ok ⟨ht, hx.delivers.two hcell fun _ _ _ h h' => run_aggregate h f h'⟩

variable (ht : c.type = .set e)
include ht

theorem filter_lists : Produces (Lists T e) (c.filter styles) := by
  refine (produces_operand ho).bind ?_
  rintro _ rfl
  refine ((hc _ (List.mem_of_getElem? ho)).iterable styles he).bind fun _ hx => ?_
  exact (operand_produces hc 1).bind fun _ h => (h.scalar styles).bind fun _ hy =>
    .ok (lists_default ht rfl (hx.delivers.two hy.delivers fun _ _ _ h h' => run_filter h h'))

theorem head_lists : Produces (Lists T e) (c.head styles) := by
  refine (produces_operand ho).bind ?_
  rintro _ rfl
  refine ((hc _ (List.mem_of_getElem? ho)).list styles he).bind fun _ hx => ?_
  split
  · exact (operand_produces hc 1).bind fun _ h => (h.scalar styles).bind fun _ hy =>
      .ok (lists_default ht rfl (hx.serves.delivers.two hy.delivers fun _ _ _ h h' =>
        run_head h (List.forall_mem_singleton.2 h')))
  · exact .ok (lists_default ht rfl (hx.serves.delivers.one fun _ _ h =>
      run_head h (List.forall_mem_nil _)))

theorem order_lists : Produces (Lists T e) (c.order styles) := by
  have hnode {mode : SortMode} {byText : Bool} {x y : Calc} (hx : x.Lists T e) (hy : y.Scalar T) :
      (((Calc.plain "Order" c.type (.order mode byText) [x, y]).withStyle .mutableList).withRule
        .allButFirst).Lists T e :=
    ⟨ht, nofun, hx.serves.delivers.two hy.delivers fun _ _ _ h h' => run_order h mode byText h'⟩
  rw [order_eq]
  refine Produces.anything.bind fun mode _ => ?_
  refine (produces_operand ho).bind ?_
  rintro _ rfl
  refine ((hc _ (List.mem_of_getElem? ho)).list styles he).bind fun x hx => ?_
  refine (operand_produces hc 1).bind fun o ho => ?_
  split
  · exact (ho.scalar styles).bind fun y hy => .ok (hnode hx hy)
  · exact (ho.double styles).bind fun y hy => .ok (hnode hx hy)

section
variable {x : Operand} (hx : ∀ x, c.operands[1]? = some x → ∃ f, x.type = .set f)
include hx

theorem nonEmpty_lists : Produces (Lists T e) (c.nonEmpty styles) := by
  refine (produces_operand ho).bind ?_
  rintro _ rfl
  refine ((hc _ (List.mem_of_getElem? ho)).iterable styles he).bind fun _ hset => ?_
  split
  · rename_i hlen
    have hsecond := List.getElem?_eq_getElem hlen
    obtain ⟨f, hf⟩ := hx _ hsecond
    refine (produces_operand hsecond).bind ?_
    rintro _ rfl
    exact ((hc _ (List.getElem_mem hlen)).list styles hf).bind fun _ hy =>
      .ok (lists_default ht rfl (hset.delivers.two hy.serves.delivers fun _ _ _ h h' =>
        run_nonEmptyAmong h h'))
  · exact .ok (lists_default ht rfl (hset.delivers.one fun _ _ h => run_nonEmpty h))

theorem drilldownMember_lists : Produces (Lists T e) (c.drilldownMember styles) := by
  refine (produces_operand ho).bind ?_
  rintro _ rfl
  refine ((hc _ (List.mem_of_getElem? ho)).list styles he).bind fun _ hset => ?_
  have hsecond : Produces (fun o => c.operands[1]? = some o) (c.operand 1) := by
    unfold operand
    split
    · exact .ok ‹_›
    · exact .error
  refine hsecond.bind fun o' ho' => ?_
  obtain ⟨f, hf⟩ := hx _ ho'
  refine ((hc _ (List.mem_of_getElem? ho')).list styles hf).bind fun _ hy => ?_
  exact Produces.anything.bind fun word _ => .ok (lists_default ht rfl
    (hset.serves.delivers.two hy.serves.delivers fun _ _ _ h h' => run_drilldownMember _ h h'))

end

end

/-! ### Constructors of sets and tuples -/

/-- A join has the columns of both sets. -/
theorem crossJoin_serves {x y : Operand} (hx : c.operands[0]? = some x)
    (hy : c.operands[1]? = some y) {e f : ExprType} (he : x.type = .set e) (hf : y.type = .set f)
    (ht : c.type = .set (.tuple (e.scopes ++ f.scopes)))
    (hlen : T.strict → e.scopes.length + f.scopes.length < UInt64.size) :
    Produces (Serves T c.type) (c.crossJoin styles) := by
  refine (produces_operand hx).bind ?_
  rintro _ rfl
  refine ((hc _ (List.mem_of_getElem? hx)).iterable styles he).bind fun l hl => ?_
  refine (produces_operand hy).bind ?_
  rintro _ rfl
  refine ((hc _ (List.mem_of_getElem? hy)).iterable styles hf).bind fun r hr => .ok ?_
  rw [ht]
  cases styles.contains .iterable || styles.contains .any
  · refine Lists.serves ⟨rfl, nofun, ?_⟩
    exact hl.delivers.two hr.delivers fun _ _ _ h h' => run_crossJoin_list h h' hlen
  · refine ⟨hl.delivers.two hr.delivers fun _ _ _ h h' => run_crossJoin h h' hlen, .inl rfl, ?_⟩
    exact fun _ h => absurd rfl h

omit hc in
/-- Each element of a set adds tuples of the scopes of the set. -/
theorem element_delivers {o : Operand} (ho : o.Faithful T) {ss : List Scope}
    (hcat : o.type.category = .member ∨ o.type.category = .tuple ∨ o.type.category = .set)
    (hcovers : T.Covers o.type.scopes ss) :
    Produces (Delivers T · (T.Element ss)) (element styles o) := by
  unfold element
  cases ht : o.type <;> rw [ht] at hcat hcovers
  case set e =>
    refine (ho.list styles ht).mono fun c hc => hc.delivers.mono fun v hv hstrict => ?_
    obtain ⟨l, rfl, hl⟩ := hv.mono hcovers
    exact ⟨hl.arity hstrict, fun r hr => hl.rows r hr hstrict⟩
  case tuple us =>
    refine (ho.tuple styles (by rw [ht]; simp [ExprType.category])).mono fun c hc =>
      hc.delivers.mono fun v hv hstrict => ?_
    rw [ht] at hv
    obtain ⟨r, rfl, hr⟩ := hv hstrict
    exact (hcovers hstrict).2 r hr
  case member s =>
    have hne : o.type.category ≠ .tuple := by
      rw [ht]
      rintro ⟨⟩
    refine (ho.member styles hne).mono fun c hc => hc.delivers.mono fun v hv hstrict => ?_
    rw [ht] at hv
    rcases hv hstrict with rfl | ⟨m, rfl, hm⟩
    · trivial
    · exact (hcovers hstrict).2 [m] (.cons hm .nil)
  all_goals simp [ExprType.category] at hcat

theorem set_lists {e : ExprType} (ht : c.type = .set e) (hpos : 0 < e.scopes.length)
    (hcat : ∀ o ∈ c.operands,
      o.type.category = .member ∨ o.type.category = .tuple ∨ o.type.category = .set)
    (hcovers : ∀ o ∈ c.operands, T.Covers o.type.scopes e.scopes) :
    Produces (Lists T e) (c.set styles) := by
  refine (Produces.mapM fun o ho => element_delivers (hc o ho) (hcat o ho) (hcovers o ho)).bind
    fun cs hcs => .ok ⟨ht, nofun, ?_⟩
  have harity : max c.type.arity 1 = e.scopes.length := by
    rw [ht, e.length_scopes] at *
    exact Nat.max_eq_left hpos
  have hdelivers : List.Forall₂ (fun k P => Delivers T k P) cs (cs.map fun _ => T.Element e.scopes) :=
    List.forall₂_map_right_iff.2 (List.forall₂_same.2 hcs)
  refine delivers_node hdelivers fun a xs hxs => ?_
  rw [List.forall₂_map_right_iff] at hxs
  refine run_set (fun _ => ⟨harity, hpos⟩) fun x hx => ?_
  obtain ⟨k, hk, rfl⟩ := List.getElem_of_mem hx
  exact hxs.get hk (hxs.length_eq ▸ hk)

/-- A tuple has the scopes of its members. -/
theorem tuple_serves (hlen : 2 ≤ c.operands.length)
    (hcat : ∀ o ∈ c.operands, o.type.category = .member)
    (ht : c.type = .tuple (c.operands.map fun o => o.type.scope)) :
    Produces (Serves T c.type) (c.tuple styles) := by
  unfold tuple
  split
  · rename_i heq
    rw [heq] at hlen
    exact absurd hlen (by simp)
  · refine (Produces.mapM_forall₂ fun o ho => (hc o ho).member styles
      (by rw [hcat o ho]; decide)).bind fun cs hcs => .ok ?_
    rw [ht]
    have hdelivers : List.Forall₂ (fun k P => Delivers T k P) cs
        ((c.operands.map fun o => o.type.scope).map fun s => T.Holds (.member s)) := by
      rw [List.map_map, List.forall₂_map_right_iff]
      exact hcs.flip.imp fun _ _ h => h.delivers
    refine .of_single (delivers_node hdelivers fun a xs hxs => ?_) rfl rfl
    rw [List.forall₂_map_right_iff] at hxs
    exact run_tuple hxs.flip

/-! ### Others -/

theorem cache_serves {cube : Cube} {o : Operand} (ho : c.operands[0]? = some o)
    (hcat : o.type.category = .value ∨ o.type.category = .set) :
    Produces (Serves T o.type) (c.cache cube styles) := by
  have hfaithful := hc o (List.mem_of_getElem? ho)
  refine (produces_operand ho).bind ?_
  rintro _ rfl
  rcases hcat with hcat | hcat
  · rw [ExprType.isSet_eq, hcat, if_neg (by decide)]
    have hscalar : o.type.isScalar = true := congrArg Category.isScalar hcat
    exact (hfaithful.scalar styles).bind fun _ hx => .ok ((hx.serves hscalar).cached (.inr hscalar))
  · obtain ⟨e, he⟩ := ExprType.eq_set_of_category hcat
    rw [ExprType.isSet_eq, hcat, if_pos (by decide), he]
    exact (hfaithful.list styles he).bind fun _ hx => .ok (hx.serves.cached (.inl rfl))

end

theorem elements_pos {os : List Operand} (hos : ∀ o ∈ os, o.Faithful T)
    (hcat : ∀ o ∈ os,
      o.type.category = .member ∨ o.type.category = .tuple ∨ o.type.category = .set) :
    0 < (ResultRule.commonElement ((os.map Operand.type).map ResultRule.elementOf)).scopes.length := by
  refine ResultRule.commonElement_pos fun u hu => ?_
  rw [List.map_map] at hu
  obtain ⟨o, ho, rfl⟩ := List.mem_map.1 hu
  rw [Function.comp_apply, ResultRule.scopes_elementOf]
  exact (hos o ho).columns.pos (hcat o ho)

/-- The tree that a call of a built-in function compiles to serves the type of the call. -/
theorem Sound.serves {cube : Cube} (hd : c.definition.Standard) (h : c.Sound T) :
    Produces (Serves T c.type) (c.compile cube styles) := by
  obtain ⟨⟨⟨name, form, result, parameters⟩, description, reserved, rule, body⟩, t, os⟩ := c
  change Shape body parameters result rule reserved at hd
  obtain ⟨hc, hcat, ht, hagree⟩ := h
  change os.map (fun o => o.type.category) = parameters at hcat
  change t = rule.apply result (os.map Operand.type) at ht
  change T.strict → rule.agrees (os.map Operand.type) = true at hagree
  have hscalar {x : Except CalcError Calc} (hrule : rule = .declared)
      (hres : result.isScalar = true) (hx : Produces (Scalar T) x) : Produces (Serves T t) x := by
    refine hx.mono fun _ hk => hk.serves (.trans (congrArg Category.isScalar ?_) hres)
    rw [ht, hrule]
    exact ResultRule.ofCategory_category result _
  have hlists {e : ExprType} {x : Except CalcError Calc} (he : t = .set e)
      (hx : Produces (Lists T e) x) : Produces (Serves T t) x :=
    hx.mono fun _ hk => he ▸ hk.serves
  cases hd with
  | arithmetic op hp =>
    refine hscalar rfl ?_ (arithmetic_scalar hc op)
    rcases hp with rfl | rfl <;> rfl
  | negate hp =>
    refine hscalar rfl ?_ (negate_scalar hc)
    rcases hp with rfl | rfl <;> rfl
  | compare op hp => exact hscalar rfl rfl (compare_scalar hc op)
  | conjunction =>
    exact hscalar rfl rfl (logical_scalar hc _ fun _ _ _ h h' => run_conjunction h h')
  | disjunction =>
    exact hscalar rfl rfl (logical_scalar hc _ fun _ _ _ h h' => run_disjunction h h')
  | negation => exact hscalar rfl rfl (negation_scalar hc)
  | value hp => exact hscalar rfl rfl (value_scalar hc)
  | choice hp =>
    obtain ⟨k, _, rfl, -, hcat⟩ := List.map_eq_cons_iff.1 hcat
    obtain ⟨x, _, rfl, hxp, hcat⟩ := List.map_eq_cons_iff.1 hcat
    obtain ⟨y, _, rfl, hyp, -⟩ := List.map_eq_cons_iff.1 hcat
    exact choice_serves hc hp rfl rfl rfl hxp hyp ht hagree
  | currentMember =>
    obtain ⟨o, _, rfl, -, -⟩ := List.map_eq_cons_iff.1 hcat
    rw [ht]
    exact currentMember_serves hc rfl
  | parent =>
    obtain ⟨o, _, rfl, ho, -⟩ := List.map_eq_cons_iff.1 hcat
    exact parent_serves hc rfl ho ht
  | members hp =>
    obtain ⟨o, _, rfl, ho, -⟩ := List.map_eq_cons_iff.1 hcat
    have ht := ht.trans (ResultRule.ofCategory_set (by rcases hp with rfl | rfl <;> simp [ho]) _)
    exact hlists ht (members_lists hc rfl ht)
  | children =>
    obtain ⟨o, _, rfl, ho, -⟩ := List.map_eq_cons_iff.1 hcat
    have ht := ht.trans (ResultRule.ofCategory_set (by simp [ho]) _)
    exact hlists ht (children_lists hc rfl ht ho)
  | descendants hps =>
    obtain ⟨o, _, rfl, ho, -⟩ := List.map_eq_cons_iff.1 hcat
    have ht := ht.trans (ResultRule.ofCategory_set (by simp [ho]) _)
    exact hlists ht (descendants_lists hc rfl ht ho)
  | drilldownMember hps =>
    obtain ⟨o, _, rfl, ho, hcat⟩ := List.map_eq_cons_iff.1 hcat
    obtain ⟨x, _, rfl, hx, -⟩ := List.map_eq_cons_iff.1 hcat
    obtain ⟨e, he⟩ := ExprType.eq_set_of_category ho
    have ht := ht.trans (ResultRule.ofCategory_set_of_set he _)
    refine hlists ht (drilldownMember_lists hc rfl he ht fun y hy => ?_)
    cases hy
    exact ExprType.eq_set_of_category hx
  | crossJoin =>
    obtain ⟨x, _, rfl, hx, hcat⟩ := List.map_eq_cons_iff.1 hcat
    obtain ⟨y, _, rfl, hy, hnil⟩ := List.map_eq_cons_iff.1 hcat
    cases List.map_eq_nil_iff.1 hnil
    obtain ⟨e, he⟩ := ExprType.eq_set_of_category hx
    obtain ⟨f, hf⟩ := ExprType.eq_set_of_category hy
    have hcolumns : [x.type, y.type].flatMap ExprType.scopes = e.scopes ++ f.scopes := by
      rw [he, hf]
      simp [ExprType.scopes]
    refine crossJoin_serves hc rfl rfl he hf (ht.trans ?_) fun hstrict => ?_
    · exact congrArg (fun ss => ExprType.set (.tuple ss)) hcolumns
    · have hcount := of_decide_eq_true (hagree hstrict)
      change ([x.type, y.type].flatMap ExprType.scopes).length < _ at hcount
      rwa [hcolumns, List.length_append] at hcount
  | filter =>
    obtain ⟨o, _, rfl, ho, hcat⟩ := List.map_eq_cons_iff.1 hcat
    obtain ⟨e, he⟩ := ExprType.eq_set_of_category ho
    have ht := ht.trans (ResultRule.ofCategory_set_of_set he _)
    exact hlists ht (filter_lists hc rfl he ht)
  | nonEmpty hps =>
    obtain ⟨o, rest, rfl, ho, hcat⟩ := List.map_eq_cons_iff.1 hcat
    obtain ⟨e, he⟩ := ExprType.eq_set_of_category ho
    have ht := ht.trans (ResultRule.ofCategory_set_of_set he _)
    refine hlists ht (nonEmpty_lists hc rfl he ht fun y hy => ExprType.eq_set_of_category ?_)
    have hmem : y.type.category ∈ rest.map fun o => o.type.category :=
      List.mem_map_of_mem (List.mem_of_getElem? hy)
    rw [hcat] at hmem
    simp only [List.mem_cons, List.not_mem_nil, or_false] at hps
    rcases hps with rfl | rfl
    · cases hmem
    · exact List.mem_singleton.1 hmem
  | head hps =>
    obtain ⟨o, _, rfl, ho, hcat⟩ := List.map_eq_cons_iff.1 hcat
    obtain ⟨e, he⟩ := ExprType.eq_set_of_category ho
    have ht := ht.trans (ResultRule.ofCategory_set_of_set he _)
    exact hlists ht (head_lists hc rfl he ht)
  | order hp hps =>
    obtain ⟨o, _, rfl, ho, hcat⟩ := List.map_eq_cons_iff.1 hcat
    obtain ⟨e, he⟩ := ExprType.eq_set_of_category ho
    have ht := ht.trans (ResultRule.ofCategory_set_of_set he _)
    exact hlists ht (order_lists hc rfl he ht)
  | count hps =>
    obtain ⟨o, _, rfl, ho, hcat⟩ := List.map_eq_cons_iff.1 hcat
    obtain ⟨e, he⟩ := ExprType.eq_set_of_category ho
    exact hscalar rfl rfl (count_scalar hc rfl he)
  | aggregate f hps =>
    obtain ⟨o, _, rfl, ho, hcat⟩ := List.map_eq_cons_iff.1 hcat
    obtain ⟨e, he⟩ := ExprType.eq_set_of_category ho
    exact hscalar rfl rfl (aggregate_scalar hc rfl he f (ht ▸ rfl))
  | set hps =>
    have hcats (o : Operand) (ho : o ∈ os) :
        o.type.category = .member ∨ o.type.category = .tuple ∨ o.type.category = .set :=
      hps _ (hcat ▸ List.mem_map_of_mem ho)
    refine hlists ht (set_lists hc ht (elements_pos hc hcats) hcats fun o ho => ?_)
    rw [← ResultRule.scopes_elementOf o.type]
    exact covers_commonElement hagree _ (List.mem_map_of_mem (List.mem_map_of_mem ho))
  | group p =>
    obtain ⟨o, _, rfl, ho, hnil⟩ := List.map_eq_cons_iff.1 hcat
    cases List.map_eq_nil_iff.1 hnil
    rw [ht]
    exact (hc o List.mem_cons_self).serves styles
  | tuple hps =>
    obtain ⟨o, rest, rfl, ho, hrest⟩ := List.map_eq_cons_iff.1 hcat
    obtain ⟨o', rest, rfl, ho', hrest⟩ := List.map_eq_cons_iff.1 hrest
    have hcats (o'' : Operand) (ho'' : o'' ∈ o :: o' :: rest) : o''.type.category = .member :=
      hps _ (hcat ▸ List.mem_map_of_mem ho'')
    refine tuple_serves hc (by simp) hcats (ht.trans (congrArg ExprType.tuple ?_))
    change ((o :: o' :: rest).map Operand.type).flatMap ExprType.scopes
      = (o :: o' :: rest).map fun o => o.type.scope
    rw [List.flatMap_map, List.map_eq_flatMap]
    refine List.flatMap_congr fun o'' ho'' => ?_
    rw [ExprType.eq_member_of_category (hcats o'' ho'')]
    rfl
  | cache hp =>
    obtain ⟨o, _, rfl, ho, -⟩ := List.map_eq_cons_iff.1 hcat
    rw [ht]
    exact cache_serves hc rfl (ho ▸ hp)

/-- Tuples and sets that a call of a built-in function gives have columns. -/
theorem Sound.columns (hd : c.definition.Standard) (h : c.Sound T) : c.type.HasColumns := by
  obtain ⟨⟨⟨name, form, result, parameters⟩, description, reserved, rule, body⟩, t, os⟩ := c
  change Shape body parameters result rule reserved at hd
  obtain ⟨hc, hcat, ht, -⟩ := h
  change os.map (fun o => o.type.category) = parameters at hcat
  change t = rule.apply result (os.map Operand.type) at ht
  change t.HasColumns
  have hargs : ∀ u ∈ os.map Operand.type, u.HasColumns := by
    intro u hu
    obtain ⟨o, ho, rfl⟩ := List.mem_map.1 hu
    exact (hc o ho).columns
  rw [ht]
  cases hd with
  | choice hp =>
    obtain ⟨k, _, rfl, -, hcat⟩ := List.map_eq_cons_iff.1 hcat
    obtain ⟨x, _, rfl, hxp, hcat⟩ := List.map_eq_cons_iff.1 hcat
    obtain ⟨y, _, rfl, hyp, -⟩ := List.map_eq_cons_iff.1 hcat
    exact ExprType.HasColumns.common? (hargs _ (by simp)) (hxp.trans hyp.symm)
  | crossJoin =>
    obtain ⟨x, _, rfl, hx, hcat⟩ := List.map_eq_cons_iff.1 hcat
    have hpos := (hargs x.type (by simp)).pos (.inr (.inr hx))
    change 0 < (x.type.scopes ++ _).length
    rw [List.length_append]
    omega
  | set hps => exact elements_pos hc fun o ho => hps _ (hcat ▸ List.mem_map_of_mem ho)
  | group p =>
    obtain ⟨o, _, rfl, -, hnil⟩ := List.map_eq_cons_iff.1 hcat
    cases List.map_eq_nil_iff.1 hnil
    exact hargs o.type (by simp)
  | tuple hps =>
    obtain ⟨o, rest, rfl, ho, hrest⟩ := List.map_eq_cons_iff.1 hcat
    obtain ⟨o', rest, rfl, ho', hrest⟩ := List.map_eq_cons_iff.1 hrest
    have hpos := (hargs o.type (by simp)).pos (.inl (ho.trans (hps _ (by simp))))
    change 0 < (o.type.scopes ++ _).length
    rw [List.length_append]
    omega
  | cache hp =>
    obtain ⟨o, _, rfl, -, -⟩ := List.map_eq_cons_iff.1 hcat
    exact hargs o.type (by simp)
  | arithmetic op hp | negate hp =>
    rcases hp with rfl | rfl <;> trivial
  | _ =>
    refine ResultRule.hasColumns_declared ?_ hargs
    nofun

end BoundCall

end Olap
