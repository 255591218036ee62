import Olap.Proofs.Function.Selection
import Olap.Proofs.Validation

/-!
# Bound expressions

A validated expression is bound (`Expr.Bound`): its calls are bound to built-in overloads, their
arguments have the categories of the parameters, and whatever is converted can be. The built-in
overloads are of few shapes (`Shape`), which later case splits are over. An expression that is closed,
without parameters and as it was written, is bound once it has been validated
(`Expr.validate_bound`).
-/

set_option autoImplicit false

namespace Olap

/-! ## Built-in overloads -/

/-- What an overload does, its parameters, its result, the rule for its type and the words that it
knows, for the overloads that are built in. -/
inductive Shape : FunctionBody → List Category → Category → ResultRule → List String → Prop
  | arithmetic (op : ArithmeticOp) {c : Category} (hc : c = .numeric ∨ c = .integer) :
      Shape (.arithmetic op) [c, c] c .declared []
  | negate {c : Category} (hc : c = .numeric ∨ c = .integer) : Shape .negate [c] c .declared []
  | compare (op : Comparison) {c : Category} (hc : c = .numeric ∨ c = .string) :
      Shape (.compare op) [c, c] .logical .declared []
  | conjunction : Shape .conjunction [.logical, .logical] .logical .declared []
  | disjunction : Shape .disjunction [.logical, .logical] .logical .declared []
  | negation : Shape .negation [.logical] .logical .declared []
  | choice {c : Category} (hc : c ∈ [Category.numeric, .string, .logical, .member, .set]) :
      Shape .choice [.logical, c, c] c .branches []
  | currentMember : Shape .currentMember [.hierarchy] .member .declared []
  | members {c : Category} (hc : c = .hierarchy ∨ c = .level) : Shape .members [c] .set .declared []
  | children : Shape .children [.member] .set .declared []
  | parent : Shape .parent [.member] .member .declared []
  | descendants {ps : List Category}
      (hps : ps ∈ [[], [.level], [.level, .symbol], [.integer], [Category.integer, .symbol]]) :
      Shape .descendants (.member :: ps) .set .declared (DescendantsFlag.all.map DescendantsFlag.word)
  | drilldownMember {ps : List Category} (hps : ps ∈ [[], [Category.symbol]]) :
      Shape .drilldownMember (.set :: .set :: ps) .set .declared ["RECURSIVE"]
  | crossJoin : Shape .crossJoin [.set, .set] .set .joined []
  | filter : Shape .filter [.set, .logical] .set .declared []
  | nonEmpty {ps : List Category} (hps : ps ∈ [[], [Category.set]]) :
      Shape .nonEmpty (.set :: ps) .set .declared []
  | head {ps : List Category} (hps : ps ∈ [[], [Category.integer]]) :
      Shape .head (.set :: ps) .set .declared []
  | count {ps : List Category} (hps : ps ∈ [[], [Category.symbol]]) :
      Shape .count (.set :: ps) .integer .declared ["EXCLUDEEMPTY", "INCLUDEEMPTY"]
  | order {c : Category} {ps : List Category} (hc : c = .numeric ∨ c = .string)
      (hps : ps ∈ [[], [Category.symbol]]) :
      Shape .order (.set :: c :: ps) .set .declared (SortMode.words.map Prod.fst)
  | set {ps : List Category} (hps : ∀ p ∈ ps, p = .member ∨ p = .tuple ∨ p = .set) :
      Shape .set ps .set .elements []
  | group (c : Category) : Shape .tuple [c] .tuple .columns []
  | tuple {p q : Category} {ps : List Category} (hps : ∀ c ∈ p :: q :: ps, c = .member) :
      Shape .tuple (p :: q :: ps) .tuple .columns []
  | aggregate (a : Aggregate) {ps : List Category} (hps : ps ∈ [[], [Category.numeric]]) :
      Shape (.aggregate a) (.set :: ps) .numeric .declared []
  | cache {c : Category} (hc : c = .value ∨ c = .set) : Shape .cache [c] c .first []
  | value {c : Category} (hc : c = .member ∨ c = .tuple) : Shape .value [c] .value .declared []

/-- The overload is of one of the shapes that are built in. -/
def Definition.Standard (d : Definition) : Prop :=
  Shape d.body d.signature.parameters d.signature.result d.resultRule d.reserved

theorem forall₂_of_mapM {α β : Type} {f : α → Option β} {as : List α} {bs : List β}
    (h : as.mapM f = some bs) : List.Forall₂ (fun a b => f a = some b) as bs := by
  induction as generalizing bs with
  | nil =>
    cases h
    exact .nil
  | cons a as ih =>
    rw [List.mapM_cons] at h
    obtain ⟨b, hb, h⟩ := Option.bind_eq_some_iff.1 h
    obtain ⟨bs', hbs, h⟩ := Option.bind_eq_some_iff.1 h
    cases h
    exact .cons hb (ih hbs)

theorem exists_of_mem_mapM {α β : Type} {f : α → Option β} {as : List α} {bs : List β}
    (h : as.mapM f = some bs) {b : β} (hb : b ∈ bs) : ∃ a ∈ as, f a = some b := by
  have hall := forall₂_of_mapM h
  clear h
  induction hall with
  | nil => cases hb
  | cons ha _ ih =>
    rcases List.mem_cons.1 hb with rfl | hb
    · exact ⟨_, List.mem_cons_self, ha⟩
    · obtain ⟨a, ha, hab⟩ := ih hb
      exact ⟨a, List.mem_cons_of_mem _ ha, hab⟩

namespace VariadicRule

variable {cs ps : List Category}

theorem elements_shape (h : elements.parameters? cs = some ps) :
    Shape .set ps .set .elements [] := by
  refine .set fun p hp => ?_
  obtain ⟨c, -, hc⟩ := exists_of_mem_mapM h hp
  split at hc <;> cases hc <;> simp

theorem columns_shape (h : columns.parameters? cs = some ps) :
    Shape .tuple ps .tuple .columns [] := by
  rcases cs with _ | ⟨c, _ | ⟨c', cs⟩⟩
  · cases h
  · cases h
    exact .group c
  · have hall := forall₂_of_mapM h
    have hmember : ∀ p ∈ ps, p = .member := by
      intro p hp
      obtain ⟨c, -, hc⟩ := exists_of_mem_mapM h hp
      split at hc <;> cases hc <;> rfl
    cases hall with
    | cons _ hall => cases hall with
      | cons _ _ => exact .tuple hmember

end VariadicRule

namespace Builtins

/-- All overloads of the resolver are of built-in shapes. -/
def AllStandard (r : Resolver) : Prop :=
  ∀ args : List Expr, ∀ d ∈ r.overloads args, d.Standard

theorem allStandard_overloads {name description : String} {form : CallForm}
    {shapes : List (Category × List Category)} {body : FunctionBody} {rule : ResultRule}
    {reserved : List String} (h : ∀ s ∈ shapes, Shape body s.2 s.1 rule reserved) :
    AllStandard (overloads name description form shapes body rule reserved) := by
  intro args d hd
  obtain ⟨s, hs, rfl⟩ := List.mem_map.1 hd
  obtain ⟨p, hp, rfl⟩ := List.mem_map.1 hs
  exact h p hp

theorem allStandard_operators : ∀ r ∈ operators, AllStandard r := by
  simp only [operators, List.forall_mem_cons, List.not_mem_nil, IsEmpty.forall_iff,
    implies_true, and_true]
  refine ⟨?_, ?_, ?_, ?_, ?_, ?_, ?_, ?_, ?_, ?_, ?_⟩ <;> refine allStandard_overloads ?_
  · simp [onNumbers, Shape.arithmetic]
  · simp [onNumbers, Shape.arithmetic]
  · simp [onNumbers, Shape.arithmetic]
  · simp [onNumbers, Shape.arithmetic]
  · simp [Shape.negate]
  all_goals simp [onNumbersOrStrings, Shape.compare]

theorem allStandard_logic : ∀ r ∈ logic, AllStandard r := by
  simp only [logic, List.forall_mem_cons, List.not_mem_nil, IsEmpty.forall_iff,
    implies_true, and_true]
  refine ⟨?_, ?_, ?_, ?_⟩ <;> refine allStandard_overloads ?_
  · simp [onLogicals, Shape.conjunction]
  · simp [onLogicals, Shape.disjunction]
  · simp [Shape.negation]
  · simp [Shape.choice]

theorem allStandard_navigation : ∀ r ∈ navigation, AllStandard r := by
  simp only [navigation, List.forall_mem_cons, List.not_mem_nil, IsEmpty.forall_iff,
    implies_true, and_true]
  refine ⟨?_, ?_, ?_, ?_, ?_, ?_⟩ <;> refine allStandard_overloads ?_
  · simp [Shape.currentMember]
  · simp [Shape.members]
  · simp [Shape.children]
  · simp [Shape.parent]
  · simp [Shape.descendants]
  · simp [Shape.drilldownMember]

theorem allStandard_sets : ∀ r ∈ sets, AllStandard r := by
  simp only [sets, List.forall_mem_cons, List.not_mem_nil, IsEmpty.forall_iff,
    implies_true, and_true]
  refine ⟨?_, ?_, ?_, ?_, ?_, ?_, ?_, ?_, ?_⟩
  · exact allStandard_overloads (by simp [Shape.crossJoin])
  · exact allStandard_overloads (by simp [Shape.crossJoin])
  · exact allStandard_overloads (by simp [Shape.filter])
  · exact allStandard_overloads (by simp [Shape.nonEmpty])
  · exact allStandard_overloads (by simp [Shape.head])
  · exact allStandard_overloads (by simp [Shape.count])
  · exact allStandard_overloads (by simp [Shape.order])
  · intro args d hd
    obtain ⟨ps, hps, rfl⟩ := Option.map_eq_some_iff.1 (Option.mem_toList.1 hd)
    exact VariadicRule.elements_shape hps
  · intro args d hd
    obtain ⟨ps, hps, rfl⟩ := Option.map_eq_some_iff.1 (Option.mem_toList.1 hd)
    exact VariadicRule.columns_shape hps

theorem allStandard_aggregates : ∀ r ∈ aggregates, AllStandard r := by
  simp only [aggregates, List.forall_mem_cons, List.not_mem_nil, IsEmpty.forall_iff,
    implies_true, and_true]
  refine ⟨?_, ?_, ?_⟩ <;> refine allStandard_overloads ?_ <;> simp [overSets, Shape.aggregate]

theorem allStandard_others : ∀ r ∈ others, AllStandard r := by
  simp only [others, List.forall_mem_cons, List.not_mem_nil, IsEmpty.forall_iff,
    implies_true, and_true]
  refine ⟨?_, ?_⟩ <;> refine allStandard_overloads ?_
  · simp [Shape.cache]
  · simp [Shape.value]

end Builtins

theorem FunctionTable.allStandard_builtin :
    ∀ r ∈ FunctionTable.builtin.resolvers, Builtins.AllStandard r := by
  intro r hr
  simp only [FunctionTable.builtin, List.mem_append] at hr
  rcases hr with ((((hr | hr) | hr) | hr) | hr) | hr
  · exact Builtins.allStandard_operators r hr
  · exact Builtins.allStandard_logic r hr
  · exact Builtins.allStandard_navigation r hr
  · exact Builtins.allStandard_sets r hr
  · exact Builtins.allStandard_aggregates r hr
  · exact Builtins.allStandard_others r hr

/-! ## Bound expressions -/

namespace Expr

/-- The expression is bound (module doc). -/
inductive Bound : Expr → Prop
  | literal (l : Literal) : Bound (.literal l)
  | member (m : Member) : Bound (.member m)
  | level (l : Level) : Bound (.level l)
  | hierarchy (h : Hierarchy) : Bound (.hierarchy h)
  | dimension (d : Dimension) : Bound (.dimension d)
  | call {d : Definition} {args : List Expr} (hd : d.Standard)
      (hcat : args.map (fun e => e.type.category) = d.signature.parameters)
      (hsym : d.checkSymbols args = .ok ()) (hargs : ∀ e ∈ args, Bound e) :
      Bound (.bound d (d.resultType (args.map Expr.type)) args)
  | convert {e : Expr} {p : Category} (he : Bound e) (hne : e.type.category ≠ p)
      (hcost : (e.type.category.conversionCost? p).isSome) (hr : ¬ e.Refuses p) :
      Bound (.convert e (e.type.convertedTo p) (e.type.category.conversionTo p))

mutual

/-- The expression has no parameters, no call in it is bound and nothing is converted. -/
def isClosed : Expr → Bool
  | call _ _ args => allClosed args
  | parameter _ | bound .. | convert .. => false
  | _ => true

def allClosed : List Expr → Bool
  | [] => true
  | e :: es => e.isClosed && allClosed es

end

/-! ## Passing arguments -/

/-- The argument can be passed to the parameter. -/
def Passes (e : Expr) (p : Category) : Prop :=
  (e.type.category.conversionCost? p).isSome ∧ ¬ e.Refuses p

theorem Bound.passedTo {e : Expr} {p : Category} (he : e.Bound) (hp : e.Passes p) :
    (e.passedTo p).Bound := by
  unfold Expr.passedTo
  split
  · exact he
  · rename_i hne
    exact .convert he hne hp.1 hp.2

theorem not_refuses_of_checkPassing {e : Expr} {p : Category} (h : e.checkPassing p = .ok ()) :
    ¬ e.Refuses p := by
  rintro ⟨d, htype, hp⟩
  simp [checkPassing, Conversion.checkValid, htype, hp] at h

end Expr

namespace FunctionTable

variable {t : FunctionTable} {name : String} {form : CallForm} {args args' : List Expr}
  {d : Definition}

/-- What a call is bound to is an overload that a resolver for its name and form has for the
arguments. -/
theorem resolveCall_mem (h : t.resolveCall name form args = .ok (d, args')) :
    ∃ r ∈ t.lookup name form, d ∈ r.overloads args ∧
      (passingCost? d.signature.parameters (args.map Expr.type)).isSome := by
  have hd := (bound_iff.1 h).1
  have hmem : d ∈ cheapest (t.fits name form args) := hd ▸ List.mem_singleton_self d
  obtain ⟨⟨d', cost⟩, hfit, hd'⟩ := List.mem_map.1 hmem
  obtain rfl : d' = d := hd'
  obtain ⟨d, hd', hcost⟩ := List.mem_filterMap.1 (List.mem_filter.1 hfit).1
  obtain ⟨k, hk, heq⟩ := Option.map_eq_some_iff.1 hcost
  obtain ⟨rfl, rfl⟩ := Prod.mk.inj heq
  obtain ⟨r, hr, hdr⟩ := List.mem_flatMap.1 hd'
  exact ⟨r, hr, hdr, Option.isSome_of_eq_some hk⟩

/-- What a call is bound to is an overload of one of the resolvers, to which every argument can be
passed. -/
theorem resolveCall_passes (h : t.resolveCall name form args = .ok (d, args')) :
    (∃ r ∈ t.resolvers, d ∈ r.overloads args) ∧
      args' = List.zipWith Expr.passedTo args d.signature.parameters ∧
      List.Forall₂ Expr.Passes args d.signature.parameters := by
  obtain ⟨-, haccept⟩ := bound_iff.1 h
  obtain ⟨r, hr, hdr, hfits⟩ := resolveCall_mem h
  have hconvertible := convertible_of_passingCost? hfits
  obtain ⟨⟨⟩, hcheck, haccept⟩ := bind_eq_ok.1 haccept
  cases haccept
  refine ⟨⟨r, mem_resolvers_of_mem_lookup hr, hdr⟩, rfl, ?_⟩
  have hconvertible := (List.forall₂_map_right_iff.1 hconvertible).flip
  refine List.forall₂_iff_zip.2 ⟨hconvertible.length_eq, fun {e p} hep => ?_⟩
  exact ⟨List.forall₂_zip hconvertible hep,
    Expr.not_refuses_of_checkPassing (forM_ok hcheck (e, p) hep)⟩

end FunctionTable

/-! ## Validation binds -/

namespace Expr

open ValidateM (Gives)

variable {args : List Expr}

theorem passed_bound {ps : List Category} (h : List.Forall₂ Passes args ps)
    (hargs : ∀ e ∈ args, e.Bound) : ∀ e ∈ List.zipWith Expr.passedTo args ps, e.Bound := by
  induction h with
  | nil => exact List.forall_mem_nil _
  | cons hp _ ih =>
    obtain ⟨he, hes⟩ := List.forall_mem_cons.1 hargs
    exact List.forall_mem_cons.2 ⟨he.passedTo hp, ih hes⟩

theorem bind_bound {name : String} {form : CallForm} (hargs : ∀ e ∈ args, e.Bound) :
    Produces Bound (FunctionTable.builtin.bind name form args) := by
  intro e he
  obtain ⟨d, args', hres, hsym, rfl⟩ := FunctionTable.bind_eq_ok_iff.1 he
  obtain ⟨⟨r, hr, hd⟩, rfl, hpasses⟩ := FunctionTable.resolveCall_passes hres
  exact .call (FunctionTable.allStandard_builtin r hr _ d hd) (passed_categories hpasses) hsym
    (passed_bound hpasses hargs)

section
variable {t : FunctionTable}

def BindsBound (t : FunctionTable) : Prop :=
  ∀ (name : String) (form : CallForm) (args : List Expr), (∀ e ∈ args, e.Bound) →
    Produces Bound (t.bind name form args)

mutual

theorem validate_bound_gives (ht : BindsBound t) : ∀ e : Expr, e.isClosed = true →
    Gives Bound (e.validate t)
  | call name form args, hc =>
    (validateAll_bound_gives ht args hc).bind fun _ h => .lift (ht name form _ h)
  | bound .., hc => nomatch hc
  | convert .., hc => nomatch hc
  | parameter _, hc => nomatch hc
  | literal l, _ => .pure (.literal l)
  | member m, _ => .pure (.member m)
  | level l, _ => .pure (.level l)
  | hierarchy h, _ => .pure (.hierarchy h)
  | dimension d, _ => .pure (.dimension d)

theorem validateAll_bound_gives (ht : BindsBound t) : ∀ es : List Expr, allClosed es = true →
    Gives (fun es => ∀ e ∈ es, e.Bound) (validateAll t es)
  | [], _ => .pure (List.forall_mem_nil _)
  | e :: es, hc => by
    rw [allClosed, Bool.and_eq_true] at hc
    exact (validate_bound_gives ht e hc.1).bind fun _ h =>
      (validateAll_bound_gives ht es hc.2).bind fun _ h' => .pure (List.forall_mem_cons.2 ⟨h, h'⟩)

end

end

/-- A closed expression is bound once it has been validated. -/
theorem validate_bound {e e' : Expr} {registry : ParameterRegistry} (hc : e.isClosed = true)
    (h : ((e.validate .builtin).run registry).1 = .ok e') : e'.Bound :=
  validate_bound_gives (fun _ _ _ => bind_bound) e hc registry e' h

end Expr

/-! ## Conversions -/

/-- The conversions between different categories. -/
inductive Converts : Category → Category → ConversionKind → Prop
  | numericPromotion : Converts .integer .numeric .numericPromotion
  | toNumber : Converts .logical .numeric .logicalNumeric
  | toLogical {c : Category} (hc : c.isNumeric = true) : Converts c .logical .logicalNumeric
  | nullToScalar {p : Category} (hp : p.isScalar = true) : Converts .null p .nullToScalar
  | scalarToValue {c : Category} (hc : c.isScalar = true) : Converts c .value .scalarToValue
  | valueToScalar {p : Category} (hp : p ∈ [Category.numeric, .integer, .string, .logical]) :
      Converts .value p .valueToScalar
  | cellValue {c p : Category} (hc : c = .member ∨ c = .tuple)
      (hp : p ∈ [Category.numeric, .string, .logical, .value]) : Converts c p .cellValue
  | memberToTuple : Converts .member .tuple .memberToTuple
  | toSet {c : Category} (hc : c = .member ∨ c = .tuple) : Converts c .set .toSet
  | currentMember {c : Category} (hc : c = .hierarchy ∨ c = .dimension) :
      Converts c .member .currentMember
  | dimensionToHierarchy : Converts .dimension .hierarchy .dimensionToHierarchy
  | levelToHierarchy : Converts .level .hierarchy .levelToHierarchy

theorem Category.converts {c p : Category} (hne : c ≠ p) (h : (c.conversionCost? p).isSome) :
    Converts c p (c.conversionTo p) := by
  cases c <;> cases p <;> first
    | exact absurd rfl hne
    | exact absurd h Bool.false_ne_true
    | exact .numericPromotion
    | exact .toNumber
    | exact .toLogical rfl
    | exact .nullToScalar rfl
    | exact .scalarToValue rfl
    | exact .valueToScalar (by decide)
    | exact .cellValue (by decide) (by decide)
    | exact .memberToTuple
    | exact .toSet (by decide)
    | exact .currentMember (by decide)
    | exact .dimensionToHierarchy
    | exact .levelToHierarchy

/-! ## Categories of results -/

theorem ExprType.common?_category {t u v : ExprType} (h : t.common? u = some v)
    (hcat : t.category = u.category) : v.category = t.category := by
  unfold common? at h
  split at h
  · cases h
    rfl
  · rename_i hne
    split at h
    · cases h
      exact hcat.symm
    · split at h
      · cases h
        rfl
      · split at h
        · cases hcat
        · cases hcat
        · cases h
          rfl
        · split at h <;> cases h
          rfl
        · obtain ⟨_, -, rfl⟩ := Option.map_eq_some_iff.1 h
          rfl
        · split at h
          · rename_i hscalar
            cases t <;> cases u <;> first
              | exact absurd rfl hne
              | exact absurd (hscalar.1 : false = true) Bool.false_ne_true
              | exact nomatch hcat
          · cases h

namespace Definition

variable {d : Definition} {args : List Expr}

theorem category_resultType (h : d.resultRule = .declared) (arguments : List ExprType) :
    (d.resultType arguments).category = d.signature.result := by
  rw [resultType, h]
  exact ResultRule.ofCategory_category d.signature.result arguments

theorem Standard.result_ne_symbol (hd : d.Standard) : d.signature.result ≠ .symbol := by
  obtain ⟨⟨name, form, result, parameters⟩, description, reserved, rule, body⟩ := d
  change Shape body parameters result rule reserved at hd
  rintro rfl
  cases hd <;> simp_all

/-- The overload groups a single argument. -/
def IsGroup (d : Definition) : Prop := d.body = .tuple ∧ d.signature.parameters.length = 1

/-- A group has the type of its element, and knows no words. -/
theorem Standard.resultType_group (hd : d.Standard) (hgroup : d.IsGroup)
    (hcat : args.map (fun e => e.type.category) = d.signature.parameters) :
    d.reserved = [] ∧ ∃ e, args = [e] ∧ d.resultType (args.map Expr.type) = e.type := by
  obtain ⟨⟨name, form, result, parameters⟩, description, reserved, rule, body⟩ := d
  change Shape body parameters result rule reserved at hd
  obtain ⟨hbody, hlen⟩ : body = .tuple ∧ parameters.length = 1 := hgroup
  change args.map (fun e => e.type.category) = parameters at hcat
  subst hbody
  cases hd with
  | group c =>
    obtain ⟨e, es, rfl, -, hcat⟩ := List.map_eq_cons_iff.1 hcat
    rw [List.map_eq_nil_iff.1 hcat]
    exact ⟨rfl, e, rfl, rfl⟩
  | tuple hps => simp at hlen

/-- The result of any other overload has the category that the signature declares. -/
theorem Standard.category_resultType (hd : d.Standard) (hgroup : ¬ d.IsGroup)
    (hcat : args.map (fun e => e.type.category) = d.signature.parameters) :
    (d.resultType (args.map Expr.type)).category = d.signature.result := by
  obtain ⟨⟨name, form, result, parameters⟩, description, reserved, rule, body⟩ := d
  change Shape body parameters result rule reserved at hd
  change args.map (fun e => e.type.category) = parameters at hcat
  cases hd with
  | choice hc =>
    obtain ⟨e, es, rfl, -, hcat⟩ := List.map_eq_cons_iff.1 hcat
    obtain ⟨a, es, rfl, ha, hcat⟩ := List.map_eq_cons_iff.1 hcat
    obtain ⟨b, es, rfl, hb, hcat⟩ := List.map_eq_cons_iff.1 hcat
    change ((a.type.common? b.type).getD a.type).category = result
    rcases hcommon : a.type.common? b.type with _ | v
    · exact ha
    · exact (ExprType.common?_category hcommon (ha.trans hb.symm)).trans ha
  | crossJoin => rfl
  | set hps => rfl
  | group c => exact absurd ⟨rfl, rfl⟩ hgroup
  | tuple hps =>
    obtain ⟨e, es, rfl, -, hcat⟩ := List.map_eq_cons_iff.1 hcat
    obtain ⟨e', es, rfl, -, hcat⟩ := List.map_eq_cons_iff.1 hcat
    rfl
  | cache hc =>
    obtain ⟨e, es, rfl, he, -⟩ := List.map_eq_cons_iff.1 hcat
    exact he
  | _ => exact category_resultType rfl _

end Definition

namespace Expr

/-- A bound expression with the type of a symbol is one. -/
theorem Bound.eq_symbol {e : Expr} (he : e.Bound) (h : e.type.category = .symbol) :
    ∃ word, e = .literal (.symbol word) := by
  induction he with
  | literal l =>
    cases l with
    | symbol word => exact ⟨word, rfl⟩
    | _ => cases h
  | call hd hcat hsym hargs ih =>
    rename_i d args
    by_cases hgroup : d.IsGroup
    · obtain ⟨hreserved, e, rfl, htype⟩ := hd.resultType_group hgroup hcat
      change (d.resultType _).category = _ at h
      rw [htype] at h
      obtain ⟨word, rfl⟩ := ih e List.mem_cons_self h
      simp [Definition.checkSymbols, symbol?, hreserved] at hsym
    · exact absurd ((hd.category_resultType hgroup hcat).symm.trans h) hd.result_ne_symbol
  | convert he hne hcost hr =>
    rename_i e p ih
    change (e.type.convertedTo p).category = _ at h
    rw [convertedTo_category] at h
    subst h
    have hconverts := Category.converts hne hcost
    generalize e.type.category = c, e.type.category.conversionTo .symbol = kind at hconverts
    cases hconverts <;> simp_all [Category.isScalar]
  | _ => cases h

/-- The words among the arguments of a bound call are known to its overload. -/
theorem known_of_checkSymbols {d : Definition} {args : List Expr}
    (h : d.checkSymbols args = .ok ()) :
    ∀ e ∈ args, ∀ word, e.symbol? = some word →
      ∃ r ∈ d.reserved, r.toUpper = word.toUpper := by
  induction args with
  | nil => exact List.forall_mem_nil _
  | cons e es ih =>
    rw [Definition.checkSymbols] at h
    refine List.forall_mem_cons.2 ⟨fun word hword => ?_, ih ?_⟩
    · simp only [hword] at h
      split at h
      · rename_i hany
        obtain ⟨r, hr, heq⟩ := List.any_eq_true.1 hany
        exact ⟨r, hr, eq_of_beq heq⟩
      · cases h
    · split at h
      · exact h
      · split at h
        · exact h
        · cases h

end Expr

end Olap
