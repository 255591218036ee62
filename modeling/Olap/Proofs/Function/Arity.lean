import Olap.Proofs.Function.Braces
import Olap.Proofs.Function.Categories

/-!
# Overloads told apart by their number of parameters

If only one overload of a function has as many parameters as a call has arguments, there is nothing to
choose: the call is bound to this overload whenever its arguments can be passed to the parameters
(`FunctionTable.Sole.exists_bind_iff`).
-/

set_option autoImplicit false

namespace Olap

/-- Arguments that can be passed to parameters have a cost. -/
theorem isSome_passingCost? {args : List Expr} {ps : List Category}
    (h : List.Forall₂ Expr.Passes args ps) : (passingCost? ps (args.map Expr.type)).isSome = true := by
  induction h with
  | nil => rfl
  | cons hp _ ih =>
    obtain ⟨cost, hcost⟩ := Option.isSome_iff_exists.1 hp.1
    obtain ⟨rest, hrest⟩ := Option.isSome_iff_exists.1 ih
    rw [List.map_cons, passingCost?, hcost, hrest]
    rfl

/-- Only as many arguments as there are parameters have a cost. -/
theorem length_of_passingCost? {ps : List Category} {ts : List ExprType}
    (h : (passingCost? ps ts).isSome = true) : ps.length = ts.length :=
  (convertible_of_passingCost? h).length_eq

namespace FunctionTable

/-- Apart from its description, the overload is the only one for the name and form that has its number
of parameters, and there are no functions with any number of arguments for these. -/
def Sole (t : FunctionTable) (name : String) (form : CallForm) (d : Definition) : Prop :=
  (t.lookup name form).all Resolver.isFixed = true ∧
    ((t.lookup name form).flatMap fun r => (r.overloads []).filter fun o =>
      o.signature.parameters.length == d.signature.parameters.length).map Definition.undescribed = [d]

instance (t : FunctionTable) (name : String) (form : CallForm) (d : Definition) :
    Decidable (t.Sole name form d) := inferInstanceAs (Decidable (_ ∧ _))

variable {t : FunctionTable} {name : String} {form : CallForm} {d : Definition}

/-- The costs of a list with one overload leave nothing to choose. -/
theorem cheapest_singleton (d : Definition) (cost : Nat) : cheapest [(d, cost)] = [d] := by
  have hall : ([(d, cost)].filter fun f => [(d, cost)].all fun g => f.2 ≤ g.2) = [(d, cost)] := by
    simp
  rw [cheapest, hall]
  rfl

theorem Sole.exists_fits (h : t.Sole name form d) : ∃ o : Definition, o.undescribed = d ∧
    ∀ args : List Expr, args.length = o.signature.parameters.length →
      t.fits name form args =
        ((passingCost? o.signature.parameters (args.map Expr.type)).map (o, ·)).toList := by
  obtain ⟨hfixed, hone⟩ := h
  obtain ⟨o, ho, rfl⟩ := List.map_eq_singleton_iff.1 hone
  refine ⟨o, rfl, fun args hlength => ?_⟩
  have hoverloads : (t.lookup name form).flatMap (·.overloads args) =
      (t.lookup name form).flatMap (·.overloads []) := by
    refine List.flatMap_congr fun r hr => ?_
    cases r with
    | fixed o => rfl
    | variadic v => cases List.all_eq_true.1 hfixed _ hr
  have hfilter : ((t.lookup name form).flatMap (·.overloads [])).filter (fun o =>
      o.signature.parameters.length == args.length) = [o] := by
    rw [List.filter_flatMap, hlength]
    exact ho
  -- overloads with other numbers of parameters do not fit
  have hfits : t.fits name form args = [o].filterMap fun o =>
      (passingCost? o.signature.parameters (args.map Expr.type)).map (o, ·) := by
    rw [fits, hoverloads, ← hfilter, List.filterMap_filter]
    refine List.filterMap_congr fun o _ => ?_
    split
    · rfl
    · rename_i hother
      rcases hcost : passingCost? o.signature.parameters (args.map Expr.type) with _ | cost
      · rfl
      · have hlength := length_of_passingCost? (by rw [hcost]; rfl)
        rw [List.length_map] at hlength
        exact absurd (beq_iff_eq.2 hlength) hother
  rw [hfits, List.filterMap_cons, List.filterMap_nil]
  rcases passingCost? o.signature.parameters (args.map Expr.type) with _ | cost <;> rfl

theorem checkSymbols_undescribed (d : Definition) (es : List Expr) :
    d.undescribed.checkSymbols es = d.checkSymbols es := by
  induction es with
  | nil => rfl
  | cons e es ih =>
    rw [Definition.checkSymbols, Definition.checkSymbols, ih]
    rfl

/-- A call with as many arguments is bound to the overload whenever these can be passed. -/
theorem Sole.exists_bind_iff (h : t.Sole name form d) : ∃ description,
    ∀ (args : List Expr) (e : Expr), args.length = d.signature.parameters.length →
      let passed := List.zipWith Expr.passedTo args d.signature.parameters
      (t.bind name form args = .ok e ↔
        List.Forall₂ Expr.Passes args d.signature.parameters ∧ d.checkSymbols passed = .ok () ∧
          e = .bound { d with description } (d.resultType (passed.map Expr.type)) passed) := by
  obtain ⟨o, rfl, hfits⟩ := h.exists_fits
  refine ⟨o.description, fun args e hlength => ?_⟩
  have hfits := hfits args hlength
  have hresolve : List.Forall₂ Expr.Passes args o.signature.parameters →
      t.resolveCall name form args =
        .ok (o, List.zipWith Expr.passedTo args o.signature.parameters) := by
    intro hpasses
    obtain ⟨cost, hcost⟩ := Option.isSome_iff_exists.1 (isSome_passingCost? hpasses)
    rw [hcost] at hfits
    have hcheapest : cheapest (t.fits name form args) = [o] := by
      rw [hfits]
      exact cheapest_singleton o cost
    rw [resolveCall_of_cheapest hcheapest, Definition.accept_of_passes hpasses]
  intro passed
  rw [checkSymbols_undescribed]
  refine ⟨fun hbind => ?_, fun ⟨hpasses, hsymbols, he⟩ => ?_⟩
  · obtain ⟨o', args', hres, hsymbols, rfl⟩ := bind_eq_ok_iff.1 hbind
    have hmem := List.mem_singleton_self o'
    rw [← (bound_iff.1 hres).1, hfits] at hmem
    obtain rfl : o' = o := by
      rcases hcost : passingCost? o.signature.parameters (args.map Expr.type) with _ | cost
      all_goals rw [hcost] at hmem
      · cases hmem
      · exact List.mem_singleton.1 (cheapest_singleton o cost ▸ hmem)
    obtain ⟨-, rfl, hpasses⟩ := resolveCall_passes hres
    exact ⟨hpasses, hsymbols, rfl⟩
  · exact bind_eq_ok_iff.2 ⟨o, _, hresolve hpasses, hsymbols, he⟩

/-- Where no parameter is a symbol, there are no words to look at. -/
theorem Sole.exists_bind_iff_passes (h : t.Sole name form d)
    (hsymbol : Category.symbol ∉ d.signature.parameters) : ∃ description,
    ∀ (args : List Expr) (e : Expr), args.length = d.signature.parameters.length →
      let passed := List.zipWith Expr.passedTo args d.signature.parameters
      (t.bind name form args = .ok e ↔ List.Forall₂ Expr.Passes args d.signature.parameters ∧
        e = .bound { d with description } (d.resultType (passed.map Expr.type)) passed) := by
  obtain ⟨description, hbind⟩ := h.exists_bind_iff
  refine ⟨description, fun args e hlength => ?_⟩
  have hwords : List.Forall₂ Expr.Passes args d.signature.parameters →
      d.checkSymbols (List.zipWith Expr.passedTo args d.signature.parameters) = .ok () := by
    intro hpasses
    refine Definition.checkSymbols_of_known fun e he word hword => ?_
    have hcategory : e.type.category ∈ d.signature.parameters := by
      rw [← Expr.passed_categories hpasses]
      exact List.mem_map_of_mem he
    rw [Expr.symbol?_eq_none fun heq => hsymbol (heq ▸ hcategory)] at hword
    cases hword
  exact (hbind args e hlength).trans
    ⟨fun ⟨hpasses, _, he⟩ => ⟨hpasses, he⟩, fun ⟨hpasses, he⟩ => ⟨hpasses, hwords hpasses, he⟩⟩

end FunctionTable

/-! ## Validating calls -/

namespace Expr

open ValidateM

variable {t : FunctionTable} {name : String} {form : CallForm} {d : Definition} {p q : Category}
  {registry registry' : ParameterRegistry} {e l r : Expr} {args : List Expr}

/-- An argument of the category of the parameter is passed as it is. -/
theorem passes_self (h : e.type.category = p) : e.Passes p ∧ e.passedTo p = e := by
  subst h
  refine ⟨⟨by rw [conversionCost?_self]; rfl, ?_⟩, if_pos rfl⟩
  exact not_refuses_of_checkPassing (checkPassing_of_category rfl)

/-- A call is validated by validating its arguments and then binding it. -/
theorem validate_call_ok :
    ((call name form args).validate t).run registry = (.ok e, registry') ↔ ∃ args',
      (validateAll t args).run registry = (.ok args', registry') ∧ t.bind name form args' = .ok e := by
  rw [validate, run_bind_ok]
  constructor
  · rintro ⟨args', between, hargs, hlift⟩
    obtain ⟨hbind, rfl⟩ := run_lift_ok.1 hlift
    exact ⟨args', hargs, hbind⟩
  · rintro ⟨args', hargs, hbind⟩
    exact ⟨args', registry', hargs, run_lift_ok.2 ⟨hbind, rfl⟩⟩

theorem validateAll_cons_ok {es : List Expr} :
    (validateAll t (l :: args)).run registry = (.ok es, registry') ↔ ∃ x xs between,
      (l.validate t).run registry = (.ok x, between) ∧
        (validateAll t args).run between = (.ok xs, registry') ∧ es = x :: xs := by
  rw [validateAll, run_bind_ok]
  constructor
  · rintro ⟨x, between, hx, h⟩
    obtain ⟨xs, between', hxs, h⟩ := run_bind_ok.1 h
    obtain ⟨rfl, rfl⟩ := run_pure_ok.1 h
    exact ⟨x, xs, between, hx, hxs, rfl⟩
  · rintro ⟨x, xs, between, hx, hxs, rfl⟩
    exact ⟨x, between, hx, run_bind_ok.2 ⟨xs, registry', hxs, run_pure_ok.2 ⟨rfl, rfl⟩⟩⟩

theorem validateAll_singleton_ok {es : List Expr} :
    (validateAll t [l]).run registry = (.ok es, registry') ↔ ∃ x,
      (l.validate t).run registry = (.ok x, registry') ∧ es = [x] := by
  rw [validateAll_cons_ok]
  constructor
  · rintro ⟨x, xs, between, hx, hxs, rfl⟩
    obtain ⟨rfl, rfl⟩ := run_pure_ok.1 hxs
    exact ⟨x, hx, rfl⟩
  · rintro ⟨x, hx, rfl⟩
    exact ⟨x, [], registry', hx, run_pure_ok.2 ⟨rfl, rfl⟩, rfl⟩

theorem validateAll_pair_ok {es : List Expr} :
    (validateAll t [l, r]).run registry = (.ok es, registry') ↔ ∃ x y between,
      (l.validate t).run registry = (.ok x, between) ∧
        (r.validate t).run between = (.ok y, registry') ∧ es = [x, y] := by
  rw [validateAll_cons_ok]
  constructor
  · rintro ⟨x, xs, between, hx, hxs, rfl⟩
    obtain ⟨y, hy, rfl⟩ := validateAll_singleton_ok.1 hxs
    exact ⟨x, y, between, hx, hy, rfl⟩
  · rintro ⟨x, y, between, hx, hy, rfl⟩
    exact ⟨x, [y], between, hx, validateAll_singleton_ok.2 ⟨y, hy, rfl⟩, rfl⟩

theorem allUnbound_pair (hl : l.isUnbound = true) (hr : r.isUnbound = true) :
    allUnbound [l, r] = true := by
  rw [allUnbound, allUnbound, allUnbound, hl, hr]
  rfl

/-- The call of an overload with two parameters. -/
def boundPair (d : Definition) (p q : Category) (x y : Expr) : Expr :=
  .bound d (d.resultType [(x.passedTo p).type, (y.passedTo q).type]) [x.passedTo p, y.passedTo q]

/-- A call with two arguments is validated if these are and can be passed to the parameters. -/
theorem exists_validate_pair_iff (h : t.Sole name form d)
    (hparameters : d.signature.parameters = [p, q])
    (hsymbol : Category.symbol ∉ d.signature.parameters) : ∃ description,
    ∀ {l r e : Expr} {registry registry' : ParameterRegistry},
      ((call name form [l, r]).validate t).run registry = (.ok e, registry') ↔ ∃ x y between,
        (l.validate t).run registry = (.ok x, between) ∧
          (r.validate t).run between = (.ok y, registry') ∧ x.Passes p ∧ y.Passes q ∧
            e = boundPair { d with description } p q x y := by
  obtain ⟨description, hbind⟩ := h.exists_bind_iff_passes hsymbol
  refine ⟨description, fun {l r e registry registry'} => ?_⟩
  have hpair (x y : Expr) := hbind [x, y] e (by rw [hparameters]; rfl)
  rw [hparameters] at hpair
  rw [validate_call_ok]
  constructor
  · rintro ⟨args', hargs, he⟩
    obtain ⟨x, y, between, hx, hy, rfl⟩ := validateAll_pair_ok.1 hargs
    obtain ⟨hpasses, he⟩ := (hpair x y).1 he
    obtain ⟨hp, hq⟩ := List.forall₂_cons.1 hpasses
    exact ⟨x, y, between, hx, hy, hp, (List.forall₂_cons.1 hq).1, he⟩
  · rintro ⟨x, y, between, hx, hy, hp, hq, he⟩
    exact ⟨[x, y], validateAll_pair_ok.2 ⟨x, y, between, hx, hy, rfl⟩,
      (hpair x y).2 ⟨.cons hp (.cons hq .nil), he⟩⟩

end Expr

end Olap
