import Olap.Proofs.Revalidation

/-!
# Braces around an argument

A built-in call takes a member or a tuple where its overload has a set as parameter; the argument is
then converted. With braces around the argument the call is bound to the same overload and has the same
type, and the other arguments are what they were (`Expr.validate_braces`): every overload that fits the
set fits its element as well, at a cost that is higher by that of the conversion.
-/

set_option autoImplicit false

namespace Olap

/-! ## Elements of sets -/

/-- Members and tuples, which are the elements of sets. -/
def ExprType.IsElement (t : ExprType) : Prop := t.category = .member ∨ t.category = .tuple

namespace ExprType.IsElement

variable {t : ExprType}

theorem eq (ht : t.IsElement) : (∃ s, t = .member s) ∨ ∃ ss, t = .tuple ss := by
  cases t with
  | member s => exact .inl ⟨s, rfl⟩
  | tuple ss => exact .inr ⟨ss, rfl⟩
  | _ => rcases ht with h | h <;> cases h

theorem conversionCost (ht : t.IsElement) : t.category.conversionCost? .set = some 2 := by
  rcases ht with h | h <;> rw [h] <;> rfl

theorem convertedTo (ht : t.IsElement) : t.convertedTo .set = .set t := by
  obtain ⟨s, rfl⟩ | ⟨ss, rfl⟩ := ht.eq <;> rfl

end ExprType.IsElement

/-- What a conversion takes for a set is an element, and it becomes the set of this element. -/
theorem Expr.passedTo_toSet {e x : Expr} {target : ExprType} (hp : e.Passes .set)
    (hset : e.type.category ≠ .set) (h : e.passedTo .set = .convert x target .toSet) :
    x = e ∧ e.type.IsElement ∧ target = .set e.type := by
  rw [Expr.passedTo, if_neg hset] at h
  have hconverts := Category.converts hset hp.1
  obtain ⟨rfl, rfl, hkind⟩ := Expr.convert.inj h
  rw [hkind] at hconverts
  have helement : e.type.IsElement := by
    unfold ExprType.IsElement
    generalize e.type.category = c at hconverts
    cases hconverts with
    | toSet hc => exact hc
  exact ⟨rfl, helement, helement.convertedTo⟩

/-! ## Costs -/

/-- An overload takes a set in place of its element if it has a set as parameter there, and it takes it
for less. -/
theorem passingCost?_set {t : ExprType} (ht : t.IsElement) (ps : List Category)
    (before after : List ExprType) :
    (passingCost? ps (before ++ .set t :: after)).map (· + 2) =
      if ps[before.length]? = some .set then passingCost? ps (before ++ t :: after) else none := by
  induction before generalizing ps with
  | nil =>
    rcases ps with _ | ⟨p, ps⟩
    · rfl
    rw [List.nil_append, List.nil_append, passingCost?, passingCost?]
    by_cases hp : p = .set
    · have hfirst : (p :: ps)[([] : List ExprType).length]? = some .set := congrArg some hp
      rw [if_pos hfirst, hp, ht.conversionCost]
      cases passingCost? ps after with
      | none => rfl
      | some k => exact congrArg some (Nat.add_right_comm 0 k 2)
    · have hnone : Category.conversionCost? .set p = none := by
        cases p <;> first | rfl | exact absurd rfl hp
      rw [if_neg (by simpa using hp)]
      show Option.map _ ((Category.conversionCost? .set p).bind _) = none
      rw [hnone]
      rfl
  | cons u before ih =>
    rcases ps with _ | ⟨p, ps⟩
    · rfl
    have ih := ih ps
    rw [List.cons_append, List.cons_append, passingCost?, passingCost?, List.length_cons,
      List.getElem?_cons_succ]
    split at ih
    · rename_i hp
      rw [if_pos hp, ← ih]
      cases u.category.conversionCost? p with
      | none => rfl
      | some k =>
        cases passingCost? ps (before ++ .set t :: after) with
        | none => rfl
        | some l => exact congrArg some (Nat.add_assoc k l 2)
    · rename_i hp
      rw [if_neg hp]
      rw [Option.map_eq_none_iff] at ih
      rw [ih]
      cases u.category.conversionCost? p <;> rfl

/-- Costs that all grow alike leave the same overloads the cheapest. -/
theorem cheapest_map_add (fits : List (Definition × Nat)) (k : Nat) :
    cheapest (fits.map fun f => (f.1, f.2 + k)) = cheapest fits := by
  rw [cheapest, cheapest, List.filter_map, List.map_map]
  congr 1
  refine List.filter_congr fun f _ => ?_
  simp [Function.comp_def]

/-- The only cheapest overload stays so among fewer ones. -/
theorem cheapest_filter {fits : List (Definition × Nat)} {d : Definition} (keep : Definition → Bool)
    (hd : keep d = true) (h : cheapest fits = [d]) :
    cheapest (fits.filter fun f => keep f.1) = [d] := by
  rw [cheapest] at h
  obtain ⟨f, hf, rfl⟩ := List.map_eq_singleton_iff.1 h
  obtain ⟨hmem, hle⟩ := List.mem_filter.1 (hf ▸ List.mem_singleton_self f)
  rw [List.all_eq_true] at hle
  have hkept : f ∈ fits.filter fun f => keep f.1 := List.mem_filter.2 ⟨hmem, hd⟩
  have hsame : ∀ g ∈ fits.filter (fun f => keep f.1),
      (fits.filter fun f => keep f.1).all (fun g' => g.2 ≤ g'.2) = fits.all (fun g' => g.2 ≤ g'.2) := by
    intro g _
    rw [Bool.eq_iff_iff, List.all_eq_true, List.all_eq_true]
    constructor
    · intro hall g' hg'
      have h1 := of_decide_eq_true (hall f hkept)
      have h2 := of_decide_eq_true (hle g' hg')
      exact decide_eq_true (Nat.le_trans h1 h2)
    · exact fun hall g' hg' => hall g' (List.mem_filter.1 hg').1
  rw [cheapest, List.filter_congr hsame, List.filter_comm, hf]
  simp [hd]

/-! ## Overloads -/

/-- Whether the resolver takes any number of arguments. -/
def Resolver.isVariadic : Resolver → Bool
  | fixed _ => false
  | variadic _ => true

namespace FunctionTable

variable {t : FunctionTable} {name : String} {form : CallForm}

/-- The overloads that fit a set are those of its element that have a set as parameter. -/
theorem fits_set {e x : Expr} (he : e.type.IsElement) (hx : x.type = .set e.type)
    (hfixed : ∀ r ∈ t.lookup name form, r.isVariadic = false) (before after : List Expr) :
    (t.fits name form (before ++ x :: after)).map (fun f => (f.1, f.2 + 2)) =
      (t.fits name form (before ++ e :: after)).filter fun f =>
        f.1.signature.parameters[before.length]? == some .set := by
  have hoverloads : (t.lookup name form).flatMap (·.overloads (before ++ x :: after)) =
      (t.lookup name form).flatMap (·.overloads (before ++ e :: after)) := by
    rw [List.flatMap_def, List.flatMap_def]
    congr 1
    refine List.map_congr_left fun r hr => ?_
    cases r with
    | fixed o => rfl
    | variadic v => cases hfixed _ hr
  rw [fits, fits, hoverloads]
  generalize (t.lookup name form).flatMap (·.overloads (before ++ e :: after)) = ds
  induction ds with
  | nil => rfl
  | cons d ds ih =>
    have hcost := passingCost?_set he d.signature.parameters (before.map Expr.type)
      (after.map Expr.type)
    rw [← hx, ← List.map_cons, ← List.map_cons, ← List.map_append, ← List.map_append,
      List.length_map] at hcost
    rw [List.filterMap_cons, List.filterMap_cons]
    by_cases hset : d.signature.parameters[before.length]? = some .set
    · rw [if_pos hset] at hcost
      rw [← hcost]
      cases passingCost? d.signature.parameters ((before ++ x :: after).map Expr.type) with
      | none => exact ih
      | some k => simpa [hset] using ih
    · rw [if_neg hset, Option.map_eq_none_iff] at hcost
      rw [hcost]
      cases passingCost? d.signature.parameters ((before ++ e :: after).map Expr.type) with
      | none => exact ih
      | some k => simpa [hset] using ih

/-- The cheapest overload for an element is the cheapest for the set if that is what it takes. -/
theorem cheapest_fits_set {e x : Expr} (he : e.type.IsElement) (hx : x.type = .set e.type)
    (hfixed : ∀ r ∈ t.lookup name form, r.isVariadic = false) {before after : List Expr}
    {d : Definition} (hset : d.signature.parameters[before.length]? = some .set)
    (h : cheapest (t.fits name form (before ++ e :: after)) = [d]) :
    cheapest (t.fits name form (before ++ x :: after)) = [d] := by
  rw [← cheapest_map_add _ 2, fits_set he hx hfixed]
  refine cheapest_filter (fun d => d.signature.parameters[before.length]? == some .set) ?_ h
  rw [hset]
  rfl

end FunctionTable

/-! ## Arguments -/

/-- An overload accepts arguments that can be passed to its parameters. -/
theorem Definition.accept_of_passes {d : Definition} {args : List Expr}
    (h : List.Forall₂ Expr.Passes args d.signature.parameters) :
    d.accept args = .ok (d, List.zipWith Expr.passedTo args d.signature.parameters) := by
  rcases d.accept_cases args with haccept | ⟨a, ha, hrefuses, -⟩
  · exact haccept
  · exact absurd hrefuses (List.forall₂_zip h ha).2

/-- Arguments that can be passed, around one of them. -/
theorem Expr.exists_passes {before after : List Expr} {e : Expr} {ps : List Category} {p : Category}
    (hp : ps[before.length]? = some p) (h : List.Forall₂ Passes (before ++ e :: after) ps) :
    e.Passes p ∧ ∃ qs rs, qs.length = before.length ∧ ps = qs ++ p :: rs ∧
      List.Forall₂ Passes before qs ∧ List.Forall₂ Passes after rs := by
  induction before generalizing ps with
  | nil =>
    cases h with
    | cons he hafter =>
      cases hp
      exact ⟨he, [], _, rfl, rfl, .nil, hafter⟩
  | cons b before ih =>
    cases h with
    | cons hb hrest =>
      obtain ⟨he, qs, rs, hlength, rfl, hbefore, hafter⟩ := ih hp hrest
      exact ⟨he, _ :: qs, rs, congrArg (· + 1) hlength, rfl, .cons hb hbefore, hafter⟩

namespace FunctionTable

variable {t : FunctionTable} {name : String} {form : CallForm}

/-- A call that takes an element for a set is bound alike with a set of this type in its place. -/
theorem resolveCall_set (hfixed : ∀ r ∈ t.lookup name form, r.isVariadic = false)
    {before after args : List Expr} {e x : Expr} {d : Definition} (he : e.type.IsElement)
    (htype : x.type = .set e.type) (hset : d.signature.parameters[before.length]? = some .set)
    (h : t.resolveCall name form (before ++ e :: after) = .ok (d, args)) :
    ∃ bs as, bs.length = before.length ∧ args = bs ++ .convert e (.set e.type) .toSet :: as ∧
      t.resolveCall name form (before ++ x :: after) = .ok (d, bs ++ x :: as) := by
  obtain ⟨-, hargs, hpasses⟩ := resolveCall_passes h
  obtain ⟨hcheapest, -⟩ := bound_iff.1 h
  obtain ⟨-, qs, rs, hlength, hps, hbefore, hafter⟩ := Expr.exists_passes hset hpasses
  have hcategory : x.type.category = .set := by rw [htype]; rfl
  have hne : e.type.category ≠ .set := by
    rcases he with h | h <;> rw [h] <;> decide
  -- what becomes of the arguments, for either of the two
  have hzip (y : Expr) : List.zipWith Expr.passedTo (before ++ y :: after) d.signature.parameters =
      List.zipWith Expr.passedTo before qs ++
        y.passedTo .set :: List.zipWith Expr.passedTo after rs := by
    rw [hps, List.zipWith_append hlength.symm, List.zipWith_cons_cons]
  have hx : x.Passes .set := by
    refine ⟨by rw [hcategory]; rfl, ?_⟩
    rintro ⟨dimension, hdimension, -⟩
    rw [htype] at hdimension
    cases hdimension
  have hpasses' : List.Forall₂ Expr.Passes (before ++ x :: after) d.signature.parameters := by
    rw [hps]
    exact List.rel_append hbefore (.cons hx hafter)
  refine ⟨List.zipWith Expr.passedTo before qs, List.zipWith Expr.passedTo after rs, ?_, ?_, ?_⟩
  · rw [List.length_zipWith, hlength, Nat.min_self]
  · rw [hargs, hzip, Expr.passedTo, if_neg hne, he.convertedTo]
    rcases he with h | h <;> rw [h] <;> rfl
  · refine bound_iff.2 ⟨cheapest_fits_set he htype hfixed hset hcheapest, ?_⟩
    · rw [Definition.accept_of_passes hpasses', hzip, Expr.passedTo, if_pos hcategory]

end FunctionTable

/-! ## Built-in functions -/

/-- A function with any number of arguments takes no element for a set. -/
theorem VariadicRule.parameters?_ne_set {rule : VariadicRule} {cs ps : List Category}
    (h : rule.parameters? cs = some ps) {k : Nat} {c : Category} (hc : cs[k]? = some c)
    (helement : c = .member ∨ c = .tuple) : ps[k]? ≠ some .set := by
  cases rule with
  | elements =>
    intro hset
    have hcs := forall₂_of_mapM h
    obtain ⟨hk, rfl⟩ := List.getElem?_eq_some_iff.1 hc
    obtain ⟨hk', hp⟩ := List.getElem?_eq_some_iff.1 hset
    have hone := hcs.get hk hk'
    rw [List.get_eq_getElem, List.get_eq_getElem, hp] at hone
    rcases helement with h | h <;> rw [h] at hone <;> cases hone
  | columns =>
    intro hset
    rcases cs with _ | ⟨c₁, _ | ⟨c₂, cs⟩⟩
    · cases h
    · cases h
      rw [hc] at hset
      cases hset
      rcases helement with h | h <;> cases h
    · have hcs := forall₂_of_mapM h
      obtain ⟨hk, rfl⟩ := List.getElem?_eq_some_iff.1 hc
      obtain ⟨hk', hp⟩ := List.getElem?_eq_some_iff.1 hset
      have hone := hcs.get hk hk'
      rw [List.get_eq_getElem, List.get_eq_getElem, hp] at hone
      rcases helement with h | h <;> rw [h] at hone <;> cases hone

/-- The overload of the braces with the given parameters. -/
def Definition.ofBraces (ps : List Category) : Definition :=
  ⟨⟨"\x7b\x7d", .braces, .set, ps⟩, "Brace operator constructs a set.", [], .elements, .set⟩

namespace FunctionTable

theorem builtin_variadic {r : Resolver} (hr : r ∈ builtin.resolvers) :
    r.isVariadic = true ↔ r.form = .braces ∨ r.form = .parentheses := by
  have hall : builtin.resolvers.all (fun r =>
      r.isVariadic == (r.form == .braces || r.form == .parentheses)) = true := by decide
  have hone := eq_of_beq (List.all_eq_true.1 hall r hr)
  rw [hone, Bool.or_eq_true, beq_iff_eq, beq_iff_eq]

theorem builtin_parameters {v : Variadic} (hv : .variadic v ∈ builtin.resolvers) :
    ∃ rule : VariadicRule, v.parameters? = rule.matches? := by
  obtain ⟨w, u, hall, hw, hu⟩ : ∃ w u : Variadic,
      builtin.resolvers.filter Resolver.isVariadic = [.variadic w, .variadic u] ∧
        w.parameters? = VariadicRule.elements.matches? ∧
        u.parameters? = VariadicRule.columns.matches? :=
    ⟨_, _, rfl, rfl, rfl⟩
  have hmem : .variadic v ∈ builtin.resolvers.filter Resolver.isVariadic :=
    List.mem_filter.2 ⟨hv, rfl⟩
  rw [hall] at hmem
  rcases List.mem_cons.1 hmem with h | hmem
  · exact ⟨_, Resolver.variadic.inj h ▸ hw⟩
  · exact ⟨_, Resolver.variadic.inj (List.mem_singleton.1 hmem) ▸ hu⟩

variable {name : String} {form : CallForm}

/-- Where a call takes an element for a set, all overloads of its name are fixed. -/
theorem builtin_fixed {before after args : List Expr} {e : Expr} {d : Definition}
    (he : e.type.IsElement) (hset : d.signature.parameters[before.length]? = some .set)
    (h : builtin.resolveCall name form (before ++ e :: after) = .ok (d, args)) :
    ∀ r ∈ builtin.lookup name form, r.isVariadic = false := by
  obtain ⟨r, hr, hd, -⟩ := resolveCall_mem h
  have hform {r' : Resolver} (hr' : r' ∈ builtin.lookup name form) : r'.form = form := by
    have hkey : key r'.name r'.form = key name form := eq_of_beq (List.mem_filter.1 hr').2
    exact (Prod.mk.inj hkey).2
  have hone : r.isVariadic = false := by
    cases r with
    | fixed o => rfl
    | variadic v =>
      obtain ⟨rule, hrule⟩ := builtin_parameters (mem_resolvers_of_mem_lookup hr)
      obtain ⟨ps, hps, rfl⟩ := Option.map_eq_some_iff.1 (Option.mem_toList.1 hd)
      rw [hrule, VariadicRule.matches?] at hps
      refine absurd hset (VariadicRule.parameters?_ne_set hps ?_ he)
      simp
  intro r' hr'
  rw [Bool.eq_false_iff] at hone ⊢
  rw [ne_eq, builtin_variadic (mem_resolvers_of_mem_lookup hr'), hform hr', ← hform hr,
    ← builtin_variadic (mem_resolvers_of_mem_lookup hr)]
  exact hone

/-- What takes an element for a set makes no set or tuple of its arguments. -/
theorem builtin_standard {before after args : List Expr} {e : Expr} {d : Definition}
    (he : e.type.IsElement) (hset : d.signature.parameters[before.length]? = some .set)
    (h : builtin.resolveCall name form (before ++ e :: after) = .ok (d, args)) :
    d.Standard ∧ d.body ≠ .set ∧ d.body ≠ .tuple := by
  obtain ⟨r, hr, hd, -⟩ := resolveCall_mem h
  have hmem := mem_resolvers_of_mem_lookup hr
  refine ⟨allStandard_builtin r hmem _ d hd, ?_⟩
  have hall : builtin.resolvers.all (fun r => match r with
      | .fixed o => o.body != .set && o.body != .tuple
      | .variadic _ => true) = true := by decide
  have hone := List.all_eq_true.1 hall r hmem
  have hfixed := builtin_fixed he hset h r hr
  cases r with
  | fixed o =>
    obtain ⟨s, -, rfl⟩ := List.mem_map.1 hd
    rwa [Bool.and_eq_true, bne_iff_ne, bne_iff_ne] at hone
  | variadic v => cases hfixed

theorem lookup_braces : ∃ v : Variadic, builtin.lookup "\x7b\x7d" .braces = [.variadic v] ∧
    v.parameters? = VariadicRule.elements.matches? ∧ v.definition = Definition.ofBraces := by
  have hkeys : builtin.resolvers.all (fun r =>
      (key r.name r.form == key "\x7b\x7d" .braces) == (r.form == .braces)) = true := by
    decide +kernel
  have hforms : builtin.lookup "\x7b\x7d" .braces =
      builtin.resolvers.filter (·.form == .braces) :=
    List.filter_congr fun r hr => eq_of_beq (List.all_eq_true.1 hkeys r hr)
  rw [hforms]
  exact ⟨_, rfl, rfl, rfl⟩

/-- Braces around an element bind it as it is. -/
theorem resolveCall_braces {e : Expr} (he : e.type.IsElement) :
    builtin.resolveCall "\x7b\x7d" .braces [e] = .ok (.ofBraces [e.type.category], [e]) := by
  obtain ⟨v, hlookup, hparameters, hdefinition⟩ := lookup_braces
  have hmatches : v.parameters? [e] = some [e.type.category] := by
    rw [hparameters]
    rcases he with h | h <;> rw [VariadicRule.matches?, List.map_singleton, h] <;> rfl
  have hfits : builtin.fits "\x7b\x7d" .braces [e] = [(.ofBraces [e.type.category], 0)] := by
    rw [fits, hlookup, List.flatMap_singleton, Resolver.overloads, hmatches, hdefinition,
      List.map_singleton]
    have hcost : passingCost? [e.type.category] [e.type] = some 0 := by
      rw [passingCost?, conversionCost?_self]
      rfl
    have hdefinition : (Definition.ofBraces [e.type.category]).signature.parameters =
        [e.type.category] := rfl
    rw [Option.map_some, Option.toList_some, List.filterMap_cons, List.filterMap_nil, hdefinition,
      hcost]
    rfl
  have hpasses : e.Passes e.type.category := by
    refine ⟨by rw [conversionCost?_self]; rfl, ?_⟩
    rintro ⟨dimension, hdimension, -⟩
    rw [hdimension] at he
    rcases he with h | h <;> cases h
  refine bound_iff.2 ⟨?_, ?_⟩
  · rw [hfits]
    rfl
  · rw [Definition.accept_of_passes (.cons hpasses .nil)]
    show Except.ok (_, [e.passedTo e.type.category]) = _
    rw [Expr.passedTo, if_pos rfl]

end FunctionTable

/-! ## Validation -/

/-- The set of one element, as it is bound. -/
def Expr.braced (e : Expr) : Expr := .bound (.ofBraces [e.type.category]) (.set e.type) [e]

/-- Arguments that are no symbols can stand for each other. -/
theorem Definition.checkSymbols_replace (d : Definition) {x y : Expr} (hx : x.symbol? = none)
    (hy : y.symbol? = none) (before after : List Expr) :
    d.checkSymbols (before ++ x :: after) = d.checkSymbols (before ++ y :: after) := by
  induction before with
  | nil => rw [List.nil_append, List.nil_append, checkSymbols, checkSymbols, hx, hy]
  | cons b before ih =>
    rw [List.cons_append, List.cons_append, checkSymbols, checkSymbols]
    cases b.symbol? with
    | none => exact ih
    | some word =>
      dsimp only
      rw [ih]

namespace FunctionTable

variable {name : String} {form : CallForm}

theorem bind_braces {e : Expr} (he : e.type.IsElement) :
    builtin.bind "\x7b\x7d" .braces [e] = .ok e.braced := by
  have hsymbol : e.symbol? = none := by
    cases e with
    | literal l =>
      cases l with
      | symbol word => rcases he with h | h <;> cases h
      | _ => rfl
    | _ => rfl
  have hsymbols : (Definition.ofBraces [e.type.category]).checkSymbols [e] = .ok () := by
    rw [Definition.checkSymbols, hsymbol]
    rfl
  have htype : (Definition.ofBraces [e.type.category]).resultType ([e].map Expr.type) =
      .set e.type := by
    obtain ⟨s, h⟩ | ⟨ss, h⟩ := he.eq <;> rw [List.map_singleton, h] <;> rfl
  exact bind_eq_ok_iff.2 ⟨_, [e], resolveCall_braces he, hsymbols, by rw [htype]; rfl⟩

/-- A call that takes an element for a set is bound alike, and has the same type, with the set of this
element in its place. -/
theorem bind_replace {before after args : List Expr} {e x : Expr} {d : Definition}
    {type : ExprType} (he : e.type.IsElement) (htype : x.type = .set e.type)
    (hsymbol : x.symbol? = none) (hset : d.signature.parameters[before.length]? = some .set)
    (h : builtin.bind name form (before ++ e :: after) = .ok (.bound d type args)) :
    (d.Standard ∧ d.body ≠ .set ∧ d.body ≠ .tuple) ∧ ∃ bs as, bs.length = before.length ∧
      args = bs ++ .convert e (.set e.type) .toSet :: as ∧
      builtin.bind name form (before ++ x :: after) = .ok (.bound d type (bs ++ x :: as)) := by
  obtain ⟨d', args', hcall, hsymbols, hbound⟩ := bind_eq_ok_iff.1 h
  obtain ⟨rfl, rfl, rfl⟩ := Expr.bound.inj hbound
  obtain ⟨bs, as, hlength, rfl, hcall'⟩ :=
    resolveCall_set (builtin_fixed he hset hcall) he htype hset hcall
  have hconvert : (Expr.convert e (.set e.type) .toSet).symbol? = none := rfl
  refine ⟨builtin_standard he hset hcall, bs, as, hlength, rfl,
    bind_eq_ok_iff.2 ⟨d, _, hcall', ?_, ?_⟩⟩
  · rw [d.checkSymbols_replace hsymbol hconvert bs as]
    exact hsymbols
  · rw [List.map_append, List.map_append, List.map_cons, List.map_cons, htype]
    rfl

end FunctionTable

namespace Expr

open ValidateM

variable {t : FunctionTable} {registry registry' : ParameterRegistry}

/-- Validation keeps the target of a conversion. -/
theorem validate_convert_type {e x : Expr} {target : ExprType} {kind : ConversionKind}
    (h : (e.validate t).run registry = (.ok (.convert x target kind), registry')) :
    e.type = target := by
  cases e with
  | convert e target' kind' =>
    obtain ⟨e', between, -, h⟩ := run_bind_ok.1 h
    cases (run_pure_ok.1 h).1
    rfl
  | call name form args =>
    obtain ⟨args', between, -, h⟩ := run_bind_ok.1 h
    obtain ⟨d, args'', -, -, hbound⟩ := FunctionTable.bind_eq_ok_iff.1 (run_lift_ok.1 h).1
    cases hbound
  | bound d type args =>
    obtain ⟨args', between, -, h⟩ := run_bind_ok.1 h
    cases (run_pure_ok.1 h).1
  | parameter p =>
    obtain ⟨⟨⟩, between, -, h⟩ := run_bind_ok.1 h
    cases (run_pure_ok.1 h).1
  | _ => cases (run_pure_ok.1 h).1

theorem validateAll_append {es fs rs : List Expr} :
    (validateAll t (es ++ fs)).run registry = (.ok rs, registry') ↔ ∃ as bs between,
      (validateAll t es).run registry = (.ok as, between) ∧
        (validateAll t fs).run between = (.ok bs, registry') ∧ rs = as ++ bs := by
  induction es generalizing registry rs with
  | nil =>
    constructor
    · exact fun h => ⟨[], rs, registry, rfl, h, rfl⟩
    · rintro ⟨as, bs, between, h, h', rfl⟩
      obtain ⟨rfl, rfl⟩ := run_pure_ok.1 h
      exact h'
  | cons e es ih =>
    constructor
    · intro h
      obtain ⟨e', between, he, h⟩ := run_bind_ok.1 h
      obtain ⟨rs', between', hrest, h⟩ := run_bind_ok.1 h
      obtain ⟨rfl, rfl⟩ := run_pure_ok.1 h
      obtain ⟨as, bs, between'', has, hbs, rfl⟩ := ih.1 hrest
      refine ⟨e' :: as, bs, between'', ?_, hbs, rfl⟩
      exact run_bind_ok.2 ⟨e', between, he, run_bind_ok.2 ⟨as, between'', has, rfl⟩⟩
    · rintro ⟨as, bs, between', h, h', rfl⟩
      obtain ⟨e', between, he, h⟩ := run_bind_ok.1 h
      obtain ⟨as', between', hrest, h⟩ := run_bind_ok.1 h
      obtain ⟨rfl, rfl⟩ := run_pure_ok.1 h
      refine run_bind_ok.2 ⟨e', between, he, run_bind_ok.2 ⟨as' ++ bs, registry', ?_, rfl⟩⟩
      exact ih.2 ⟨as', bs, _, hrest, h', rfl⟩

theorem length_validateAll {es rs : List Expr}
    (h : (validateAll t es).run registry = (.ok rs, registry')) : rs.length = es.length := by
  induction es generalizing registry rs with
  | nil =>
    cases (run_pure_ok.1 h).1
    rfl
  | cons e es ih =>
    obtain ⟨e', between, -, h⟩ := run_bind_ok.1 h
    obtain ⟨rs', between', hrest, h⟩ := run_bind_ok.1 h
    obtain ⟨rfl, rfl⟩ := run_pure_ok.1 h
    exact congrArg (· + 1) (ih hrest)

variable {name : String} {form : CallForm}

/-- A built-in call that takes an argument for a set by a conversion is bound alike, and has the same
type, with braces around the argument, which is a member or a tuple. -/
theorem validate_braces {before after args : List Expr} {a e : Expr} {d : Definition}
    {type target : ExprType} (ha : a.type.category ≠ .set)
    (hset : d.signature.parameters[before.length]? = some .set)
    (hconvert : args[before.length]? = some (.convert e target .toSet))
    (h : ((call name form (before ++ a :: after)).validate .builtin).run registry =
      (.ok (.bound d type args), registry')) :
    e.type.IsElement ∧ (∃ between, ((a.validate .builtin).run between).1 = .ok e) ∧
      (d.Standard ∧ d.body ≠ .set ∧ d.body ≠ .tuple) ∧
      ∃ bs as, bs.length = before.length ∧ args = bs ++ .convert e (.set e.type) .toSet :: as ∧
        ((call name form (before ++ .call "\x7b\x7d" .braces [a] :: after)).validate .builtin).run
          registry = (.ok (.bound d type (bs ++ e.braced :: as)), registry') := by
  obtain ⟨args₁, between, hargs, h⟩ := run_bind_ok.1 h
  obtain ⟨hbind, rfl⟩ := run_lift_ok.1 h
  obtain ⟨bs₁, rest, between₁, hbefore, hrest, rfl⟩ := validateAll_append.1 hargs
  obtain ⟨e₁, between₂, he₁, hrest⟩ := run_bind_ok.1 hrest
  obtain ⟨as₁, between₃, hafter, hrest⟩ := run_bind_ok.1 hrest
  obtain ⟨rfl, rfl⟩ := run_pure_ok.1 hrest
  have hlength := length_validateAll hbefore
  rw [← hlength] at hset hconvert ⊢
  -- the argument that is converted is the validated one
  obtain ⟨d', args', hcall, -, hbound⟩ := FunctionTable.bind_eq_ok_iff.1 hbind
  obtain ⟨rfl, rfl, rfl⟩ := Expr.bound.inj hbound
  obtain ⟨-, hzip, hpasses⟩ := FunctionTable.resolveCall_passes hcall
  have hpassed : e₁.passedTo .set = .convert e target .toSet := by
    rw [hzip, List.getElem?_zipWith, hset] at hconvert
    simpa using hconvert
  have hne : e₁.type.category ≠ .set := by
    intro heq
    rw [passedTo, if_pos heq] at hpassed
    subst hpassed
    rw [validate_convert_type he₁] at ha
    exact ha heq
  obtain ⟨hone, -⟩ := exists_passes hset hpasses
  obtain ⟨rfl, helement, -⟩ := passedTo_toSet hone hne hpassed
  obtain ⟨hd, bs, as, hbs, hargs, hbind'⟩ :=
    FunctionTable.bind_replace helement (x := e.braced) rfl rfl hset hbind
  refine ⟨helement, ⟨between₁, by rw [he₁]⟩, hd, bs, as, hbs, hargs, ?_⟩
  have hbraces : ((call "\x7b\x7d" .braces [a]).validate .builtin).run between₁ =
      (.ok e.braced, between₂) := by
    refine run_bind_ok.2 ⟨[e], between₂, ?_, run_lift_ok.2 ⟨FunctionTable.bind_braces helement, rfl⟩⟩
    exact run_bind_ok.2 ⟨e, between₂, he₁, rfl⟩
  refine run_bind_ok.2 ⟨bs₁ ++ e.braced :: as₁, _, ?_, run_lift_ok.2 ⟨hbind', rfl⟩⟩
  refine validateAll_append.2 ⟨bs₁, _, between₁, hbefore, ?_, rfl⟩
  exact run_bind_ok.2 ⟨_, between₂, hbraces, run_bind_ok.2 ⟨as₁, _, hafter, rfl⟩⟩

end Expr

end Olap
