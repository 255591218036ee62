import Olap.Proofs.Function.Braces

/-!
# Places that want scalars

A table tells of every place among the arguments of a function whether a scalar is wanted there
(`FunctionTable.requiresScalarAt`). Nothing is converted from a set, so an overload takes a set only
where it has one as parameter, and the overloads of a function that wants a scalar have none. Parentheses
are the exception: they are said to want scalars, but group a single argument whatever it is. In a table
with the built-in functions, and others with fixed overloads, no other call takes a set where a scalar is
wanted (`FunctionTable.resolveCall_set_iff_grouped`).
-/

set_option autoImplicit false

namespace Olap

/-! ## Parameters that sets are passed to -/

theorem Category.conversionCost?_set {p : Category}
    (h : (conversionCost? .set p).isSome = true) : p = .set := by
  cases p <;> first | rfl | cases h

/-- A set is passed to no other parameter than a set. -/
theorem passingCost?_set_at {ps : List Category} {ts : List ExprType}
    (h : (passingCost? ps ts).isSome = true) {k : Nat} {u : ExprType} (hk : ts[k]? = some u)
    (hu : u.category = .set) : ps[k]? = some .set := by
  induction ps generalizing ts k with
  | nil =>
    cases ts with
    | nil => cases hk
    | cons t ts => cases h
  | cons p ps ih =>
    cases ts with
    | nil => cases hk
    | cons t ts =>
      obtain ⟨total, htotal⟩ := Option.isSome_iff_exists.1 h
      rw [passingCost?] at htotal
      obtain ⟨cost, hcost, htotal⟩ := Option.bind_eq_some_iff.1 htotal
      obtain ⟨rest, hrest, -⟩ := Option.bind_eq_some_iff.1 htotal
      cases k with
      | zero =>
        cases hk
        rw [hu] at hcost
        exact congrArg some (Category.conversionCost?_set (by rw [hcost]; rfl))
      | succ k => exact ih (by rw [hrest]; rfl) hk

/-- Two and more arguments in parentheses are taken for members. -/
theorem VariadicRule.columns_ne_set {cs ps : List Category}
    (h : VariadicRule.columns.parameters? cs = some ps) (hlength : cs.length ≠ 1) (k : Nat) :
    ps[k]? ≠ some .set := by
  intro hset
  rcases cs with _ | ⟨c, _ | ⟨c', cs⟩⟩
  · cases h
  · exact hlength rfl
  · obtain ⟨a, -, ha⟩ := exists_mem_of_forall₂ (forall₂_of_mapM h) .set (List.mem_of_getElem? hset)
    cases a <;> cases ha

namespace Resolver

variable {r : Resolver} {k : Nat} {args : List Expr} {d : Definition} {u : ExprType}

/-- A function with fixed overloads that wants a scalar takes no set there. -/
theorem not_fits_of_fixed (hfixed : r.isVariadic = false) (hscalar : r.requiresScalarAt k = true)
    (hd : d ∈ r.overloads args) (hk : (args.map Expr.type)[k]? = some u) (hu : u.category = .set) :
    passingCost? d.signature.parameters (args.map Expr.type) = none := by
  cases r with
  | variadic v => cases hfixed
  | fixed o =>
    rw [← Option.not_isSome_iff_eq_none]
    intro hfits
    have hset := passingCost?_set_at hfits hk hu
    obtain ⟨s, hs, rfl⟩ := List.mem_map.1 hd
    rw [requiresScalarAt, Bool.not_eq_true', List.any_eq_false] at hscalar
    exact hscalar s hs (beq_iff_eq.2 hset)

end Resolver

/-! ## Tables with the built-in functions -/

namespace FunctionTable

/-- The table has the built-in functions, and beside them only functions with fixed overloads. -/
def ExtendsBuiltin (t : FunctionTable) : Prop :=
  ∃ more : List Overloads, t.resolvers.Perm (builtin.resolvers ++ more.map .fixed)

/-- The overload of the parentheses with the given parameters. -/
def ofParentheses (ps : List Category) : Definition :=
  ⟨⟨"()", .parentheses, .tuple, ps⟩,
    "Parenthesis operator constructs a tuple, or groups an expression.", [], .columns, .tuple⟩

variable {t : FunctionTable} {name : String} {form : CallForm}

theorem extendsBuiltin_builtin : builtin.ExtendsBuiltin :=
  ⟨[], by rw [List.map_nil, List.append_nil]⟩

/-- Functions with any number of arguments are braces or have the key of the parentheses, and the
functions that have this key are those in the form of parentheses. -/
theorem builtin_keys : builtin.resolvers.all (fun r => !r.isVariadic || r.form == .braces ||
      key r.name r.form == key "()" .parentheses) = true ∧
    builtin.resolvers.all (fun r =>
      (key r.name r.form == key "()" .parentheses) == (r.form == .parentheses)) = true := by
  decide +kernel

/-- The functions with any number of arguments are the braces and the parentheses. -/
theorem builtin_variadic_cases {r : Resolver} (hr : r ∈ builtin.resolvers)
    (hvariadic : r.isVariadic = true) : r.form = .braces ∨ r ∈ builtin.lookup "()" .parentheses := by
  obtain ⟨hkeys, -⟩ := builtin_keys
  have hone := List.all_eq_true.1 hkeys r hr
  rw [hvariadic, Bool.not_true, Bool.false_or, Bool.or_eq_true, beq_iff_eq] at hone
  exact hone.imp_right fun hkey => List.mem_filter.2 ⟨hr, hkey⟩

theorem lookup_parentheses : ∃ v : Variadic, builtin.lookup "()" .parentheses = [.variadic v] ∧
    v.parameters? = VariadicRule.columns.matches? ∧ v.definition = ofParentheses := by
  obtain ⟨-, hkeys⟩ := builtin_keys
  have hforms : builtin.lookup "()" .parentheses =
      builtin.resolvers.filter (·.form == .parentheses) :=
    List.filter_congr fun r hr => eq_of_beq (List.all_eq_true.1 hkeys r hr)
  rw [hforms]
  exact ⟨_, rfl, rfl, rfl⟩

/-- Parentheses take a single argument as it is. -/
theorem fits_parentheses (e : Expr) :
    builtin.fits "()" .parentheses [e] = [(ofParentheses [e.type.category], 0)] := by
  obtain ⟨v, hlookup, hparameters, hdefinition⟩ := lookup_parentheses
  have hmatches : v.parameters? [e] = some [e.type.category] := by
    rw [hparameters]
    rfl
  have hcost : passingCost? (ofParentheses [e.type.category]).signature.parameters
      ([e].map Expr.type) = some 0 := by
    show passingCost? [e.type.category] [e.type] = some 0
    rw [passingCost?, conversionCost?_self]
    rfl
  rw [fits, hlookup, List.flatMap_singleton, Resolver.overloads, hmatches, hdefinition,
    Option.map_some, Option.toList_some, List.filterMap_cons, List.filterMap_nil, hcost]
  rfl

theorem lookup_congr {name' : String} {form' : CallForm} (h : key name form = key name' form') :
    t.lookup name form = t.lookup name' form' := by
  rw [lookup, lookup, h]

theorem requiresScalarAt_of_mem {k : Nat} (h : t.requiresScalarAt name form k = true)
    {r : Resolver} (hr : r ∈ t.lookup name form) : r.requiresScalarAt k = true := by
  rw [requiresScalarAt, Bool.and_eq_true] at h
  exact List.all_eq_true.1 h.2 r hr

/-- What fits a set where a scalar is wanted is what fits it among the built-in functions. -/
theorem fits_builtin {more : List Overloads}
    (hperm : t.resolvers.Perm (builtin.resolvers ++ more.map .fixed)) {k : Nat}
    (hscalar : t.requiresScalarAt name form k = true) {args : List Expr} {u : ExprType}
    (hk : (args.map Expr.type)[k]? = some u) (hu : u.category = .set) :
    (t.fits name form args).Perm (builtin.fits name form args) := by
  let added : FunctionTable := ⟨more.map .fixed⟩
  have hnone : added.fits name form args = [] := by
    refine List.filterMap_eq_nil_iff.2 fun d hd => ?_
    obtain ⟨r, hr, hd⟩ := List.mem_flatMap.1 hd
    obtain ⟨hmem, hkey⟩ := List.mem_filter.1 hr
    have hfixed : r.isVariadic = false := by
      obtain ⟨o, -, rfl⟩ := List.mem_map.1 hmem
      rfl
    have hlookup : r ∈ t.lookup name form :=
      List.mem_filter.2 ⟨hperm.mem_iff.2 (List.mem_append_right _ hmem), hkey⟩
    rw [Resolver.not_fits_of_fixed hfixed (requiresScalarAt_of_mem hscalar hlookup) hd hk hu]
    rfl
  have hsplit : fits ⟨builtin.resolvers ++ more.map .fixed⟩ name form args =
      builtin.fits name form args ++ added.fits name form args := by
    rw [fits, fits, fits, lookup, List.filter_append, List.flatMap_append, List.filterMap_append]
    rfl
  have hfits := fits_perm (t := ⟨builtin.resolvers ++ more.map .fixed⟩) hperm name form args
  rwa [hsplit, hnone, List.append_nil] at hfits

/-- Where a scalar is wanted, a call takes a set just if it is parentheses around this one argument. -/
theorem resolveCall_set_iff_grouped (ht : t.ExtendsBuiltin) {k : Nat}
    (hscalar : t.requiresScalarAt name form k = true) {args : List Expr} {e : Expr}
    (hk : args[k]? = some e) (hset : e.type.category = .set) :
    (∃ d args', t.resolveCall name form args = .ok (d, args')) ↔
      key name form = key "()" .parentheses ∧ args = [e] := by
  obtain ⟨more, hperm⟩ := ht
  have htype : (args.map Expr.type)[k]? = some e.type := by rw [List.getElem?_map, hk]; rfl
  constructor
  · rintro ⟨d, args', hcall⟩
    obtain ⟨r, hr, hd, hfits⟩ := resolveCall_mem hcall
    have hwants := requiresScalarAt_of_mem hscalar hr
    have hparameter := passingCost?_set_at hfits htype hset
    -- an overload that fits belongs to a function with any number of arguments
    have hvariadic : r.isVariadic = true := by
      rw [← Bool.not_eq_false]
      intro hfixed
      rw [Resolver.not_fits_of_fixed hfixed hwants hd htype hset] at hfits
      cases hfits
    have hbuiltin : r ∈ builtin.resolvers := by
      refine (List.mem_append.1 (hperm.mem_iff.1 (mem_resolvers_of_mem_lookup hr))).resolve_right ?_
      intro hmem
      obtain ⟨o, -, rfl⟩ := List.mem_map.1 hmem
      cases hvariadic
    cases r with
    | fixed o => cases hvariadic
    | variadic v =>
      rcases builtin_variadic_cases hbuiltin hvariadic with hbraces | hparentheses
      · -- braces do not want scalars
        rw [Resolver.requiresScalarAt, bne_iff_ne] at hwants
        exact absurd hbraces hwants
      · have hkey : key v.name v.form = key name form := eq_of_beq (List.mem_filter.1 hr).2
        have hkey' : key v.name v.form = key "()" .parentheses :=
          eq_of_beq (List.mem_filter.1 hparentheses).2
        refine ⟨hkey.symm.trans hkey', ?_⟩
        obtain ⟨w, hlookup, hparameters, -⟩ := lookup_parentheses
        rw [hlookup, List.mem_singleton, Resolver.variadic.injEq] at hparentheses
        obtain ⟨ps, hps, rfl⟩ := Option.map_eq_some_iff.1 (Option.mem_toList.1 hd)
        rw [hparentheses, hparameters, VariadicRule.matches?] at hps
        have hlength : args.length = 1 := by
          by_contra hne
          exact VariadicRule.columns_ne_set hps (by simpa using hne) k hparameter
        obtain ⟨a, rfl⟩ := List.length_eq_one_iff.1 hlength
        obtain rfl : a = e := List.mem_singleton.1 (List.mem_of_getElem? hk) |>.symm
        rfl
  · rintro ⟨hkey, rfl⟩
    have hfits := fits_builtin hperm hscalar htype hset
    have hlookup : builtin.fits name form [e] = builtin.fits "()" .parentheses [e] := by
      rw [fits, fits, lookup_congr hkey]
    rw [hlookup, fits_parentheses, List.perm_singleton] at hfits
    have hcheapest : cheapest (t.fits name form [e]) = [ofParentheses [e.type.category]] := by
      rw [hfits]
      rfl
    refine ⟨_, _, (resolveCall_of_cheapest hcheapest).trans (Definition.accept_of_passes ?_)⟩
    refine .cons ⟨?_, ?_⟩ .nil
    · rw [conversionCost?_self]
      rfl
    · rintro ⟨dimension, hdimension, -⟩
      rw [hdimension] at hset
      cases hset

end FunctionTable

namespace Sample

/-- A set in parentheses is accepted, though a scalar is said to be wanted. -/
theorem resolveCall_set_grouped : FunctionTable.builtin.requiresScalarAt "()" .parentheses 0 = true ∧
    (Expr.member amount).braced.type.category = .set ∧
    ∃ d args, FunctionTable.builtin.resolveCall "()" .parentheses [(Expr.member amount).braced] =
      .ok (d, args) := by
  have hscalar : FunctionTable.builtin.requiresScalarAt "()" .parentheses 0 = true := by
    decide +kernel
  exact ⟨hscalar, rfl, (FunctionTable.resolveCall_set_iff_grouped
    FunctionTable.extendsBuiltin_builtin hscalar (k := 0) rfl rfl).2 ⟨rfl, rfl⟩⟩

end Sample

end Olap
