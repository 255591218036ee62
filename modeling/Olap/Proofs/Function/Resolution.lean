import Olap.Function.Table
import Mathlib.Data.List.Forall2

/-!
# Overloads and the conversions that they need

A conversion wraps the argument at its place (`Converted`), and changes its category. The overloads that
a resolver offers for a call are among those that it declares, and take the arguments after the
conversions that come with them (`Resolver.candidates_sound`).
-/

set_option autoImplicit false

namespace Olap

/-! ## Conversions -/

/-- The conversion changes the category of its argument, and there is such a conversion. -/
structure Conversion.Proper (c : Conversion) : Prop where
  kind : c.kind = c.source.category.conversionTo c.target
  changes : c.source.category ≠ c.target
  exists_cost : (c.source.category.conversionCost? c.target).isSome

theorem Conversion.category_targetType (c : Conversion) : c.targetType.category = c.target := by
  obtain ⟨ordinal, source, target, cost, kind⟩ := c
  cases target with
  | set => cases source <;> rfl
  | _ => rfl

/-- An argument after the conversion that it may need. -/
inductive Converted (arg : Expr) : Expr → Prop
  | same : Converted arg arg
  | convert (c : Conversion) (hc : c.Proper) (hs : c.source = arg.type) :
      Converted arg (.convert arg c.targetType c.kind)

theorem Conversion.applyTo_append (c : Conversion) {before : List Expr} (hn : before.length = c.ordinal)
    (e : Expr) (es : List Expr) :
    c.applyTo (before ++ e :: es) = .ok (before ++ .convert e c.targetType c.kind :: es) := by
  have hat : (before ++ e :: es)[c.ordinal]? = some e := by
    rw [← hn, List.getElem?_append_right (Nat.le_refl _), Nat.sub_self]
    rfl
  rw [applyTo, hat, ← hn]
  simp

section
variable {n : Nat} {p : Category} {ps : List Category} {ts : List ExprType} {cost : Nat}
  {convs : List Conversion}

/-- The first argument has the category of its parameter, or there is a conversion for its place. -/
theorem matchFrom_cons (h : matchFrom n (p :: ps) ts = some (cost, convs)) :
    ∃ t ts', ts = t :: ts' ∧
      ((t.category = p ∧ matchFrom (n + 1) ps ts' = some (cost, convs)) ∨
        (t.category ≠ p ∧ ∃ k total convs', t.category.conversionCost? p = some k ∧
          matchFrom (n + 1) ps ts' = some (total, convs') ∧ cost = k + total ∧
          convs = ⟨n, t, p, k, t.category.conversionTo p⟩ :: convs')) := by
  rcases ts with _ | ⟨t, ts⟩
  · cases h
  refine ⟨t, ts, rfl, ?_⟩
  rw [matchFrom] at h
  split at h
  · exact .inl ⟨by assumption, h⟩
  · rename_i hp
    obtain ⟨k, hk, h⟩ := Option.bind_eq_some_iff.1 h
    obtain ⟨⟨total, convs'⟩, hrest, h⟩ := Option.bind_eq_some_iff.1 h
    cases h
    exact .inr ⟨hp, k, total, convs', hk, hrest, rfl, rfl⟩

theorem matchFrom_nil (h : matchFrom n [] ts = some (cost, convs)) :
    ts = [] ∧ cost = 0 ∧ convs = [] := by
  rcases ts with _ | ⟨t, ts⟩
  · cases h
    exact ⟨rfl, rfl, rfl⟩
  · cases h

end

/-! ## Overloads -/

/-- The overload is one of those that a resolver declares. -/
def Resolver.Declares (d : Definition) : Resolver → Prop
  | fixed o => d ∈ o.definitions
  | variadic v =>
    d.body = v.body ∧ d.resultRule = v.resultRule ∧ d.signature.result = v.result ∧
      d.signature.form = v.form

theorem Resolver.candidates_sound {r : Resolver} {args : List Expr} {w : Candidate}
    (hw : w ∈ r.candidates args) : r.Declares w.definition ∧
      matchParameters w.definition.signature.parameters (args.map Expr.type) =
        some (w.cost, w.conversions) := by
  cases r with
  | fixed o =>
    obtain ⟨d, hd, hmap⟩ := List.mem_filterMap.1 hw
    obtain ⟨⟨cost, conversions⟩, hmatch, rfl⟩ := Option.map_eq_some_iff.1 hmap
    exact ⟨hd, hmatch⟩
  | variadic v =>
    have hw : v.candidate? args = some w := Option.mem_toList.1 hw
    unfold Variadic.candidate? at hw
    obtain ⟨parameters, -, hw⟩ := Option.bind_eq_some_iff.1 hw
    obtain ⟨⟨cost, conversions⟩, hmatch, hw⟩ := Option.bind_eq_some_iff.1 hw
    cases hw
    exact ⟨⟨rfl, rfl, rfl, rfl⟩, hmatch⟩

theorem FunctionTable.mem_resolvers_of_mem_lookup {t : FunctionTable} {name : String} {form : CallForm}
    {r : Resolver} (h : r ∈ t.lookup name form) : r ∈ t.resolvers := (List.mem_filter.1 h).1

end Olap
