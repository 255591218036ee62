import Olap.Proofs.Revalidation

/-!
# Binding by categories

What a call is bound to depends on the categories of its arguments alone, where the resolvers for its
name have fixed overloads (`FunctionTable.fits_congr`). So the cheapest overload can be found once for
expressions that stand for their categories, and a call with arguments of these categories is bound to it
(`Expr.validate_call_passed`), as it stands if the parameters have these categories themselves
(`Expr.validate_call_exact`).
-/

set_option autoImplicit false

namespace Olap

def Resolver.isFixed : Resolver → Bool
  | fixed _ => true
  | variadic _ => false

/-- An overload apart from the text that describes it. -/
def Definition.undescribed (d : Definition) : Definition := { d with description := "" }

/-- An expression of a type. -/
def Expr.ofType (type : ExprType) : Expr := .parameter ⟨"", type, .null⟩

/-! ## Costs -/

theorem passingCost?_congr {ps : List Category} {ts us : List ExprType}
    (h : ts.map ExprType.category = us.map ExprType.category) :
    passingCost? ps ts = passingCost? ps us := by
  induction ps generalizing ts us with
  | nil =>
    rcases ts with _ | ⟨t, ts⟩ <;> rcases us with _ | ⟨u, us⟩ <;> first | rfl | cases h
  | cons p ps ih =>
    rcases ts with _ | ⟨t, ts⟩ <;> rcases us with _ | ⟨u, us⟩
    · rfl
    · cases h
    · cases h
    · obtain ⟨hcategory, hrest⟩ := List.cons.inj h
      rw [passingCost?, passingCost?, hcategory, ih hrest]

namespace FunctionTable

variable {t : FunctionTable} {name : String} {form : CallForm}

theorem fits_congr (hfixed : (t.lookup name form).all Resolver.isFixed = true)
    {args like : List Expr} (h : args.map (·.type.category) = like.map (·.type.category)) :
    t.fits name form args = t.fits name form like := by
  have hoverloads : (t.lookup name form).flatMap (·.overloads args) =
      (t.lookup name form).flatMap (·.overloads like) := by
    refine List.flatMap_congr fun r hr => ?_
    cases r with
    | fixed o => rfl
    | variadic v => cases List.all_eq_true.1 hfixed _ hr
  have hcategories : (args.map Expr.type).map ExprType.category =
      (like.map Expr.type).map ExprType.category := by
    rw [List.map_map, List.map_map]
    exact h
  simp only [fits, hoverloads, passingCost?_congr hcategories]

end FunctionTable

/-! ## Calls -/

/-- Arguments pass if every word among them is known. -/
theorem Definition.checkSymbols_of_known {d : Definition} {args : List Expr}
    (h : ∀ e ∈ args, ∀ word, e.symbol? = some word → ∃ r ∈ d.reserved, r.toUpper = word.toUpper) :
    d.checkSymbols args = .ok () := by
  induction args with
  | nil => rfl
  | cons e es ih =>
    obtain ⟨he, hes⟩ := List.forall_mem_cons.1 h
    rw [checkSymbols]
    rcases hsymbol : e.symbol? with _ | word
    · exact ih hes
    · obtain ⟨r, hr, heq⟩ := he word hsymbol
      have hany : d.reserved.any (·.toUpper == word.toUpper) = true :=
        List.any_eq_true.2 ⟨r, hr, beq_iff_eq.2 heq⟩
      simp only [hany, if_true]
      exact ih hes

/-- Only a symbol is a word. -/
theorem Expr.symbol?_eq_none {e : Expr} (h : e.type.category ≠ .symbol) : e.symbol? = none := by
  unfold symbol?
  split
  · exact absurd rfl h
  · rfl

theorem Definition.accept_of_not_refuses (d : Definition) {args : List Expr}
    (h : ∀ a ∈ args.zip d.signature.parameters, ¬ a.1.Refuses a.2) :
    d.accept args = .ok (d, List.zipWith Expr.passedTo args d.signature.parameters) := by
  rcases d.accept_cases args with ha | ⟨a, ha, hrefuses, -⟩
  · exact ha
  · exact absurd hrefuses (h a ha)

namespace Expr

open ValidateM

variable {t : FunctionTable} {registry registry' : ParameterRegistry} {args args' : List Expr}

theorem zipWith_passedTo_self (args : List Expr) :
    List.zipWith passedTo args (args.map (·.type.category)) = args := by
  induction args with
  | nil => rfl
  | cons e args ih => rw [List.map_cons, List.zipWith_cons_cons, ih, passedTo, if_pos rfl]

variable (name : String) (form : CallForm) (types : List ExprType) (d : Definition)

/-- A call is bound to the only overload at the lowest cost, with its arguments as they are passed to
the parameters. -/
theorem validate_call_passed (hargs : (validateAll t args).run registry = (.ok args', registry'))
    (hfixed : (t.lookup name form).all Resolver.isFixed = true)
    (htypes : args'.map (·.type.category) = types.map ExprType.category)
    (hcheapest : (cheapest (t.fits name form (types.map ofType))).map Definition.undescribed = [d])
    (hrefuses : ∀ a ∈ args'.zip d.signature.parameters, ¬ a.1.Refuses a.2)
    (hwords : ∀ e ∈ List.zipWith passedTo args' d.signature.parameters, ∀ word,
      e.symbol? = some word → ∃ r ∈ d.reserved, r.toUpper = word.toUpper) :
    ∃ description, ((call name form args).validate t).run registry =
      (.ok (.bound { d with description }
          (d.resultType ((List.zipWith passedTo args' d.signature.parameters).map type))
          (List.zipWith passedTo args' d.signature.parameters)), registry') := by
  obtain ⟨d', hd, rfl⟩ := List.map_eq_singleton_iff.1 hcheapest
  have hfits : t.fits name form args' = t.fits name form (types.map ofType) := by
    refine FunctionTable.fits_congr hfixed (htypes.trans ?_)
    rw [List.map_map]
    rfl
  have hresolve := (FunctionTable.resolveCall_of_cheapest (hfits ▸ hd)).trans
    (Definition.accept_of_not_refuses d' hrefuses)
  have hsymbols : d'.checkSymbols (List.zipWith passedTo args' d'.signature.parameters) = .ok () :=
    Definition.checkSymbols_of_known hwords
  refine ⟨d'.description, run_bind_ok.2 ⟨args', registry', hargs, run_lift_ok.2 ⟨?_, rfl⟩⟩⟩
  exact FunctionTable.bind_eq_ok_iff.2 ⟨d', _, hresolve, hsymbols, rfl⟩

/-- An overload whose parameters have the categories of the arguments takes them as they are. -/
theorem validate_call_exact (hargs : (validateAll t args).run registry = (.ok args', registry'))
    (hfixed : (t.lookup name form).all Resolver.isFixed = true)
    (htypes : args'.map (·.type.category) = types.map ExprType.category)
    (hcheapest : (cheapest (t.fits name form (types.map ofType))).map Definition.undescribed = [d])
    (hparameters : d.signature.parameters = types.map ExprType.category)
    (hwords : ∀ e ∈ args', ∀ word, e.symbol? = some word →
      ∃ r ∈ d.reserved, r.toUpper = word.toUpper) :
    ∃ description, ((call name form args).validate t).run registry =
      (.ok (.bound { d with description } (d.resultType (args'.map type)) args'), registry') := by
  have hself : List.zipWith passedTo args' d.signature.parameters = args' := by
    rw [hparameters, ← htypes, zipWith_passedTo_self]
  have hrefuses : ∀ a ∈ args'.zip d.signature.parameters, ¬ a.1.Refuses a.2 := by
    rw [hparameters, ← htypes]
    rintro ⟨e, p⟩ ha
    rw [List.zip_map_right, List.zip_eq_zipWith, List.map_zipWith] at ha
    obtain ⟨_, _, heq⟩ := List.getElem_of_mem ha
    simp only [List.getElem_zipWith, Prod.map_apply, id_eq] at heq
    cases heq
    exact not_refuses_of_checkPassing (checkPassing_of_category rfl)
  obtain ⟨description, h⟩ := validate_call_passed name form types d hargs hfixed htypes hcheapest
    hrefuses (hself.symm ▸ hwords)
  rw [hself] at h
  exact ⟨description, h⟩

end Expr

end Olap
