import Olap.Function.Builtins
import Olap.Proofs.Calc.Compile
import Olap.Proofs.Function.Selection
import Olap.Validation

/-!
# What validation gives

Validation keeps an expression within a domain (`Expr.validate_within`). An expression that is
unbound, as it was written, is well-typed once it has been validated against the built-in functions
(`Expr.validate_wellTyped`): among these, only a group can have the type of a hierarchy.
-/

set_option autoImplicit false

namespace Olap

/-! ## Steps of validation -/

def ValidateM.Gives {α : Type} (P : α → Prop) (x : ValidateM α) : Prop :=
  ∀ registry : ParameterRegistry, Produces P (x.run registry).1

namespace ValidateM.Gives

variable {α β : Type} {P : α → Prop} {Q : β → Prop}

theorem pure {a : α} (h : P a) : Gives P (Pure.pure a : ValidateM α) := fun _ => .ok h

theorem bind {x : ValidateM α} {f : α → ValidateM β} (hx : Gives P x)
    (hf : ∀ a, P a → Gives Q (f a)) : Gives Q (x >>= f) := by
  intro registry b hb
  have hx := hx registry
  simp only [Bind.bind, ExceptT.bind, ExceptT.mk, ExceptT.run, StateT.bind] at hb hx
  rcases h : x registry with ⟨_ | a, registry'⟩
  · rw [h] at hb
    cases hb
  · rw [h] at hb hx
    exact hf a (hx a rfl) registry' b hb

theorem lift {r : Except ResolutionError α} (h : Produces P r) : Gives P (ValidateM.lift r) := by
  cases r with
  | ok a => exact pure (h a rfl)
  | error e => exact fun _ => .error

theorem anything {x : ValidateM α} : Gives (fun _ => True) x := fun _ _ _ => trivial

end ValidateM.Gives

/-- A call that is bound takes the arguments that it was resolved with. -/
theorem FunctionTable.bind_eq_ok_iff {t : FunctionTable} {name : String} {form : CallForm}
    {args : List Expr} {e : Expr} :
    t.bind name form args = .ok e ↔ ∃ d args', t.resolveCall name form args = .ok (d, args') ∧
      d.checkSymbols args' = .ok () ∧ e = .bound d (d.resultType (args'.map Expr.type)) args' := by
  constructor
  · intro h
    obtain ⟨⟨d, args'⟩, hcall, h⟩ := bind_eq_ok.1 h
    obtain ⟨⟨⟩, hsymbols, h⟩ := bind_eq_ok.1 h
    cases h
    exact ⟨d, args', hcall, hsymbols, rfl⟩
  · rintro ⟨d, args', hcall, hsymbols, rfl⟩
    exact bind_eq_ok.2 ⟨(d, args'), hcall, bind_eq_ok.2 ⟨(), hsymbols, rfl⟩⟩

namespace Expr

open ValidateM (Gives)

variable {t : FunctionTable} {D : Domain}

/-- A call is bound to an overload that a resolver for its name declares. -/
theorem validate_call {name : String} {form : CallForm} {args : List Expr} {e : Expr}
    {registry : ParameterRegistry}
    (h : (((call name form args).validate t).run registry).1 = .ok e) :
    ∃ d type args', e = bound d type args' ∧ ∃ r ∈ t.lookup name form, r.Declares d := by
  have hbind (args : List Expr) : Produces (fun e => ∃ d type args', e = bound d type args' ∧
      ∃ r ∈ t.lookup name form, r.Declares d) (t.bind name form args) := by
    intro e he
    obtain ⟨d, args', hres, -, rfl⟩ := FunctionTable.bind_eq_ok_iff.1 he
    exact ⟨d, _, args', rfl, (FunctionTable.resolveCall_sound hres).1⟩
  have hgives := Gives.bind (x := validateAll t args) .anything fun args _ => .lift (hbind args)
  exact hgives registry e h

/-! ## Domains -/

theorem within_converted {args args' : List Expr} (h : List.Forall₂ Converted args args')
    (hw : AllWithin D args) : AllWithin D args' := by
  induction h with
  | nil => trivial
  | cons hc _ ih =>
    refine ⟨?_, ih hw.2⟩
    cases hc with
    | same => exact hw.1
    | convert c hc hs => exact hw.1

theorem bind_within {name : String} {form : CallForm} {args : List Expr} (hw : AllWithin D args) :
    Produces (Within D) (t.bind name form args) := by
  intro e he
  obtain ⟨d, args', hres, -, rfl⟩ := FunctionTable.bind_eq_ok_iff.1 he
  exact within_converted (FunctionTable.resolveCall_sound hres).2.2 hw

mutual

theorem validate_within_gives : ∀ e : Expr, e.Within D → Gives (Within D) (e.validate t)
  | call _ _ args, hw =>
    (validateAll_within_gives args hw).bind fun _ h => .lift (bind_within h)
  | parameter _, _ => Gives.bind .anything fun _ _ => .pure trivial
  | convert e _ _, hw => (validate_within_gives e hw).bind fun _ h => .pure h
  | bound _ _ args, hw => (validateAll_within_gives args hw).bind fun _ h => .pure h
  | literal _, _ => .pure trivial
  | member _, hw => .pure hw
  | level _, _ => .pure trivial
  | hierarchy _, hw => .pure hw
  | dimension _, hw => .pure hw

theorem validateAll_within_gives :
    ∀ es : List Expr, AllWithin D es → Gives (AllWithin D) (validateAll t es)
  | [], _ => .pure trivial
  | e :: es, hw => (validate_within_gives e hw.1).bind fun _ h =>
      (validateAll_within_gives es hw.2).bind fun _ h' => .pure ⟨h, h'⟩

end

/-- Validation leads to no members or hierarchies that the expression did not hold before. -/
theorem validate_within {e e' : Expr} {registry : ParameterRegistry} (hw : e.Within D)
    (h : ((e.validate t).run registry).1 = .ok e') : e'.Within D :=
  validate_within_gives e hw registry e' h

end Expr

/-! ## Types of hierarchies -/

namespace ExprType

theorem category_of_isHierarchy {t : ExprType} (h : t.isHierarchy = true) :
    t.category = .hierarchy := by
  cases t <;> first | rfl | cases h

/-- What two types have in common has the type of a hierarchy only if they both do. -/
theorem isHierarchy_of_common? {t u v : ExprType} (h : t.common? u = some v)
    (hv : v.isHierarchy = true) : t.isHierarchy = true := by
  unfold common? at h
  split at h
  · cases h
    exact hv
  · split at h
    · rename_i hnull
      cases h
      have hscalar := hnull.2
      rw [isScalar, category_of_isHierarchy hv] at hscalar
      cases hscalar
    · split at h
      · cases h
        exact hv
      · split at h
        · cases h
          cases hv
        · cases h
          cases hv
        · cases h
          cases hv
        · split at h
          · cases h
            cases hv
          · cases h
        · obtain ⟨w, -, rfl⟩ := Option.map_eq_some_iff.1 h
          cases hv
        · split at h
          · cases h
            cases hv
          · cases h

theorem isHierarchy_of_common?_getD {t u : ExprType}
    (h : ((t.common? u).getD t).isHierarchy = true) : t.isHierarchy = true := by
  rcases hc : t.common? u with _ | v
  · rw [hc] at h
    exact h
  · rw [hc] at h
    exact isHierarchy_of_common? hc h

end ExprType

theorem ResultRule.ofCategory_category (c : Category) (arguments : List ExprType) :
    (ofCategory c arguments).category = c := by
  unfold ofCategory
  cases c with
  | set =>
    dsimp only
    split <;> rfl
  | _ => rfl

namespace Definition

/-- By its rule for the type of results, the overload gives the type of a hierarchy only if it groups a
single argument. -/
def onlyGroupsHierarchies (d : Definition) : Bool :=
  match d.resultRule with
  | .declared => d.signature.result != .hierarchy
  | .branches => d.signature.parameters[1]? != some .hierarchy
  | .first => d.signature.parameters.head? != some .hierarchy
  | .columns => d.body == .tuple
  | .joined | .elements => true

theorem resultType_isHierarchy {d : Definition} (hd : d.onlyGroupsHierarchies = true)
    {args : List Expr} (hargs : args.map (fun e => e.type.category) = d.signature.parameters)
    (h : (d.resultType (args.map Expr.type)).isHierarchy = true) :
    d.body = .tuple ∧ ∃ e, args = [e] ∧ e.type = d.resultType (args.map Expr.type) := by
  unfold onlyGroupsHierarchies at hd
  unfold resultType ResultRule.apply at h ⊢
  cases hrule : d.resultRule with
  | declared =>
    rw [hrule] at hd h
    have hresult := ExprType.category_of_isHierarchy h
    rw [ResultRule.ofCategory_category] at hresult
    exact absurd hresult (bne_iff_ne.1 hd)
  | branches =>
    rw [hrule] at hd h
    dsimp only at hd h
    rw [← hargs] at hd
    match args, h with
    | [], h => cases h
    | [_], h => cases h
    | [_, _], h => cases h
    | _ :: e :: e' :: _, h =>
      have : e.type.category ≠ .hierarchy := by simpa using hd
      exact absurd (ExprType.category_of_isHierarchy (ExprType.isHierarchy_of_common?_getD h)) this
  | joined =>
    rw [hrule] at h
    cases h
  | elements =>
    rw [hrule] at h
    cases h
  | columns =>
    rw [hrule] at hd h
    refine ⟨by simpa using hd, ?_⟩
    match args, h with
    | [], h => cases h
    | [e], _ => exact ⟨e, rfl, rfl⟩
    | _ :: _ :: _, h => cases h
  | first =>
    rw [hrule] at hd h
    rw [← hargs] at hd
    match args, h with
    | [], h => cases h
    | e :: _, h =>
      have : e.type.category ≠ .hierarchy := by simpa using hd
      exact absurd (ExprType.category_of_isHierarchy h) this

end Definition

namespace FunctionTable

/-- Whether a resolver's overloads give types of hierarchies by grouping only. -/
def onlyGroupsHierarchies : Resolver → Bool
  | .fixed o => o.definitions.all (·.onlyGroupsHierarchies)
  | .variadic v => v.resultRule == .elements || v.resultRule == .columns && v.body == .tuple

theorem builtin_onlyGroupsHierarchies :
    FunctionTable.builtin.resolvers.all onlyGroupsHierarchies = true := by decide

theorem onlyGroupsHierarchies_of_declares {r : Resolver} (hr : r ∈ FunctionTable.builtin.resolvers)
    {d : Definition} (hd : r.Declares d) : d.onlyGroupsHierarchies = true := by
  have hall := List.all_eq_true.1 builtin_onlyGroupsHierarchies r hr
  cases r with
  | fixed o => exact List.all_eq_true.1 hall d hd
  | variadic v =>
    obtain ⟨hbody, hrule, -, -⟩ := hd
    unfold Definition.onlyGroupsHierarchies
    have hall : v.resultRule = .elements ∨ v.resultRule = .columns ∧ v.body = .tuple := by
      simpa [onlyGroupsHierarchies] using hall
    rcases hall with h | ⟨h, hb⟩
    · rw [hrule, h]
    · rw [hrule, h, hbody, hb]
      rfl

end FunctionTable

/-! ## Expressions as they were written -/

namespace Expr

open ValidateM (Gives)

mutual

/-- No call of the expression is bound and nothing in it is converted. -/
def isUnbound : Expr → Bool
  | call _ _ args => allUnbound args
  | bound .. | convert .. => false
  | _ => true

def allUnbound : List Expr → Bool
  | [] => true
  | e :: es => e.isUnbound && allUnbound es

end

theorem wellTyped_converted {args args' : List Expr} (h : List.Forall₂ Converted args args')
    (hw : AllWellTyped args) : AllWellTyped args' := by
  induction h with
  | nil => trivial
  | cons hc _ ih =>
    refine ⟨?_, ih hw.2⟩
    cases hc with
    | same => exact hw.1
    | convert c hc hs =>
      refine ⟨fun h => ?_, hw.1⟩
      have htarget := ExprType.category_of_isHierarchy h
      rw [Conversion.category_targetType] at htarget
      obtain ⟨hkind, hne, hcost⟩ := hc
      rw [htarget] at hkind hne hcost
      rw [hkind]
      cases hsource : c.source.category with
      | dimension => exact .inl rfl
      | level => exact .inr rfl
      | hierarchy => exact absurd hsource hne
      | _ =>
        rw [hsource] at hcost
        cases hcost

theorem bind_wellTyped {name : String} {form : CallForm} {args : List Expr}
    (hw : AllWellTyped args) : Produces WellTyped (FunctionTable.builtin.bind name form args) := by
  intro e he
  obtain ⟨d, args', hres, -, rfl⟩ := FunctionTable.bind_eq_ok_iff.1 he
  obtain ⟨⟨r, hr, hd⟩, hcat, hall⟩ := FunctionTable.resolveCall_sound hres
  have hr := FunctionTable.mem_resolvers_of_mem_lookup hr
  refine ⟨fun h => ?_, wellTyped_converted hall hw⟩
  exact Definition.resultType_isHierarchy
    (FunctionTable.onlyGroupsHierarchies_of_declares hr hd) hcat h

section
variable {t : FunctionTable}

def BindsWellTyped (t : FunctionTable) : Prop :=
  ∀ (name : String) (form : CallForm) (args : List Expr), AllWellTyped args →
    Produces WellTyped (t.bind name form args)

mutual

theorem validate_wellTyped_gives (ht : BindsWellTyped t) : ∀ e : Expr, e.isUnbound = true →
    Gives WellTyped (e.validate t)
  | call name form args, hu =>
    (validateAll_wellTyped_gives ht args hu).bind fun _ h => .lift (ht name form _ h)
  | bound .., hu => nomatch hu
  | convert .., hu => nomatch hu
  | parameter _, _ => Gives.bind .anything fun _ _ => .pure trivial
  | literal _, _ => .pure trivial
  | member _, _ => .pure trivial
  | level _, _ => .pure trivial
  | hierarchy _, _ => .pure trivial
  | dimension _, _ => .pure trivial

theorem validateAll_wellTyped_gives (ht : BindsWellTyped t) : ∀ es : List Expr,
    allUnbound es = true → Gives AllWellTyped (validateAll t es)
  | [], _ => .pure trivial
  | e :: es, hu => by
    rw [allUnbound, Bool.and_eq_true] at hu
    exact (validate_wellTyped_gives ht e hu.1).bind fun _ h =>
      (validateAll_wellTyped_gives ht es hu.2).bind fun _ h' => .pure ⟨h, h'⟩

end

end

/-- An expression as it was written is well-typed once it has been validated. -/
theorem validate_wellTyped {e e' : Expr} {registry : ParameterRegistry} (hu : e.isUnbound = true)
    (h : ((e.validate .builtin).run registry).1 = .ok e') : e'.WellTyped :=
  validate_wellTyped_gives (fun _ _ _ => bind_wellTyped) e hu registry e' h

end Expr

end Olap
