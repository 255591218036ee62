import Olap.Proofs.Catalog.Lookup
import Olap.Proofs.Function.Arity
import Olap.Proofs.Function.Braces
import Olap.Proofs.Typing.Join

/-!
# The type of a set constructor

Braces bind any number of arguments, each of which is taken on its own: a hierarchy or a dimension for
its current member, all others as they are (`FunctionTable.bind_elements`). The type of the set is that of
what all elements have in common. Since a common type is a join, neither the binding nor the type depends
on the order of the elements (`ExprType.common_join`).
-/

set_option autoImplicit false

namespace Olap

/-- The parameter that braces have for an argument of the category. -/
def Category.elementParameter? : Category → Option Category
  | member => some member
  | tuple => some tuple
  | set => some set
  | hierarchy | dimension => some member
  | _ => none

theorem VariadicRule.elements_parameters? (cs : List Category) :
    elements.parameters? cs = cs.mapM Category.elementParameter? := rfl

namespace Expr

/-- The parameter that braces have for the argument. -/
def elementParameter (e : Expr) : Category := (e.type.category.elementParameter?).getD .member

/-- The argument as it is passed to braces. -/
def element (e : Expr) : Expr := e.passedTo e.elementParameter

/-- Braces take the argument. -/
def IsElement (e : Expr) : Prop :=
  e.type.category.elementParameter?.isSome = true ∧ e.Passes e.elementParameter

end Expr

namespace FunctionTable
open Olap.Expr (IsElement)

/-- Braces take every argument or none. -/
theorem mapM_elementParameter? {args : List Expr} {ps : List Category} :
    (args.map (·.type.category)).mapM Category.elementParameter? = some ps ↔
      (∀ a ∈ args, a.type.category.elementParameter?.isSome = true) ∧
        args.map Expr.elementParameter = ps := by
  induction args generalizing ps with
  | nil => simp
  | cons a args ih =>
    rw [List.map_cons, List.mapM_cons, List.forall_mem_cons, List.map_cons]
    constructor
    · intro h
      obtain ⟨p, hp, h⟩ := Option.bind_eq_some_iff.1 h
      obtain ⟨qs, hqs, h⟩ := Option.bind_eq_some_iff.1 h
      cases h
      obtain ⟨hall, rfl⟩ := ih.1 hqs
      rw [Expr.elementParameter, hp]
      exact ⟨⟨rfl, hall⟩, rfl⟩
    · rintro ⟨⟨ha, hall⟩, rfl⟩
      obtain ⟨p, hp⟩ := Option.isSome_iff_exists.1 ha
      rw [ih.2 ⟨hall, rfl⟩, Expr.elementParameter, hp]
      rfl

theorem zipWith_passedTo (args : List Expr) :
    List.zipWith Expr.passedTo args (args.map Expr.elementParameter) = args.map Expr.element := by
  rw [List.zipWith_map_right, List.zipWith_self]
  rfl

theorem elementParameter_ne_symbol (e : Expr) : e.elementParameter ≠ .symbol := by
  unfold Expr.elementParameter
  cases e.type.category <;> decide

theorem forall₂_passes {args : List Expr} :
    List.Forall₂ Expr.Passes args (args.map Expr.elementParameter) ↔
      ∀ a ∈ args, a.Passes a.elementParameter := by
  rw [List.forall₂_map_right_iff, List.forall₂_same]

theorem lookup_elements : ∃ v : Variadic, builtin.lookup "\x7b\x7d" .braces = [.variadic v] ∧
    v.definition = Definition.ofBraces ∧ ∀ args : List Expr, v.parameters? args =
      (args.map (·.type.category)).mapM Category.elementParameter? := by
  obtain ⟨v, hlookup, hparameters, hdefinition⟩ := lookup_braces
  refine ⟨v, hlookup, hdefinition, fun args => ?_⟩
  rw [hparameters, VariadicRule.matches?, VariadicRule.elements_parameters?]

section
variable {args : List Expr} (helements : ∀ a ∈ args, a.IsElement)
include helements

theorem passes_elements : List.Forall₂ Expr.Passes args (args.map Expr.elementParameter) :=
  forall₂_passes.2 fun a ha => (helements a ha).2

/-- The one overload that fits takes each argument on its own. -/
theorem fits_elements : ∃ cost, builtin.fits "\x7b\x7d" .braces args =
    [(.ofBraces (args.map Expr.elementParameter), cost)] := by
  obtain ⟨v, hlookup, hdefinition, hmatches⟩ := lookup_elements
  have hps := mapM_elementParameter?.2 ⟨fun a ha => (helements a ha).1, rfl⟩
  obtain ⟨cost, hcost⟩ := Option.isSome_iff_exists.1 (isSome_passingCost? (passes_elements helements))
  have hparameters : (Definition.ofBraces (args.map Expr.elementParameter)).signature.parameters =
      args.map Expr.elementParameter := rfl
  refine ⟨cost, ?_⟩
  rw [fits, hlookup, List.flatMap_singleton, Resolver.overloads, hmatches, hps, hdefinition,
    Option.map_some, Option.toList_some, List.filterMap_cons, List.filterMap_nil, hparameters, hcost]
  rfl

/-- No element is a reserved word. -/
theorem checkSymbols_elements : (Definition.ofBraces (args.map Expr.elementParameter)).checkSymbols
    (List.zipWith Expr.passedTo args (args.map Expr.elementParameter)) = .ok () := by
  refine Definition.checkSymbols_of_known fun a ha word hword => ?_
  have hcategory : a.type.category ∈ args.map Expr.elementParameter := by
    rw [← Expr.passed_categories (passes_elements helements)]
    exact List.mem_map_of_mem ha
  obtain ⟨x, -, hx⟩ := List.mem_map.1 hcategory
  rw [Expr.symbol?_eq_none fun heq => elementParameter_ne_symbol x (hx.trans heq)] at hword
  cases hword

end

/-- Braces bind each argument on its own. -/
theorem bind_elements {args : List Expr} {e : Expr} :
    builtin.bind "\x7b\x7d" .braces args = .ok e ↔ (∀ a ∈ args, a.IsElement) ∧
      e = .bound (.ofBraces (args.map Expr.elementParameter))
        ((Definition.ofBraces (args.map Expr.elementParameter)).resultType
          ((args.map Expr.element).map Expr.type)) (args.map Expr.element) := by
  constructor
  · intro h
    obtain ⟨d, args', hres, -, rfl⟩ := bind_eq_ok_iff.1 h
    obtain ⟨r, hr, hd, -⟩ := resolveCall_mem hres
    obtain ⟨-, rfl, hpasses⟩ := resolveCall_passes hres
    obtain ⟨v, hlookup, hdefinition, hmatches⟩ := lookup_elements
    rw [hlookup, List.mem_singleton] at hr
    subst hr
    rw [Resolver.overloads, hmatches, Option.mem_toList, Option.map_eq_some_iff] at hd
    obtain ⟨ps, hps, rfl⟩ := hd
    obtain ⟨hsome, rfl⟩ := mapM_elementParameter?.1 hps
    rw [hdefinition] at hpasses ⊢
    refine ⟨fun a ha => ⟨hsome a ha, forall₂_passes.1 hpasses a ha⟩, ?_⟩
    rw [← zipWith_passedTo]
    rfl
  · rintro ⟨helements, rfl⟩
    obtain ⟨cost, hfits⟩ := fits_elements helements
    have hresolve := resolveCall_of_cheapest ((congrArg cheapest hfits).trans (cheapest_singleton _ cost))
    rw [Definition.accept_of_passes (passes_elements helements)] at hresolve
    refine bind_eq_ok_iff.2 ⟨_, _, hresolve, checkSymbols_elements helements, ?_⟩
    rw [← zipWith_passedTo]
    rfl

/-- A set constructor binds its elements in any order, and always to the same type. -/
theorem bind_elements_perm {args args' : List Expr} {e : Expr} (hperm : args.Perm args')
    (h : builtin.bind "\x7b\x7d" .braces args = .ok e) :
    ∃ e', builtin.bind "\x7b\x7d" .braces args' = .ok e' ∧ e'.type = e.type := by
  obtain ⟨helements, rfl⟩ := bind_elements.1 h
  refine ⟨_, bind_elements.2 ⟨fun a ha => helements a (hperm.mem_iff.2 ha), rfl⟩, ?_⟩
  have htypes := ((hperm.symm.map Expr.element).map Expr.type).map ResultRule.elementOf
  exact congrArg ExprType.set (ResultRule.commonElement_perm htypes)

end FunctionTable

/-- The common type is a join on all types, where having nothing in common absorbs; so no set
constructor depends on the order of its elements. If the scopes of two types are well-formed for a cube,
then what they have in common possibly lies on every hierarchy that one of them possibly lies on, and
they both definitely lie on every hierarchy that it definitely lies on. -/
theorem ExprType.common_join (c : Cube) :
    (∀ x, commonOf x x = x) ∧
      (∀ x y, commonOf x y = commonOf y x) ∧
      (∀ x y z, commonOf (commonOf x y) z = commonOf x (commonOf y z)) ∧
      (∀ d : Definition, d.resultRule = .elements → ∀ ts us : List ExprType, ts.Perm us →
        d.resultType ts = d.resultType us) ∧
      (∀ args args' e, args.Perm args' →
        FunctionTable.builtin.bind "\x7b\x7d" .braces args = .ok e →
        ∃ e', FunctionTable.builtin.bind "\x7b\x7d" .braces args' = .ok e' ∧ e'.type = e.type) ∧
      ∀ t u v : ExprType, t.WellScoped c → u.WellScoped c → commonOf (some t) (some u) = some v →
        ∀ h ∈ c.hierarchies,
          (t.uses h false = true ∨ u.uses h false = true → v.uses h false = true) ∧
          (v.uses h true = true → t.uses h true = true ∧ u.uses h true = true) := by
  refine ⟨commonOf_self, commonOf_comm, commonOf_assoc, fun d hd ts us hperm => ?_,
    fun args args' e hperm h => FunctionTable.bind_elements_perm hperm h,
    fun t u v ht hu hv h hh => ⟨fun huse => ?_, fun huse => ?_⟩⟩
  · rw [Definition.resultType, Definition.resultType, hd]
    exact congrArg ExprType.set (ResultRule.commonElement_perm (hperm.map _))
  · have hv : t.common? u = some v := hv
    rcases huse with huse | huse
    · exact uses_common? hv ht hh huse
    · exact uses_common? (common?_comm t u ▸ hv) hu hh huse
  · have hv : t.common? u = some v := hv
    exact ⟨uses_of_common? hv huse, uses_of_common? (common?_comm t u ▸ hv) huse⟩

namespace Sample

/-- Members of the two calendars have their dimension in common and possibly lie on either calendar;
a set with one member of each hierarchy is the same type of set backwards. -/
theorem common_join_calendars :
    (∀ h ∈ calendarCube.hierarchies, (ExprType.memberOf h).WellScoped calendarCube) ∧
      (∀ h ∈ calendarCube.hierarchies, ∀ k ∈ calendarCube.hierarchies, ∃ v,
        ExprType.commonOf (some (.setOf h)) (some (.setOf k)) = some v ∧
          v.uses h false = true ∧ v.uses k false = true) ∧
      ∃ e e', FunctionTable.builtin.bind "\x7b\x7d" .braces
          (calendarCube.hierarchies.map Expr.hierarchy) = .ok e ∧
        FunctionTable.builtin.bind "\x7b\x7d" .braces
          (calendarCube.hierarchies.map Expr.hierarchy).reverse = .ok e' ∧ e'.type = e.type := by
  obtain ⟨-, -, -, -, hperm, huses⟩ := ExprType.common_join calendarCube
  have hscoped : ∀ h ∈ calendarCube.hierarchies, (ExprType.memberOf h).WellScoped calendarCube := by
    show ∀ h ∈ calendarCube.hierarchies, ∀ k ∈ calendarCube.hierarchies,
      some h.uniqueName = some k.uniqueName → some h.dimension = some k.dimension
    decide +kernel
  have hbinds : (FunctionTable.builtin.bind "\x7b\x7d" .braces
      (calendarCube.hierarchies.map Expr.hierarchy)).toOption.isSome = true := by decide +kernel
  refine ⟨hscoped, fun h hh k hk => ?_, ?_⟩
  · obtain ⟨v, hv⟩ := ExprType.exists_common? (t := .setOf h) (u := .setOf k) rfl
    have hself (h : Hierarchy) : (ExprType.setOf h).uses h false = true := by
      simp [ExprType.setOf, ExprType.memberOf, ExprType.uses, Scope.uses, Scope.ofHierarchy]
    obtain ⟨hh', -⟩ := huses (.setOf h) (.setOf k) v (hscoped h hh) (hscoped k hk) hv h hh
    obtain ⟨hk', -⟩ := huses (.setOf h) (.setOf k) v (hscoped h hh) (hscoped k hk) hv k hk
    exact ⟨v, hv, hh' (.inl (hself h)), hk' (.inr (hself k))⟩
  · obtain ⟨e, he⟩ := exists_ok_of_isSome hbinds
    obtain ⟨e', he', htype⟩ := hperm _ _ e (List.reverse_perm _).symm he
    exact ⟨e, e', he, he', htype⟩

end Sample

end Olap
