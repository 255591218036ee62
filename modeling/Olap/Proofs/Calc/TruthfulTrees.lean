import Olap.Proofs.Calc.TruthfulCalls

/-!
# Bound expressions keep to contracts

A bound expression is consistent (`Expr.isConsistent`) if the rules for the types of its calls agree
with the arguments. If besides its members, hierarchies and dimensions are those of the cube
(`Expr.Over`), it compiles to trees that serve its type, whatever the contract; where the contract is
not strict, it does so in any case (`Expr.Bound.faithful`).
-/

set_option autoImplicit false

namespace Olap.Expr

open ValidateM (Gives)

/-! ## Expressions over a cube -/

mutual

/-- The members, hierarchies and dimensions in an expression are those of the cube. -/
def Over (c : Cube) : Expr → Prop
  | member m => ∃ h ∈ c.hierarchies, m ∈ h.members
  | hierarchy h => h ∈ c.hierarchies
  | dimension d => d ∈ c.dimensions
  | call _ _ args => AllOver c args
  | bound _ _ args => AllOver c args
  | convert e _ _ => e.Over c
  | _ => True

def AllOver (c : Cube) : List Expr → Prop
  | [] => True
  | e :: es => e.Over c ∧ AllOver c es

end

mutual

/-- The rules for the types of the bound calls agree with the arguments. -/
def isConsistent : Expr → Bool
  | call _ _ args => allConsistent args
  | bound d _ args => d.resultRule.agrees (args.map type) && allConsistent args
  | convert e _ _ => e.isConsistent
  | _ => true

def allConsistent : List Expr → Bool
  | [] => true
  | e :: es => e.isConsistent && allConsistent es

end

variable {c : Cube}

theorem allOver_iff {es : List Expr} : AllOver c es ↔ ∀ e ∈ es, e.Over c := by
  induction es with
  | nil => simp [AllOver]
  | cons e es ih => rw [AllOver, ih, List.forall_mem_cons]

theorem allConsistent_iff {es : List Expr} :
    allConsistent es = true ↔ ∀ e ∈ es, e.isConsistent = true := by
  induction es with
  | nil => simp [allConsistent]
  | cons e es ih => rw [allConsistent, Bool.and_eq_true, ih, List.forall_mem_cons]

/-! ### Validation -/

section
variable {t : FunctionTable}

theorem over_converted {args args' : List Expr} (h : List.Forall₂ Converted args args')
    (hover : AllOver c args) : AllOver c args' := by
  induction h with
  | nil => trivial
  | cons hc _ ih =>
    refine ⟨?_, ih hover.2⟩
    cases hc with
    | same => exact hover.1
    | convert _ _ _ => exact hover.1

theorem bind_over {name : String} {form : CallForm} {args : List Expr} (hover : AllOver c args) :
    Produces (Over c) (t.bind name form args) := by
  intro e he
  obtain ⟨d, args', hres, -, rfl⟩ := FunctionTable.bind_eq_ok_iff.1 he
  exact over_converted (FunctionTable.resolveCall_sound hres).2.2 hover

mutual

theorem validate_over_gives : ∀ e : Expr, e.Over c → Gives (Over c) (e.validate t)
  | call _ _ args, h => (validateAll_over_gives args h).bind fun _ h => .lift (bind_over h)
  | parameter _, _ => Gives.bind .anything fun _ _ => .pure trivial
  | convert e _ _, h => (validate_over_gives e h).bind fun _ h => .pure h
  | bound _ _ args, h => (validateAll_over_gives args h).bind fun _ h => .pure h
  | literal _, _ => .pure trivial
  | member _, h => .pure h
  | level _, _ => .pure trivial
  | hierarchy _, h => .pure h
  | dimension _, h => .pure h

theorem validateAll_over_gives :
    ∀ es : List Expr, AllOver c es → Gives (AllOver c) (validateAll t es)
  | [], _ => .pure trivial
  | e :: es, h => (validate_over_gives e h.1).bind fun _ h₁ =>
      (validateAll_over_gives es h.2).bind fun _ h₂ => .pure ⟨h₁, h₂⟩

end

/-- Validation leads to nothing outside of the cube. -/
theorem validate_over {e e' : Expr} {registry : ParameterRegistry} (hover : e.Over c)
    (h : ((e.validate t).run registry).1 = .ok e') : e'.Over c :=
  validate_over_gives e hover registry e' h

end

/-! ## Trees -/

open Calc

variable {T : Contract}

theorem serves_constant {v : Value} {t : ExprType} (hv : T.Holds t v) (ht : t.isSet = false) :
    (Calc.constant v t).Serves T t :=
  .of_single (.none fun _ => Contract.Ensures.run_constant hv []) ht ht

theorem columns_converted {t : ExprType} {p : Category} (ht : t.HasColumns) :
    (t.convertedTo p).HasColumns := by
  cases p with
  | tuple => exact Nat.one_pos
  | set =>
    cases t with
    | tuple ss => exact ht
    | _ => exact Nat.one_pos
  | _ => trivial

/-- A bound expression compiles to trees that serve its type, if that is not a matter of the contract
or else if the expression is consistent and over the cube. -/
theorem Bound.faithful {e : Expr} (he : e.Bound)
    (h : T.strict → e.Over T.env.cube ∧ e.isConsistent = true) :
    (e.toOperand T.env.cube).Faithful T := by
  have hcompiles : (e.toOperand T.env.cube).Compiles := he.compiles
  induction he with
  | literal l =>
    refine ⟨hcompiles, fun styles => .ok (serves_constant ?_ ?_), ?_⟩
    · cases l <;> exact fun _ => trivial
    · cases l <;> rfl
    · cases l <;> trivial
  | member m =>
    refine ⟨hcompiles, fun styles => .ok (serves_constant (fun hstrict => ?_) rfl), trivial⟩
    obtain ⟨k, hk, hm⟩ := (h hstrict).1
    exact .inr ⟨m, rfl, Scope.holds_ofMember (T.named hstrict) hk hm⟩
  | level l =>
    refine ⟨hcompiles, fun styles => .ok (serves_constant (fun hstrict => ?_) rfl), trivial⟩
    exact ⟨l, rfl, Scope.tells_ofLevel l⟩
  | hierarchy k =>
    refine ⟨hcompiles, fun styles => .ok (serves_constant (fun hstrict => ?_) rfl), trivial⟩
    exact ⟨k, (h hstrict).1, rfl, Scope.tells_ofHierarchy k⟩
  | dimension d =>
    refine ⟨hcompiles, fun styles => .ok (serves_constant (fun hstrict => ?_) rfl), trivial⟩
    have hd : d ∈ T.env.cube.dimensions := (h hstrict).1
    exact ⟨d, hd, rfl, fun k hk => Scope.tells_ofDimension (T.named hstrict) hd hk⟩
  | call hd hcat hsym hargs ih =>
    rename_i d args
    have hfaithful (e : Expr) (he : e ∈ args) : (e.toOperand T.env.cube).Faithful T := by
      refine ih e he (fun hstrict => ?_) (hargs e he).compiles
      obtain ⟨hover, hconsistent⟩ := h hstrict
      rw [isConsistent, Bool.and_eq_true] at hconsistent
      exact ⟨allOver_iff.1 hover e he, allConsistent_iff.1 hconsistent.2 e he⟩
    have hsound : BoundCall.Sound T
        ⟨d, d.resultType (args.map Expr.type), operands T.env.cube args⟩ := by
      rw [operands_eq_map]
      refine ⟨?_, ?_, ?_, fun hstrict => ?_⟩
      · exact List.forall_mem_map.2 hfaithful
      · rwa [List.map_map]
      · rw [List.map_map]
        rfl
      · have hconsistent := (h hstrict).2
        rw [isConsistent, Bool.and_eq_true] at hconsistent
        rw [List.map_map]
        exact hconsistent.1
    exact ⟨hcompiles, fun styles => hsound.serves hd, hsound.columns hd⟩
  | convert he hne hcost hr ih =>
    rename_i e p
    have hfaithful := ih h he.compiles
    refine ⟨hcompiles, fun styles => ?_, columns_converted hfaithful.columns⟩
    exact hfaithful.converted styles (Category.converts hne hcost)

end Olap.Expr
