import Olap.Proofs.Calc.StyledCalls
import Olap.Proofs.Evaluation.Belonging

/-!
# Styles are kept

Wherever a tree is used (`Calc.InUse`), what is kept for it are results in the styles of its
calculations (`Calc.InUse.keeping`), so that every node of it gives results in its style. The trees of
an expression without parameters are such, if every call and every conversion in it has the type of a
set exactly if it gives one (`Expr.evaluate_styled`). Validation sees to that in what it binds and
converts itself. It takes over conversions that are made already, and one that calls a set a member
makes a choice between such members give a set as a single value (`Sample.disguised_choice`).
-/

set_option autoImplicit false

namespace Olap

/-! ## States in which a tree is used -/

/-- The states in which a tree is used at an address: at first nothing is kept for it; its nodes are
evaluated, in any environments; and whatever else is done to the state keeps no results for it. -/
inductive Calc.InUse (c : Calc) (a : Address) : EvalState → Prop
  | start {s : EvalState} (h : s.Unused a) : InUse c a s
  | evaluate {s : EvalState} (h : InUse c a s) (env : Environment) {b : Address} {level : Nat}
      {d : Calc} (hat : c.At a b level d) : InUse c a ((d.evaluate b).exec env s).2
  | change {s t : EvalState} (h : InUse c a s)
      (ht : ∀ (k : CacheKey) (v : Value), a <:+ k.1 → t.cache[k]? = some v → s.cache[k]? = some v) :
      InUse c a t

/-- Only results in the styles of their calculations are kept for a styled tree. -/
theorem Calc.InUse.keeping {c : Calc} (hc : c.Every Styled) {a : Address} {s : EvalState}
    (h : c.InUse a s) : EvalM.Keeping (c.Kept a) s := by
  induction h with
  | start hunused => exact fun k v hv level d hat => absurd hat.suffix (hunused k v hv)
  | evaluate _ env hat ih => exact (renders (hat.every hc) hat env _ ih).keeping
  | change _ ht ih => exact fun k v hv level d hat => ih k v (ht k v hat.suffix hv) level d hat

theorem Calc.InUse.admits {c d : Calc} (hc : c.Every Styled) {a b : Address} {s : EvalState}
    (h : c.InUse a s) {level : Nat} (hat : c.At a b level d) (env : Environment) {v : Value}
    (hv : ((d.evaluate b).exec env s).1 = .ok v) : d.style.Admits v :=
  (renders (hat.every hc) hat env s (h.keeping hc)).holds v hv

/-- A tree for a set in full never fails because a value was wanted as a list. -/
theorem Calc.InUse.asList_wantsNoList {c : Calc} (hc : c.Held) {a : Address} {s : EvalState}
    (h : c.InUse a s) (env : Environment) :
    WantsNoList ((EvalM.asList (c.evaluate a)).exec env s).1 := by
  have hlist : EvalM.Renders (c.Kept a) (c.evaluate a) fun v => ∃ l, v = .list l :=
    (renders hc.tree .root).mono fun _ => hc.held.exists_list
  exact (hlist.asList env s (h.keeping hc.tree)).wantsNoList

/-! ## Expressions -/

namespace Expr

variable {cube : Cube} {e : Expr} {styles : List ResultStyle} {owned : Bool} {c : Calc}

theorem styled (hfree : e.hasParameter = false) (hnames : e.namesSets = true)
    (hc : e.compile cube styles = .ok c ∨ (e.toOperand cube).list styles owned = .ok c ∨
      (e.toOperand cube).iterable styles = .ok c) : c.Every Calc.Styled := by
  have honest := e.honest cube hfree hnames
  rcases hc with h | h | h
  · exact (honest styles c h).tree
  · exact (honest.list styles owned c h).tree
  · exact honest.iterable styles c h

/-- Every node of every tree of a validated expression gives its results in its style, in all states in
which the tree is used, and what is compiled to a list never fails because a value was wanted as a
list; provided that there are no parameters, and that calls and conversions have the type of a set
exactly if they give one, as they have if none were made before the validation. -/
theorem evaluate_styled {source bound : Expr} {registry : ParameterRegistry}
    (hvalid : ((source.validate .builtin).run registry).1 = .ok bound) :
    (source.isClosed = true → bound.hasParameter = false ∧ bound.namesSets = true) ∧
    (bound.hasParameter = false → bound.namesSets = true →
      ∀ (cube : Cube) (styles : List ResultStyle) (owned : Bool) (c : Calc),
        (bound.compile cube styles = .ok c ∨ (bound.toOperand cube).list styles owned = .ok c ∨
          (bound.toOperand cube).iterable styles = .ok c) →
        ∀ (a : Address) (s : EvalState), c.InUse a s → ∀ env : Environment,
          (∀ b level d, c.At a b level d → ∀ v, ((d.evaluate b).exec env s).1 = .ok v →
            d.style.Admits v) ∧
          ((bound.toOperand cube).list styles owned = .ok c → ∀ kind,
            ((EvalM.asList (c.evaluate a)).exec env s).1 ≠ .error (.typeConversion kind "list"))) := by
  refine ⟨fun hclosed => ?_, fun hfree hnames cube styles owned c hc a s hs env => ⟨?_, ?_⟩⟩
  · have hbound := validate_bound hclosed hvalid
    exact ⟨hbound.hasParameter_eq_false, hbound.namesSets⟩
  · intro b level d hat v hv
    exact hs.admits (styled hfree hnames hc) hat env hv
  · intro hlist kind herror
    have hheld := (bound.honest cube hfree hnames).list styles owned c hlist
    cases hs.asList_wantsNoList hheld env _ herror

end Expr

namespace Sample

/-- The set of both measures gives a list, also after another evaluation. -/
theorem evaluate_styled_bothMeasures :
    ((bothMeasures.validate .builtin).run []).1 = .ok bothBound ∧ bothMeasures.isClosed = true ∧
      bothBound.hasParameter = false ∧ bothBound.namesSets = true ∧
      ∃ c, (bothBound.toOperand cube).list Expr.anyStyles false = .ok c ∧
        ∃ s t : EvalState, s.Unused [0] ∧ t = ((c.evaluate [0]).exec environment s).2 ∧ c.InUse [0] t ∧
          (∃ v, ((c.evaluate [0]).exec environment t).1 = .ok v ∧ c.style.Admits v) ∧
          ∀ kind, ((EvalM.asList (c.evaluate [0])).exec environment t).1 ≠
            .error (.typeConversion kind "list") := by
  obtain ⟨hclosed, hstyled⟩ := Expr.evaluate_styled validate_bothMeasures
  obtain ⟨hfree, hnames⟩ := hclosed rfl
  let s : EvalState := .start cube (.memory [⟨[amount], 5⟩]) {}
  have hruns : ((bothBound.toOperand cube).list Expr.anyStyles false).toOption.map (fun c =>
      let t := ((c.evaluate [0]).exec environment s).2
      ((c.evaluate [0]).exec environment t).1.toOption.isSome) = some true := by
    decide +kernel
  obtain ⟨c, hc, hsome⟩ := exists_ok_of_map hruns
  obtain ⟨v, hv⟩ := exists_ok_of_isSome hsome
  have hunused : s.Unused [0] := EvalState.unused_of_empty rfl
  have huse : c.InUse [0] _ := (Calc.InUse.start hunused).evaluate environment .root
  obtain ⟨hnodes, hlist⟩ :=
    hstyled hfree hnames cube Expr.anyStyles false c (.inr (.inl hc)) [0] _ huse environment
  exact ⟨validate_bothMeasures, rfl, hfree, hnames, c, hc, s, _, hunused, rfl, huse,
    ⟨v, hv, hnodes [0] 0 c .root v hv⟩, hlist hc⟩

/-- A choice between two sets that a conversion calls members. -/
def disguisedChoice : Expr :=
  let disguisedSet := bothMeasures.convert .anyMember .identity
  .call "IIf" .function [.literal (.boolean true), disguisedSet, disguisedSet]

/-- A conversion that is made before the validation can call a set a member. A choice between such
members gives the set, though its style is that of a single value. -/
theorem disguised_choice :
    ∃ bound c, ((disguisedChoice.validate .builtin).run []).1 = .ok bound ∧
      bound.hasParameter = false ∧ bound.compile cube Expr.anyStyles = .ok c ∧ c.style = .value ∧
      c.InUse [0] (.start cube (.memory []) {}) ∧
      ∃ l, ((c.evaluate [0]).exec environment (.start cube (.memory []) {})).1 = .ok (.list l) := by
  have hruns : (((disguisedChoice.validate .builtin).run []).1.toOption.map fun bound =>
      (bound.hasParameter, (bound.compile cube Expr.anyStyles).toOption.map fun c =>
        (c.style, ((c.evaluate [0]).exec environment
          (.start cube (.memory []) {})).1.toOption.map Value.kind))) =
      some (false, some (.value, some "list")) := by
    decide +kernel
  obtain ⟨bound, hbound, hruns⟩ := exists_ok_of_map hruns
  obtain ⟨hfree, hruns⟩ := Prod.mk.inj hruns
  obtain ⟨c, hc, hruns⟩ := exists_ok_of_map hruns
  obtain ⟨hstyle, hruns⟩ := Prod.mk.inj hruns
  obtain ⟨v, hv, hkind⟩ := exists_ok_of_map hruns
  obtain ⟨l, rfl⟩ : ∃ l, v = .list l := by
    cases v with
    | list l => exact ⟨l, rfl⟩
    | _ => exact absurd hkind (by simp [Value.kind])
  exact ⟨bound, c, hbound, hfree, hc, hstyle, .start (EvalState.unused_of_empty rfl), l, hv⟩

end Sample

end Olap
