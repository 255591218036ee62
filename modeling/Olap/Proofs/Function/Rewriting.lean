import Olap.Proofs.Function.Selection
import Mathlib.Algebra.GroupWithZero.Nat

/-!
# Arguments that are rewritten in place

Binding a call rewrites a list of arguments in place: `FunctionTable.bindInPlace` selects an overload,
checks all of its conversions, and then writes one converted argument after the other. What has been
written would stay if a later step failed, but none fails once the first is taken: after an error the
arguments are the old ones, and otherwise they are what `FunctionTable.resolveCall` gives, each with the
category of its parameter (`FunctionTable.bindInPlace_rewrites`).
-/

set_option autoImplicit false

namespace Olap

/-! ## Writing to a list of arguments -/

/-- An action that may write to a list of arguments. A failure does not take back what it has written. -/
abbrev RewriteM := ExceptT ResolutionError (StateM (List Expr))

namespace RewriteM

variable {α β : Type} {args args' : List Expr}

/-- The outcome of an action and the arguments that it leaves. -/
def exec (x : RewriteM α) (args : List Expr) : Except ResolutionError α × List Expr := x.run.run args

/-- An action that writes nothing. -/
def lift : Except ResolutionError α → RewriteM α
  | .ok a => pure a
  | .error e => throw e

@[simp] theorem exec_pure (a : α) : (pure a : RewriteM α).exec args = (.ok a, args) := rfl

@[simp] theorem exec_get : (get : RewriteM (List Expr)).exec args = (.ok args, args) := rfl

@[simp] theorem exec_set : (set args' : RewriteM Unit).exec args = (.ok (), args') := rfl

@[simp] theorem exec_lift (r : Except ResolutionError α) : (lift r).exec args = (r, args) := by
  cases r <;> rfl

theorem exec_bind_ok {x : RewriteM α} {f : α → RewriteM β} {a : α}
    (h : x.exec args = (.ok a, args')) : (x >>= f).exec args = (f a).exec args' := by
  unfold exec at h ⊢
  rw [ExceptT.run_bind, StateT.run_bind, h]
  rfl

theorem exec_bind_error {x : RewriteM α} {f : α → RewriteM β} {e : ResolutionError}
    (h : x.exec args = (.error e, args')) : (x >>= f).exec args = (.error e, args') := by
  unfold exec at h ⊢
  rw [ExceptT.run_bind, StateT.run_bind, h]
  rfl

end RewriteM

open RewriteM

/-- Writes the converted argument in place of the old one. -/
def Conversion.rewrite (c : Conversion) : RewriteM Unit := do
  set (← lift (c.applyTo (← get)))

/-- Binds a call to the cheapest overload and converts its arguments in place. -/
def FunctionTable.bindInPlace (t : FunctionTable) (name : String) (form : CallForm) :
    RewriteM Definition := do
  let winner ← lift (t.select name form (← get))
  winner.conversions.forM fun c => lift c.checkValid
  winner.conversions.forM Conversion.rewrite
  return winner.definition

/-! ## Steps and passes -/

section
variable {c : Conversion} {convs : List Conversion} {args args' : List Expr}

theorem Conversion.exec_rewrite (h : c.applyTo args = .ok args') :
    c.rewrite.exec args = (.ok (), args') := by
  rw [rewrite, exec_bind_ok exec_get, h, exec_bind_ok (exec_lift _), exec_set]

/-- Conversions that can be made one after the other write what they make. -/
theorem exec_rewrites (h : convs.foldlM (fun args c => c.applyTo args) args = .ok args') :
    (convs.forM Conversion.rewrite).exec args = (.ok (), args') := by
  induction convs generalizing args with
  | nil =>
    cases h
    rfl
  | cons c convs ih =>
    rw [List.foldlM_cons] at h
    obtain ⟨args₁, hc, h⟩ := bind_eq_ok.1 h
    change (c.rewrite >>= fun _ => convs.forM Conversion.rewrite).exec args = _
    rw [exec_bind_ok (Conversion.exec_rewrite hc)]
    exact ih h

/-- Checks write nothing. -/
theorem exec_checks (convs : List Conversion) (args : List Expr) :
    (convs.forM fun c => lift c.checkValid).exec args =
      (convs.forM Conversion.checkValid, args) := by
  induction convs with
  | nil => rfl
  | cons c convs ih =>
    change (lift c.checkValid >>= fun _ => convs.forM fun c => lift c.checkValid).exec args =
      (c.checkValid >>= fun _ => convs.forM Conversion.checkValid, args)
    rcases hc : c.checkValid with e | _
    · rw [exec_bind_error (exec_lift _)]
      rfl
    · rw [exec_bind_ok (exec_lift _), ih]
      rfl

end

/-! ## Conversions and their places -/

section
variable {n : Nat} {p : Category} {ps : List Category} {ts : List ExprType} {cost : Nat}
  {convs : List Conversion}

/-- The costs of the conversions add up to the cost of passing the arguments. -/
theorem sum_of_matchFrom (h : matchFrom n ps ts = some (cost, convs)) :
    (convs.map (·.cost)).sum = cost := by
  induction ps generalizing n ts cost convs with
  | nil =>
    obtain ⟨-, rfl, rfl⟩ := matchFrom_nil h
    rfl
  | cons p ps ih =>
    obtain ⟨t, ts', -, hstep⟩ := matchFrom_cons h
    rcases hstep with ⟨-, hrest⟩ | ⟨-, k, total, convs', -, hrest, rfl, rfl⟩
    · exact ih hrest
    · rw [List.map_cons, List.sum_cons, ih hrest]

/-- The conversions stand at places of the arguments. -/
theorem ordinal_of_matchFrom (h : matchFrom n ps ts = some (cost, convs)) :
    ∀ c ∈ convs, n ≤ c.ordinal ∧ c.ordinal < n + ts.length := by
  induction ps generalizing n ts cost convs with
  | nil =>
    obtain ⟨-, -, rfl⟩ := matchFrom_nil h
    exact List.forall_mem_nil _
  | cons p ps ih =>
    obtain ⟨t, ts', rfl, hstep⟩ := matchFrom_cons h
    have hplaces {total : Nat} {convs' : List Conversion}
        (hrest : matchFrom (n + 1) ps ts' = some (total, convs')) :
        ∀ c ∈ convs', n ≤ c.ordinal ∧ c.ordinal < n + (t :: ts').length := by
      intro c hc
      have := ih hrest c hc
      rw [List.length_cons]
      omega
    rcases hstep with ⟨-, hrest⟩ | ⟨-, k, total, convs', -, hrest, -, rfl⟩
    · exact hplaces hrest
    · refine List.forall_mem_cons.2 ⟨?_, hplaces hrest⟩
      simp

/-- The conversion of an argument to the category of its parameter. -/
structure Conversion.Passes (c : Conversion) (t : ExprType) (p : Category) : Prop where
  source : c.source = t
  target : c.target = p
  kind : c.kind = t.category.conversionTo p
  cost : t.category.conversionCost? p = some c.cost

theorem Conversion.Passes.targetType_eq {c : Conversion} {t : ExprType} (hc : c.Passes t p) :
    c.targetType = t.convertedTo p := by
  obtain ⟨ordinal, source, target, cost, kind⟩ := c
  obtain ⟨rfl, rfl, -, -⟩ := hc
  rfl

/-- There is one conversion for each argument that has not the category of its parameter, and none for
the others. -/
theorem matchFrom_at (h : matchFrom n ps ts = some (cost, convs)) {i : Nat} {t : ExprType}
    (ht : ts[i]? = some t) (hp : ps[i]? = some p) :
    (t.category = p ∧ convs.filter (·.ordinal == n + i) = []) ∨
      (t.category ≠ p ∧ ∃ c, convs.filter (·.ordinal == n + i) = [c] ∧ c.Passes t p) := by
  induction ps generalizing n ts cost convs i with
  | nil => cases hp
  | cons q ps ih =>
    obtain ⟨t', ts', rfl, hstep⟩ := matchFrom_cons h
    -- conversions for later places are not for the first
    have hlater {total : Nat} {convs' : List Conversion}
        (hrest : matchFrom (n + 1) ps ts' = some (total, convs')) :
        convs'.filter (·.ordinal == n) = [] := by
      rw [List.filter_eq_nil_iff]
      intro c hc
      have := (ordinal_of_matchFrom hrest c hc).1
      simp only [beq_iff_eq]
      omega
    rcases i with _ | i
    · cases ht
      cases hp
      rcases hstep with ⟨hcat, hrest⟩ | ⟨hcat, k, total, convs', hk, hrest, -, rfl⟩
      · exact .inl ⟨hcat, hlater hrest⟩
      · refine .inr ⟨hcat, ⟨n, t, p, k, t.category.conversionTo p⟩, ?_, rfl, rfl, rfl, hk⟩
        rw [List.filter_cons_of_pos (by simp), Nat.add_zero, hlater hrest]
    · rw [List.getElem?_cons_succ] at ht hp
      have hplace : n + (i + 1) = n + 1 + i := by omega
      rw [hplace]
      rcases hstep with ⟨-, hrest⟩ | ⟨-, k, total, convs', -, hrest, -, rfl⟩
      · exact ih hrest ht hp
      · rw [List.filter_cons_of_neg (by simp; omega)]
        exact ih hrest ht hp

end

/-! ## Binding in place -/

namespace FunctionTable

variable {t : FunctionTable} {name : String} {form : CallForm} {args : List Expr}

/-- Binding in place leaves the arguments that binding gives, or the old ones. -/
theorem exec_bindInPlace (t : FunctionTable) (name : String) (form : CallForm) (args : List Expr) :
    (t.bindInPlace name form).exec args =
      match t.resolveCall name form args with
      | .ok (d, args') => (.ok d, args')
      | .error e => (.error e, args) := by
  rw [bindInPlace, exec_bind_ok exec_get]
  rcases hselect : t.select name form args with e | w
  · rw [exec_bind_error (exec_lift _), resolveCall_of_select_error hselect]
  · obtain ⟨-, -, -, hmatch⟩ := select_sound hselect
    obtain ⟨hpasses, -⟩ := matchFrom_passed hmatch [] args rfl rfl
    rw [exec_bind_ok (exec_lift _), resolveCall, hselect]
    rcases hcheck : w.conversions.forM Conversion.checkValid with e | _
    · rw [exec_bind_error ((exec_checks _ _).trans (by rw [hcheck]))]
      simp only [bind, Except.bind, hcheck]
    · rw [exec_bind_ok ((exec_checks _ _).trans (by rw [hcheck]))]
      rw [List.nil_append, List.nil_append] at hpasses
      rw [exec_bind_ok (exec_rewrites hpasses), exec_pure]
      simp only [bind, Except.bind, hcheck, hpasses]
      rfl

/-- A call is bound in place to the overload that binding gives. Then there are as many arguments as
parameters, of their categories; an argument that had the category of its parameter is the old one, any
other is wrapped in the one conversion for its place; and the costs of the conversions add up to the
lowest cost of all overloads that fit. After an error the arguments are the old ones. -/
theorem bindInPlace_rewrites (t : FunctionTable) (name : String) (form : CallForm)
    (args : List Expr) :
    (∀ d args', (t.bindInPlace name form).exec args = (.ok d, args') →
      t.resolveCall name form args = .ok (d, args') ∧
        args.length = d.signature.parameters.length ∧ args'.length = d.signature.parameters.length ∧
        args'.map (·.type.category) = d.signature.parameters ∧
        ∃ winner, t.select name form args = .ok winner ∧ winner.definition = d ∧
          (∀ (i : Nat) (a : Expr) (p : Category), args[i]? = some a →
            d.signature.parameters[i]? = some p →
            (a.type.category = p ∧ winner.conversions.filter (·.ordinal == i) = [] ∧
                args'[i]? = some a) ∨
              (a.type.category ≠ p ∧ ∃ c, winner.conversions.filter (·.ordinal == i) = [c] ∧
                c.Passes a.type p ∧ args'[i]? = some (.convert a c.targetType c.kind))) ∧
          (∀ c ∈ winner.conversions, c.ordinal < args.length) ∧
          (winner.conversions.map (·.cost)).sum = winner.cost ∧
          ((t.fits name form args).map Prod.snd).min? = some winner.cost) ∧
    ∀ e args', (t.bindInPlace name form).exec args = (.error e, args') →
      args' = args ∧ t.resolveCall name form args = .error e := by
  rw [exec_bindInPlace]
  rcases hcall : t.resolveCall name form args with e | ⟨d, args'⟩
  · refine ⟨fun d args' h => ?_, fun e' args' h => ?_⟩
    · cases h
    · cases h
      exact ⟨rfl, rfl⟩
  refine ⟨fun d' args'' h => ?_, fun e args'' h => ?_⟩
  · cases h
    obtain ⟨-, hcategories, hconverted⟩ := resolveCall_sound hcall
    obtain ⟨w, hselect, hdefinition, hmatch, hpassed⟩ := exists_winner hcall
    have hlength : args'.length = d.signature.parameters.length := by
      rw [← hcategories, List.length_map]
    refine ⟨rfl, hconverted.length_eq.trans hlength, hlength, hcategories, w, hselect, hdefinition,
      ?_, ?_, sum_of_matchFrom hmatch, select_cost hselect⟩
    · intro i a p ha hp
      have htype : (args.map Expr.type)[i]? = some a.type := by
        rw [List.getElem?_map, ha]
        rfl
      have hat : args'[i]? = some (a.passedTo p) := by
        rw [hpassed, List.getElem?_zipWith, ha, hp]
      have hplace := matchFrom_at hmatch htype hp
      rw [Nat.zero_add] at hplace
      rcases hplace with ⟨hcategory, hnone⟩ | ⟨hcategory, c, hone, hc⟩
      · rw [Expr.passedTo, if_pos hcategory] at hat
        exact .inl ⟨hcategory, hnone, hat⟩
      · rw [Expr.passedTo, if_neg hcategory, ← hc.targetType_eq, ← hc.kind] at hat
        exact .inr ⟨hcategory, c, hone, hc, hat⟩
    · intro c hc
      have hordinal := (ordinal_of_matchFrom hmatch c hc).2
      rwa [Nat.zero_add, List.length_map] at hordinal
  · cases h

end FunctionTable

/-! ## A conversion that is refused after another one -/

namespace Sample

def valued (parameter : Category) : Definition :=
  ⟨⟨"F", .function, .numeric, [.value, parameter]⟩, "", [], .declared, .value⟩

/-- Takes a value and a whole number, or a value and a hierarchy. -/
def valuedTable : FunctionTable :=
  ⟨[.fixed ⟨"F", "", .function, [(valued .integer).signature, (valued .hierarchy).signature], [],
    .declared, .value⟩]⟩

def one : Expr := .literal (.integer 1)

/-- A dimension that stands for no hierarchy. -/
def time : Expr := .dimension ⟨"Time", "[Time]", .time, []⟩

/-- The second argument is refused before the first one is converted. -/
theorem bindInPlace_rewrites_valued :
    ∃ args' e, (valuedTable.bindInPlace "F" .function).exec [one, one] =
        (.ok (valued .integer), args') ∧
      args'.map (·.type.category) = [.value, .integer] ∧ args'[1]? = some one ∧
      (∃ winner, valuedTable.select "F" .function [one, one] = .ok winner ∧
        (winner.conversions.map (·.cost)).sum = winner.cost) ∧
      (valuedTable.bindInPlace "F" .function).exec [one, time] = (.error e, [one, time]) := by
  have hok : ∃ args', (valuedTable.bindInPlace "F" .function).exec [one, one] =
      (.ok (valued .integer), args') := by
    rw [FunctionTable.exec_bindInPlace, FunctionTable.resolveCall_of_cheapest
      (d := valued .integer) (by decide +kernel)]
    exact ⟨_, rfl⟩
  have herror : ∃ e args', (valuedTable.bindInPlace "F" .function).exec [one, time] =
      (.error e, args') := by
    rw [FunctionTable.exec_bindInPlace, FunctionTable.resolveCall_of_cheapest
      (d := valued .hierarchy) (by decide +kernel)]
    exact ⟨_, _, rfl⟩
  obtain ⟨args', hok⟩ := hok
  obtain ⟨e, args'', herror⟩ := herror
  obtain ⟨hbound, -⟩ := FunctionTable.bindInPlace_rewrites valuedTable "F" .function [one, one]
  obtain ⟨-, hkept⟩ := FunctionTable.bindInPlace_rewrites valuedTable "F" .function [one, time]
  obtain ⟨-, -, -, hcategories, winner, hselect, -, hplaces, -, hsum, -⟩ := hbound _ _ hok
  obtain ⟨rfl, -⟩ := hkept _ _ herror
  refine ⟨args', e, hok, hcategories, ?_, ⟨winner, hselect, hsum⟩, herror⟩
  rcases hplaces 1 one .integer rfl rfl with ⟨-, -, hat⟩ | ⟨hcategory, -⟩
  · exact hat
  · exact absurd rfl hcategory

end Sample

end Olap
