import Olap.Proofs.Binding
import Olap.Proofs.Catalog.Regular

/-!
# Validating twice

Validation binds calls and converts arguments, and does nothing else to an expression: its calls stay
where they are, under the same names and with the same arguments (`Expr.bare`). What it gives is settled
(`Expr.Settled`): no call is left to bind, and the registry knows every parameter. Validating a settled
expression gives the same expression and leaves the registry as it was (`Expr.validate_idempotent`).

That calls keep their names rests on the resolvers: the overloads of a function bear its name and have
its form (`FunctionTable.Uniform`), as they do when they are read from letters
(`Overloads.uniform_ofLetters`).
-/

set_option autoImplicit false

namespace Olap

/-! ## Names of overloads -/

/-- All overloads bear the name of the function and have its form. -/
def Overloads.Uniform (o : Overloads) : Prop := ∀ s ∈ o.signatures, s.name = o.name ∧ s.form = o.form

def Resolver.Uniform : Resolver → Prop
  | fixed o => o.Uniform
  | variadic _ => True

instance : (r : Resolver) → Decidable r.Uniform
  | .fixed o => inferInstanceAs (Decidable (∀ s ∈ o.signatures, _))
  | .variadic _ => .isTrue trivial

/-- The overloads of every function bear its name and have its form. -/
def FunctionTable.Uniform (t : FunctionTable) : Prop := ∀ r ∈ t.resolvers, r.Uniform

theorem Signature.name_of_read {name letters : String} {s : Signature}
    (h : read name letters = .ok s) : s.name = name := by
  unfold read at h
  split at h
  · cases h
  split at h
  · split at h
    · split at h
      · dsimp only at h
        split at h
        · split at h
          · cases h
          · cases h
            rfl
        · cases h
          rfl
      · cases h
    · cases h
  · cases h

theorem Overloads.uniform_ofLetters {name description : String} {letters reserved : List String}
    {body : FunctionBody} {o : Overloads}
    (h : ofLetters name description letters reserved body = .ok o) : o.Uniform := by
  have hread : ∀ l ∈ letters, Produces (fun s : Signature => s.name = name)
      (Signature.ofLetters name l) := by
    intro l _ s hs
    unfold Signature.ofLetters at hs
    split at hs
    · rename_i hread
      cases hs
      exact Signature.name_of_read hread
    · cases hs
  obtain ⟨signatures, hsignatures, h⟩ := bind_eq_ok.1 h
  have hnames := Produces.mapM hread signatures hsignatures
  rcases signatures with _ | ⟨s, rest⟩
  · cases h
  dsimp only at h
  split at h
  · cases h
  · rename_i hodd
    cases h
    intro s' hs'
    refine ⟨hnames s' hs', ?_⟩
    have hnone := Option.eq_none_iff_forall_ne_some.2 hodd
    simpa using List.find?_eq_none.1 hnone s' hs'

theorem FunctionTable.uniform_builtin : FunctionTable.builtin.Uniform :=
  have h : ∀ r ∈ FunctionTable.builtin.resolvers, r.Uniform := by decide
  h

theorem FunctionTable.Uniform.register {t : FunctionTable} (ht : t.Uniform) {r : Resolver}
    (hr : r.Uniform) : (t.register r).Uniform := by
  intro r' hr'
  rcases List.mem_append.1 hr' with hr' | hr'
  · exact ht r' hr'
  · obtain rfl := List.mem_singleton.1 hr'
    exact hr

theorem Resolver.Uniform.overloads {r : Resolver} (hr : r.Uniform) {args : List Expr}
    {d : Definition} (hd : d ∈ r.overloads args) : d.name = r.name ∧ d.form = r.form := by
  cases r with
  | fixed o =>
    obtain ⟨s, hs, rfl⟩ := List.mem_map.1 hd
    exact hr s hs
  | variadic v =>
    obtain ⟨ps, -, rfl⟩ := Option.map_eq_some_iff.1 (Option.mem_toList.1 hd)
    exact ⟨rfl, rfl⟩

/-- A call is bound to an overload of its name and form; the case of ASCII letters does not matter. -/
theorem FunctionTable.Uniform.key_eq {t : FunctionTable} (ht : t.Uniform) {name : String}
    {form : CallForm} {args args' : List Expr} {d : Definition}
    (h : t.resolveCall name form args = .ok (d, args')) :
    d.name.toUpper = name.toUpper ∧ d.form = form := by
  obtain ⟨r, hr, hd, -⟩ := resolveCall_mem h
  obtain ⟨hname, hform⟩ := (ht r (mem_resolvers_of_mem_lookup hr)).overloads hd
  have hkey : key r.name r.form = key name form := eq_of_beq (List.mem_filter.1 hr).2
  rw [hname, hform]
  exact Prod.mk.inj hkey

/-! ## Parameters -/

namespace ParameterRegistry

variable {registry registry' : ParameterRegistry} {p : Parameter}

/-- The parameter is declared, with its type. -/
def Knows (registry : ParameterRegistry) (p : Parameter) : Prop :=
  ∃ q, registry.find? p.name = some q ∧ q.type = p.type

theorem Knows.mono (h : registry.Knows p) (hgrows : registry <+: registry') : registry'.Knows p := by
  obtain ⟨q, hq, htype⟩ := h
  obtain ⟨later, rfl⟩ := hgrows
  refine ⟨q, ?_, htype⟩
  rw [find?] at hq ⊢
  rw [List.find?_append, hq]
  rfl

theorem Knows.define (h : registry.Knows p) : registry.define p = .ok registry := by
  obtain ⟨q, hq, htype⟩ := h
  rw [ParameterRegistry.define, hq]
  exact if_pos htype

theorem define_eq_ok (h : registry.define p = .ok registry') :
    registry <+: registry' ∧ registry'.Knows p := by
  unfold define at h
  split at h
  · rename_i hnew
    cases h
    refine ⟨List.prefix_append _ _, p, ?_, rfl⟩
    rw [find?] at hnew ⊢
    refine (List.find?_append ..).trans ?_
    rw [hnew]
    simp
  · rename_i q hq
    split at h
    · rename_i htype
      cases h
      exact ⟨List.prefix_refl _, q, hq, htype⟩
    · cases h

end ParameterRegistry

/-! ## Runs that succeed -/

namespace ValidateM

variable {α β : Type} {registry registry' : ParameterRegistry}

theorem run_bind_ok {x : ValidateM α} {f : α → ValidateM β} {b : β} :
    (x >>= f).run registry = (.ok b, registry') ↔ ∃ a between,
      x.run registry = (.ok a, between) ∧ (f a).run between = (.ok b, registry') := by
  simp only [Bind.bind, ExceptT.bind, ExceptT.mk, ExceptT.run, StateT.bind]
  rcases x registry with ⟨_ | a, between⟩
  · constructor
    · intro h
      cases h
    · rintro ⟨_, _, h, -⟩
      cases h
  · constructor
    · exact fun h => ⟨a, between, rfl, h⟩
    · rintro ⟨_, _, h, h'⟩
      cases h
      exact h'

theorem run_pure_ok {a b : α} :
    (pure a : ValidateM α).run registry = (.ok b, registry') ↔ a = b ∧ registry = registry' := by
  constructor
  · intro h
    cases h
    exact ⟨rfl, rfl⟩
  · rintro ⟨rfl, rfl⟩
    rfl

theorem run_lift_ok {r : Except ResolutionError α} {a : α} :
    (ValidateM.lift r).run registry = (.ok a, registry') ↔ r = .ok a ∧ registry = registry' := by
  cases r with
  | ok b => rw [ValidateM.lift, run_pure_ok, Except.ok.injEq]
  | error e =>
    constructor
    · intro h
      cases h
    · rintro ⟨h, -⟩
      cases h

theorem run_define_ok {p : Parameter} :
    (ValidateM.define p).run registry = (.ok (), registry') ↔ registry.define p = .ok registry' := by
  rw [ValidateM.define, run_bind_ok]
  constructor
  · rintro ⟨current, between, hget, h⟩
    obtain ⟨defined, between', hlift, hset⟩ := run_bind_ok.1 h
    cases hget
    obtain ⟨hdefine, rfl⟩ := run_lift_ok.1 hlift
    cases hset
    exact hdefine
  · intro h
    refine ⟨registry, registry, rfl, run_bind_ok.2 ⟨registry', registry, ?_, rfl⟩⟩
    exact run_lift_ok.2 ⟨h, rfl⟩

end ValidateM

/-! ## Settled expressions -/

namespace Expr

open ValidateM

variable {t : FunctionTable} {registry registry' : ParameterRegistry}

mutual

/-- The expression as a tree of calls by name, in capital letters, without conversions. -/
def bare : Expr → Expr
  | call name form args => call name.toUpper form (bareAll args)
  | bound d _ args => call d.name.toUpper d.form (bareAll args)
  | convert e _ _ => e.bare
  | e => e

def bareAll : List Expr → List Expr
  | [] => []
  | e :: es => e.bare :: bareAll es

end

mutual

/-- Every call is bound, and every parameter is declared. -/
def Settled (registry : ParameterRegistry) : Expr → Prop
  | call .. => False
  | parameter p => registry.Knows p
  | bound _ _ args => AllSettled registry args
  | convert e _ _ => e.Settled registry
  | _ => True

def AllSettled (registry : ParameterRegistry) : List Expr → Prop
  | [] => True
  | e :: es => e.Settled registry ∧ AllSettled registry es

end

mutual

theorem Settled.isResolved : ∀ {e : Expr}, e.Settled registry → e.isResolved = true
  | call .., h => h.elim
  | bound _ _ args, h => @AllSettled.allResolved args h
  | convert e _ _, h => @Settled.isResolved e h
  | parameter _, _ | literal _, _ | member _, _ | level _, _ | hierarchy _, _ | dimension _, _ => rfl

theorem AllSettled.allResolved : ∀ {es : List Expr}, AllSettled registry es → allResolved es = true
  | [], _ => rfl
  | _ :: _, h => Bool.and_eq_true_iff.2 ⟨h.1.isResolved, AllSettled.allResolved h.2⟩

end

mutual

/-- What is settled stays settled when more parameters are declared. -/
theorem Settled.mono (hgrows : registry <+: registry') :
    ∀ {e : Expr}, e.Settled registry → e.Settled registry'
  | call .., h => h
  | parameter _, h => ParameterRegistry.Knows.mono h hgrows
  | bound _ _ args, h => @AllSettled.mono hgrows args h
  | convert e _ _, h => @Settled.mono hgrows e h
  | literal _, h | member _, h | level _, h | hierarchy _, h | dimension _, h => h

theorem AllSettled.mono (hgrows : registry <+: registry') :
    ∀ {es : List Expr}, AllSettled registry es → AllSettled registry' es
  | [], h => h
  | _ :: _, h => ⟨h.1.mono hgrows, AllSettled.mono hgrows h.2⟩

end

mutual

/-- Validation has nothing to do on a settled expression. -/
theorem Settled.validate : ∀ {e : Expr}, e.Settled registry →
    (e.validate t).run registry = (.ok e, registry)
  | call .., h => h.elim
  | parameter _, h => run_bind_ok.2 ⟨(), registry, run_define_ok.2 h.define, rfl⟩
  | bound _ _ args, h => run_bind_ok.2 ⟨args, registry, AllSettled.validateAll h, rfl⟩
  | convert e _ _, h => run_bind_ok.2 ⟨e, registry, @Settled.validate e h, rfl⟩
  | literal _, _ | member _, _ | level _, _ | hierarchy _, _ | dimension _, _ => rfl

theorem AllSettled.validateAll : ∀ {es : List Expr}, AllSettled registry es →
    (validateAll t es).run registry = (.ok es, registry)
  | [], _ => rfl
  | e :: es, h => run_bind_ok.2 ⟨e, registry, h.1.validate,
      run_bind_ok.2 ⟨es, registry, AllSettled.validateAll h.2, rfl⟩⟩

end

/-! ## What validation does to an expression -/

theorem bareAll_converted {args args' : List Expr} (h : List.Forall₂ Converted args args') :
    bareAll args' = bareAll args := by
  induction h with
  | nil => rfl
  | cons hc _ ih =>
    rw [bareAll, bareAll, ih]
    cases hc with
    | same => rfl
    | convert c hc hs => rfl

theorem settled_converted {args args' : List Expr} (h : List.Forall₂ Converted args args')
    (hs : AllSettled registry args) : AllSettled registry args' := by
  induction h with
  | nil => trivial
  | cons hc _ ih =>
    refine ⟨?_, ih hs.2⟩
    cases hc with
    | same => exact hs.1
    | convert c hc hsource => exact hs.1

/-- Binding keeps a call, and binds nothing below it. -/
theorem bind_bare (ht : t.Uniform) {name : String} {form : CallForm} {args : List Expr} {r : Expr}
    (h : t.bind name form args = .ok r) :
    r.bare = call name.toUpper form (bareAll args) ∧
      (AllSettled registry args → r.Settled registry) := by
  obtain ⟨d, args', hres, -, rfl⟩ := FunctionTable.bind_eq_ok_iff.1 h
  obtain ⟨-, -, hconverted⟩ := FunctionTable.resolveCall_sound hres
  obtain ⟨hname, hform⟩ := ht.key_eq hres
  refine ⟨?_, settled_converted hconverted⟩
  rw [bare, hname, hform, bareAll_converted hconverted]

mutual

/-- Validation keeps the calls of an expression and settles it; the registry only grows. -/
theorem validate_settles (ht : t.Uniform) : ∀ {e r : Expr} {registry registry' : ParameterRegistry},
    (e.validate t).run registry = (.ok r, registry') →
      registry <+: registry' ∧ r.bare = e.bare ∧ r.Settled registry'
  | call name form args, r, registry, registry', h => by
    obtain ⟨args', between, hargs, h⟩ := run_bind_ok.1 h
    obtain ⟨hbind, rfl⟩ := run_lift_ok.1 h
    obtain ⟨hgrows, hbare, hsettled⟩ := validateAll_settles ht hargs
    obtain ⟨hcall, hkeep⟩ := bind_bare ht hbind
    exact ⟨hgrows, by rw [hcall, hbare, bare], hkeep hsettled⟩
  | parameter p, r, registry, registry', h => by
    obtain ⟨⟨⟩, between, hdefine, h⟩ := run_bind_ok.1 h
    obtain ⟨rfl, rfl⟩ := run_pure_ok.1 h
    obtain ⟨hgrows, hknows⟩ := ParameterRegistry.define_eq_ok (run_define_ok.1 hdefine)
    exact ⟨hgrows, rfl, hknows⟩
  | bound d type args, r, registry, registry', h => by
    obtain ⟨args', between, hargs, h⟩ := run_bind_ok.1 h
    obtain ⟨rfl, rfl⟩ := run_pure_ok.1 h
    obtain ⟨hgrows, hbare, hsettled⟩ := validateAll_settles ht hargs
    exact ⟨hgrows, by rw [bare, bare, hbare], hsettled⟩
  | convert e target kind, r, registry, registry', h => by
    obtain ⟨e', between, he, h⟩ := run_bind_ok.1 h
    obtain ⟨rfl, rfl⟩ := run_pure_ok.1 h
    obtain ⟨hgrows, hbare, hsettled⟩ := validate_settles ht he
    exact ⟨hgrows, by rw [bare, bare, hbare], hsettled⟩
  | literal _, _, _, _, h | member _, _, _, _, h | level _, _, _, _, h | hierarchy _, _, _, _, h
  | dimension _, _, _, _, h => by
    obtain ⟨rfl, rfl⟩ := run_pure_ok.1 h
    exact ⟨List.prefix_refl _, rfl, trivial⟩

theorem validateAll_settles (ht : t.Uniform) :
    ∀ {es rs : List Expr} {registry registry' : ParameterRegistry},
      (validateAll t es).run registry = (.ok rs, registry') →
        registry <+: registry' ∧ bareAll rs = bareAll es ∧ AllSettled registry' rs
  | [], rs, registry, registry', h => by
    obtain ⟨rfl, rfl⟩ := run_pure_ok.1 h
    exact ⟨List.prefix_refl _, rfl, trivial⟩
  | e :: es, rs, registry, registry', h => by
    obtain ⟨e', between, he, h⟩ := run_bind_ok.1 h
    obtain ⟨es', between', hes, h⟩ := run_bind_ok.1 h
    obtain ⟨rfl, rfl⟩ := run_pure_ok.1 h
    obtain ⟨hgrows, hbare, hsettled⟩ := validate_settles ht he
    obtain ⟨hgrows', hbare', hsettled'⟩ := validateAll_settles ht hes
    exact ⟨hgrows.trans hgrows', by rw [bareAll, bareAll, hbare, hbare'],
      hsettled.mono hgrows', hsettled'⟩

end

/-- Validation binds every call and keeps the expression otherwise; validating what it gives once more
changes nothing. -/
theorem validate_idempotent (ht : t.Uniform) {e r : Expr}
    (h : (e.validate t).run registry = (.ok r, registry')) :
    r.isResolved = true ∧ r.bare = e.bare ∧ (r.validate t).run registry' = (.ok r, registry') := by
  obtain ⟨-, hbare, hsettled⟩ := validate_settles ht h
  exact ⟨hsettled.isResolved, hbare, hsettled.validate⟩

end Expr

namespace Sample

/-- The first elements of the amount, as many as a parameter says. The name is in small letters, and the
member has to be taken as a set. -/
def someMeasures : Expr :=
  .call "head" .function [.member amount, .parameter ⟨"n", .integer, .integer 1⟩]

theorem someMeasures_checks : ((someMeasures.validate .builtin).run []).1.toOption.isSome = true := by
  decide +kernel

theorem validate_idempotent_some : FunctionTable.builtin.Uniform ∧ ∃ r registry,
    (someMeasures.validate .builtin).run [] = (.ok r, registry) ∧
      r.bare = .call "HEAD" .function someMeasures.args ∧
      (r.validate .builtin).run registry = (.ok r, registry) := by
  obtain ⟨r, hr⟩ := exists_ok_of_isSome someMeasures_checks
  rcases hrun : (someMeasures.validate .builtin).run [] with ⟨x, registry⟩
  rw [hrun] at hr
  obtain rfl : x = .ok r := hr
  have hname : "head".toUpper = "HEAD" := by decide +kernel
  have hbare : someMeasures.bare = .call "HEAD" .function someMeasures.args :=
    congrArg (fun name => Expr.call name .function someMeasures.args) hname
  obtain ⟨-, hcalls, hagain⟩ := Expr.validate_idempotent FunctionTable.uniform_builtin hrun
  exact ⟨FunctionTable.uniform_builtin, r, registry, rfl, hcalls.trans hbare, hagain⟩

end Sample

end Olap
