import Olap.Proofs.Evaluation.Limits
import Olap.Proofs.Evaluation.Replacing
import Olap.Proofs.Revalidation

/-!
# References to parameters

Validation declares the parameters that an expression refers to, from left to right, and of several
declarations of a name the registry holds the first one. The references keep their own defaults all the
same: each of them yields the value that is given for the parameter, or else its own default, and it is
only the types that have to agree. So the references to a parameter for which no value is given yield
what the registry says just in case their defaults are equal to the registered one. Where that is so for
all references, an evaluation goes as if each of them were replaced by the one value of its parameter
(`Expr.references_agree`).
-/

set_option autoImplicit false

namespace Olap

/-! ## References and declarations -/

namespace Expr

mutual

/-- The references to parameters, from left to right. -/
def references : Expr → List Parameter
  | parameter p => [p]
  | call _ _ args => referencesIn args
  | bound _ _ args => referencesIn args
  | convert e _ _ => e.references
  | _ => []

def referencesIn : List Expr → List Parameter
  | [] => []
  | e :: es => e.references ++ referencesIn es

end

theorem referencesIn_converted {args args' : List Expr} (h : List.Forall₂ Converted args args') :
    referencesIn args' = referencesIn args := by
  induction h with
  | nil => rfl
  | cons hc _ ih =>
    rw [referencesIn, referencesIn, ih]
    cases hc with
    | same => rfl
    | convert c hc hs => rfl

end Expr

namespace ParameterRegistry

variable {registry registry' : ParameterRegistry} {p : Parameter} {ps : List Parameter}

/-- What is declared under a name is the first declaration of it. -/
theorem find?_define (h : registry.define p = .ok registry') (name : String) :
    registry'.find? name = List.find? (·.name == name) (registry ++ [p]) := by
  unfold define at h
  split at h
  · cases h
    rfl
  · rename_i q hq
    split at h
    · cases h
      rw [find?] at hq ⊢
      rw [List.find?_append]
      rcases hname : List.find? (·.name == name) registry with _ | q'
      · -- the name is another one, since that of `p` is known
        have hother : (p.name == name) = false := by
          rw [beq_eq_false_iff_ne]
          intro heq
          rw [heq, hname] at hq
          cases hq
        rw [hname, List.find?_cons, hother]
        rfl
      · rw [hname]
        rfl
    · cases h

theorem find?_foldlM_define (h : ps.foldlM define registry = .ok registry') (name : String) :
    registry'.find? name = List.find? (·.name == name) (registry ++ ps) := by
  induction ps generalizing registry with
  | nil =>
    cases h
    rw [List.append_nil]
    rfl
  | cons p ps ih =>
    rw [List.foldlM_cons] at h
    obtain ⟨between, hp, h⟩ := bind_eq_ok.1 h
    have hfirst := find?_define hp name
    rw [find?] at hfirst
    rw [ih h, List.find?_append, hfirst, ← List.find?_append, List.append_assoc]
    rfl

/-- All that have been declared are known, with their types. -/
theorem knows_of_foldlM_define (h : ps.foldlM define registry = .ok registry') :
    registry <+: registry' ∧ ∀ p ∈ ps, registry'.Knows p := by
  induction ps generalizing registry with
  | nil =>
    cases h
    exact ⟨List.prefix_refl _, List.forall_mem_nil _⟩
  | cons p ps ih =>
    rw [List.foldlM_cons] at h
    obtain ⟨between, hp, h⟩ := bind_eq_ok.1 h
    obtain ⟨hgrows, hknown⟩ := define_eq_ok hp
    obtain ⟨hgrows', hrest⟩ := ih h
    exact ⟨hgrows.trans hgrows', List.forall_mem_cons.2 ⟨hknown.mono hgrows', hrest⟩⟩

/-- The value of a parameter: the given one, or else the default that is registered. -/
def valueOf (registry : ParameterRegistry) (given : List (String × Value)) (name : String) : Value :=
  (given.lookup name).getD ((registry.find? name).elim .null (·.default.value))

end ParameterRegistry

namespace Expr

open ValidateM

variable {t : FunctionTable} {registry registry' : ParameterRegistry}

mutual

/-- Validation keeps the references of an expression, and declares them one after the other. -/
theorem validate_declares : ∀ {e r : Expr} {registry registry' : ParameterRegistry},
    (e.validate t).run registry = (.ok r, registry') →
      r.references = e.references ∧
        e.references.foldlM ParameterRegistry.define registry = .ok registry'
  | call name form args, r, registry, registry', h => by
    obtain ⟨args', between, hargs, h⟩ := run_bind_ok.1 h
    obtain ⟨hbind, rfl⟩ := run_lift_ok.1 h
    obtain ⟨hrefs, hdeclares⟩ := validateAll_declares hargs
    obtain ⟨d, args'', hres, -, rfl⟩ := FunctionTable.bind_eq_ok_iff.1 hbind
    obtain ⟨-, -, hconverted⟩ := FunctionTable.resolveCall_sound hres
    exact ⟨(referencesIn_converted hconverted).trans hrefs, hdeclares⟩
  | parameter p, r, registry, registry', h => by
    obtain ⟨⟨⟩, between, hdefine, h⟩ := run_bind_ok.1 h
    obtain ⟨rfl, rfl⟩ := run_pure_ok.1 h
    refine ⟨rfl, ?_⟩
    rw [references, List.foldlM_cons, run_define_ok.1 hdefine]
    rfl
  | bound d type args, r, registry, registry', h => by
    obtain ⟨args', between, hargs, h⟩ := run_bind_ok.1 h
    obtain ⟨rfl, rfl⟩ := run_pure_ok.1 h
    exact validateAll_declares hargs
  | convert e target kind, r, registry, registry', h => by
    obtain ⟨e', between, he, h⟩ := run_bind_ok.1 h
    obtain ⟨rfl, rfl⟩ := run_pure_ok.1 h
    exact @validate_declares e e' registry between he
  | literal _, _, _, _, h | member _, _, _, _, h | level _, _, _, _, h | hierarchy _, _, _, _, h
  | dimension _, _, _, _, h => by
    obtain ⟨rfl, rfl⟩ := run_pure_ok.1 h
    exact ⟨rfl, rfl⟩

theorem validateAll_declares :
    ∀ {es rs : List Expr} {registry registry' : ParameterRegistry},
      (validateAll t es).run registry = (.ok rs, registry') →
        referencesIn rs = referencesIn es ∧
          (referencesIn es).foldlM ParameterRegistry.define registry = .ok registry'
  | [], rs, registry, registry', h => by
    obtain ⟨rfl, rfl⟩ := run_pure_ok.1 h
    exact ⟨rfl, rfl⟩
  | e :: es, rs, registry, registry', h => by
    obtain ⟨e', between, he, h⟩ := run_bind_ok.1 h
    obtain ⟨es', between', hes, h⟩ := run_bind_ok.1 h
    obtain ⟨rfl, rfl⟩ := run_pure_ok.1 h
    obtain ⟨hrefs, hdeclares⟩ := validate_declares he
    obtain ⟨hrefs', hdeclares'⟩ := validateAll_declares hes
    refine ⟨by rw [referencesIn, referencesIn, hrefs, hrefs'], ?_⟩
    rw [referencesIn, List.foldlM_append, hdeclares]
    exact hdeclares'

end

/-! ## Compiled references -/

/-- A parameter with a default stands for one of the references. -/
def referring (ps : List Parameter) : Demand :=
  ⟨fun _ => True, fun name v => ∃ p ∈ ps, p.name = name ∧ p.default.value = v, trivial⟩

mutual

theorem holds_referring {ps : List Parameter} : ∀ e : Expr, e.references ⊆ ps → e.Holds (referring ps)
  | literal _, _ | member _, _ | level _, _ | hierarchy _, _ | dimension _, _ => trivial
  | parameter p, h => ⟨p, h List.mem_cons_self, rfl, rfl⟩
  | call _ _ args, h => allHold_referring args h
  | bound _ _ args, h => allHold_referring args h
  | convert e _ _, h => holds_referring e h

theorem allHold_referring {ps : List Parameter} :
    ∀ es : List Expr, referencesIn es ⊆ ps → AllHold (referring ps) es
  | [], _ => trivial
  | e :: es, h =>
    have ⟨he, hes⟩ := List.append_subset.1 h
    ⟨holds_referring e he, allHold_referring es hes⟩

end

/-- Every parameter in a tree comes from a reference in the expression. -/
theorem CompilesTo.references {cube : Cube} {e : Expr} {c : Calc} (hc : e.CompilesTo cube c) :
    c.Every fun d => ∀ name v, d.operation = .parameter name v →
      ∃ p ∈ e.references, p.name = name ∧ p.default.value = v := by
  refine (hc.compiled (holds_referring e (List.Subset.refl _))).mono fun d hd name v hop => ?_
  have hholds := hd.holds
  rw [hop] at hholds
  exact hholds

end Expr

/-! ## Trees without references -/

/-- The operation with a fixed value in place of a parameter. -/
def Operation.settled (value : String → Value) : Operation → Operation
  | parameter name _ => constant (value name)
  | op => op

namespace Calc

mutual

/-- The tree with a fixed value in place of each parameter, one for each name. -/
def settled (value : String → Value) : Calc → Calc
  | node info op cs => node info (op.settled value) (settledAll value cs)

def settledAll (value : String → Value) : List Calc → List Calc
  | [] => []
  | c :: cs => c.settled value :: settledAll value cs

end

variable {env : Environment} {value : String → Value}

theorem run_settled (op : Operation) (a : Address)
    (hop : ∀ name v, op = .parameter name v → (env.parameters.lookup name).getD v = value name)
    {xs ys : List (EvalM Value)} (hxs : List.Forall₂ (EvalM.Same env) xs ys)
    (hkeeps : ∀ x ∈ xs, EvalM.Keeps env .everything x (Value.Within .everything)) :
    EvalM.Same env (op.run a xs) ((op.settled value).run a ys) := by
  cases op with
  | parameter name v =>
    intro s
    show (Except.ok ((env.parameters.lookup name).getD v), s) = (.ok (value name), s)
    rw [hop name v rfl]
  | _ => exact Operation.run_same _ a hxs hkeeps

theorem forall₂_settledAll {a : Address} {cs : List Calc} (k : Nat)
    (h : ∀ c ∈ cs, ∀ b, EvalM.Same env (c.evaluate b) ((c.settled value).evaluate b)) :
    List.Forall₂ (EvalM.Same env) (evaluations a k cs) (evaluations a k (settledAll value cs)) := by
  induction cs generalizing k with
  | nil => exact .nil
  | cons c cs ih =>
    obtain ⟨hc, hcs⟩ := List.forall_mem_cons.1 h
    exact .cons (hc _) (ih (k + 1) hcs)

/-- A tree whose parameters all have the given values does what the tree with these values in their
place does. -/
theorem evaluate_settled {c : Calc}
    (hc : c.Every fun d => ∀ name v, d.operation = .parameter name v →
      (env.parameters.lookup name).getD v = value name) (a : Address) :
    EvalM.Same env (c.evaluate a) ((c.settled value).evaluate a) := by
  induction hc generalizing a with
  | @node info op cs hop _ ih =>
    rw [settled, evaluate, evaluate]
    refine EvalM.Same.calculation a (run_settled op a hop (forall₂_settledAll 0 ih) ?_)
    intro x hx
    obtain ⟨j, c, -, rfl⟩ := mem_evaluations hx
    exact c.evaluate_keeps_everything _ env

theorem exec_parameter {info : CalcInfo} {name : String} {v : Value} {cs : List Calc} (a : Address)
    {s : EvalState} (h : s.depth < env.config.maxEvalDepth) :
    (((node info (.parameter name v) cs).evaluate a).exec env s).1 =
      .ok ((env.parameters.lookup name).getD v) := by
  rw [evaluate, EvalM.exec_calculation a _ h]
  rfl

end Calc

namespace Expr

variable {t : FunctionTable} {declared : List Parameter} {registry registry' : ParameterRegistry}
  {e bound : Expr}

/-- After declarations and validation the registry holds the first declaration of each name, by the
caller or by a reference. -/
theorem find?_of_validate (hdeclared : declared.foldlM ParameterRegistry.define [] = .ok registry)
    (hbound : (e.validate t).run registry = (.ok bound, registry')) {p : Parameter}
    (hp : p ∈ e.references) : ∃ q, registry'.find? p.name = some q ∧
      (declared ++ e.references).find? (·.name == p.name) = some q ∧ q.type = p.type := by
  obtain ⟨-, hrefs⟩ := validate_declares hbound
  have hall : (declared ++ e.references).foldlM ParameterRegistry.define [] = .ok registry' := by
    rw [List.foldlM_append, hdeclared]
    exact hrefs
  obtain ⟨-, hknown⟩ := ParameterRegistry.knows_of_foldlM_define hall
  obtain ⟨q, hq, htype⟩ := hknown p (List.mem_append_right declared hp)
  have hfirst := ParameterRegistry.find?_foldlM_define hall p.name
  rw [hq, List.nil_append] at hfirst
  exact ⟨q, hq, hfirst.symm, htype⟩

/-- The registry holds one declaration for each parameter that an expression refers to, the first one,
which has the type of all references. Each reference yields the value that is given for the parameter, or
else its own default; this is what the registry says just in case there is a given value or the defaults
are equal. If that is so for all references, the expression evaluates as if each reference were replaced
by the one value of its parameter. -/
theorem references_agree (hdeclared : declared.foldlM ParameterRegistry.define [] = .ok registry)
    (hbound : (e.validate t).run registry = (.ok bound, registry')) {env : Environment} {c : Calc}
    (hc : bound.CompilesTo env.cube c) :
    (∀ p ∈ e.references, ∃ q, registry'.find? p.name = some q ∧
      (declared ++ e.references).find? (·.name == p.name) = some q ∧ q.type = p.type) ∧
    (∀ (start a : Address) (level : Nat) (info : CalcInfo) (name : String) (v : Value)
        (cs : List Calc), Calc.At c start a level (.node info (.parameter name v) cs) →
      ∃ p ∈ e.references, p.name = name ∧ ∃ q, registry'.find? name = some q ∧
        ∀ s : EvalState, s.depth < env.config.maxEvalDepth →
          let result := (((Calc.node info (.parameter name v) cs).evaluate a).exec env s).1
          result = .ok ((env.parameters.lookup name).getD p.default.value) ∧
            (result = .ok (registry'.valueOf env.parameters name) ↔
              (env.parameters.lookup name).isSome = true ∨ p.default.value = q.default.value)) ∧
    ((∀ p ∈ e.references, (env.parameters.lookup p.name).isSome = true ∨
        ∀ q, registry'.find? p.name = some q → p.default.value = q.default.value) →
      ∀ (a : Address) (s : EvalState), (c.evaluate a).exec env s =
        ((c.settled (registry'.valueOf env.parameters)).evaluate a).exec env s) := by
  have hfind : ∀ p ∈ e.references, ∃ q, registry'.find? p.name = some q ∧
      (declared ++ e.references).find? (·.name == p.name) = some q ∧ q.type = p.type :=
    fun p hp => find?_of_validate hdeclared hbound hp
  have hnodes := hc.references
  rw [(validate_declares hbound).1] at hnodes
  refine ⟨hfind, fun start a level info name v cs hat => ?_, fun hagree a s => ?_⟩
  · obtain ⟨p, hp, rfl, rfl⟩ := (hat.every hnodes).self _ _ rfl
    obtain ⟨q, hq, -, -⟩ := hfind p hp
    refine ⟨p, hp, rfl, q, hq, fun s hdepth => ?_⟩
    intro result
    have hresult : result = .ok ((env.parameters.lookup p.name).getD p.default.value) :=
      Calc.exec_parameter a hdepth
    refine ⟨hresult, ?_⟩
    rw [hresult, Except.ok.injEq, ParameterRegistry.valueOf, hq]
    cases env.parameters.lookup p.name <;> simp
  · refine Calc.evaluate_settled (hnodes.mono fun d hd name v hop => ?_) a s
    obtain ⟨p, hp, rfl, rfl⟩ := hd name v hop
    obtain ⟨q, hq, -, -⟩ := hfind p hp
    rw [ParameterRegistry.valueOf, hq]
    rcases hagree p hp with hgiven | hdefault
    · obtain ⟨w, hw⟩ := Option.isSome_iff_exists.1 hgiven
      rw [hw]
      rfl
    · rw [hdefault q hq]
      rfl

end Expr

/-! ## Two references to one parameter -/

namespace Sample

def count (default : Int64) : Parameter := ⟨"n", .integer, .integer default⟩

/-- The sum of two references to a parameter, of which the second one has the given default. -/
def countTwice (default : Int64) : Expr :=
  .call "+" .infixOp [.parameter (count 1), .parameter (count default)]

/-- The whole number that a tree gives where the given values are supplied. -/
def supplied (c : Calc) (given : List (String × Value)) : Option (Option Int64) :=
  ((((c.evaluate [0]).exec { environment with parameters := given }
    (EvalState.start cube (.memory []) {})).1).bind Value.toInteger).toOption

theorem countTwice_checks :
    (((countTwice 2).validate .builtin).run [count 1]).1.toOption.map (fun bound =>
      (bound.compile cube Expr.anyStyles).toOption.map fun c =>
        (supplied c [], supplied c [("n", .int 5)])) =
      some (some (some (some 3), some (some 10))) := by
  decide +kernel

/-- The parameter is declared with the default 1, and the second reference has the default 2. The sum is
3 all the same, and not twice what is declared; with a value that is supplied the references agree. -/
theorem references_agree_countTwice :
    [count 1].foldlM ParameterRegistry.define [] = .ok [count 1] ∧ ∃ bound registry c,
      ((countTwice 2).validate .builtin).run [count 1] = (.ok bound, registry) ∧
      bound.CompilesTo environment.cube c ∧
      registry.find? "n" = some (count 1) ∧ supplied c [] = some (some 3) ∧
      supplied c [("n", .int 5)] = some (some 10) ∧
      ∀ (a : Address) (s : EvalState),
        (c.evaluate a).exec { environment with parameters := [("n", .int 5)] } s =
          ((c.settled (registry.valueOf [("n", .int 5)])).evaluate a).exec
            { environment with parameters := [("n", .int 5)] } s := by
  obtain ⟨bound, hbound, hcompiles⟩ := exists_ok_of_map countTwice_checks
  obtain ⟨c, hc, hvalues⟩ := exists_ok_of_map hcompiles
  obtain ⟨hfree, hgiven⟩ := Prod.mk.inj hvalues
  rcases hrun : ((countTwice 2).validate .builtin).run [count 1] with ⟨x, registry⟩
  rw [hrun] at hbound
  obtain rfl : x = .ok bound := hbound
  have hdeclared : [count 1].foldlM ParameterRegistry.define [] = .ok [count 1] := rfl
  let given : Environment := { environment with parameters := [("n", .int 5)] }
  have hc' : bound.CompilesTo given.cube c := .any hc
  obtain ⟨hfind, -, hagree⟩ := Expr.references_agree hdeclared hrun hc'
  obtain ⟨q, hq, hfirst, -⟩ := hfind (count 1) List.mem_cons_self
  obtain rfl : count 1 = q := Option.some.inj hfirst
  refine ⟨hdeclared, bound, registry, c, rfl, .any hc, hq, hfree, hgiven, hagree ?_⟩
  intro p hp
  left
  rcases List.mem_cons.1 hp with rfl | hp
  · rfl
  · rw [List.mem_singleton.1 hp]
    rfl

end Sample

end Olap
