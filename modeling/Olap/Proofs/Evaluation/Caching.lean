import Olap.Proofs.Evaluation.Nesting
import Olap.Proofs.Evaluation.Session

/-!
# Kept results

A calculation whose results are kept is transparent (`Calc.Transparent`) if it gives in every state of
every session what the calculation itself gives there, one level deeper. It is so if and only if its
key determines its results; otherwise a session gets to see a result that does not belong to its
context any more (`Scene.determines_of_transparent`). Dependency analysis sees to it that keys determine
results (`Scene.Apt.keyed`), except that under the flag a join reads cells of which the analysis does
not know (`Calc.Covered`). For calls of `Cache` all this is put together in `Calc.cached_transparent`.
-/

set_option autoImplicit false

namespace Olap

/-! ## Transparency -/

/-- In every session over the facts a calculation whose results are kept gives, under the flag, what
the calculation itself gives in the same state one level deeper. -/
def Calc.Transparent (inner : Calc) (env : Environment) (facts : List Fact) (nonEmpty : Bool)
    (a : Address) : Prop :=
  ∀ (execution : Execution) (counts : CallCounts) (moves : List Move), execution.stopped? = none →
    (∀ move ∈ moves, move.Within (Domain.ofCube env.cube)) → ∀ s : EvalState,
      s = (EvalState.start env.cube (.memory facts) execution counts).after env
        (inner.cached env.cube) a moves →
      s.nonEmpty = nonEmpty →
        (((inner.cached env.cube).evaluate a).exec env s).1 =
          ((inner.evaluate (0 :: a)).exec env (EvalM.entered s)).1

/-- The ordinals of the hierarchies under whose current members results are kept. -/
def Calc.keyOrdinals (inner : Calc) (cube : Cube) : List Nat :=
  (inner.dependentHierarchies cube).map (·.ordinal)

theorem Calc.evaluate_cached_eq (inner : Calc) (cube : Cube) (a : Address) :
    (inner.cached cube).evaluate a =
      EvalM.calculation a (EvalM.cached a (inner.keyOrdinals cube) (inner.evaluate (0 :: a))) := rfl

theorem Calc.exec_cached_kept {inner : Calc} {env : Environment} {a : Address} {s : EvalState}
    {v : Value} (hlimit : s.depth < env.config.maxEvalDepth)
    (hhit : s.cache[EvalM.cacheKey a (inner.keyOrdinals env.cube) s]? = some v) :
    (((inner.cached env.cube).evaluate a).exec env s).1 = .ok v := by
  have hget : (EvalM.cached a (inner.keyOrdinals env.cube) (inner.evaluate (0 :: a))).exec env
      (EvalM.entered s) = (.ok v, EvalM.entered s) := EvalM.exec_cached_hit hhit
  rw [evaluate_cached_eq, EvalM.exec_calculation a _ hlimit, hget]

namespace Scene

def cached (env : Environment) (facts : List Fact) (nonEmpty : Bool) (inner : Calc) (a : Address) :
    Scene :=
  ⟨env, facts, nonEmpty, inner.cached env.cube, a, 0⟩

def uncached (env : Environment) (facts : List Fact) (nonEmpty : Bool) (inner : Calc) (a : Address) :
    Scene :=
  ⟨env, facts, nonEmpty, inner, 0 :: a, 1⟩

variable {env : Environment} {facts : List Fact} {nonEmpty : Bool} {inner : Calc} {a : Address}

theorem determined_cached (hinner : (uncached env facts nonEmpty inner a).Determined)
    (hkey : (cached env facts nonEmpty inner a).Determines (inner.keyOrdinals env.cube) inner a 0) :
    (cached env facts nonEmpty inner a).Determined := by
  intro b level info os c hat
  rcases hat.root_or_child with ⟨rfl, rfl, hroot⟩ | ⟨below, rfl, hchild⟩
  · cases hroot
    exact hkey
  · have hdetermines := hinner b below info os c hchild
    unfold Determines at hdetermines ⊢
    rwa [show (cached env facts nonEmpty inner a).depth + (below + 1) + 1 =
      (uncached env facts nonEmpty inner a).depth + below + 1 by simp [cached, uncached]; omega]

/-- In a steady state a calculation whose results are kept gives what the calculation itself gives one
level deeper. -/
theorem Steady.exec_cached (H : (cached env facts nonEmpty inner a).Keyed) {s : EvalState}
    (hs : (cached env facts nonEmpty inner a).Steady 0 s) (hb : s.nonEmpty = nonEmpty) :
    (((inner.cached env.cube).evaluate a).exec env s).1 =
      ((inner.evaluate (0 :: a)).exec env (EvalM.entered s)).1 := by
  have hinner : (cached env facts nonEmpty inner a).Sound 1 (fun _ => True) (inner.evaluate (0 :: a))
      (Value.Within (Domain.ofCube env.cube)) :=
    H.sound (H.formed.child inner List.mem_cons_self) (.child .root rfl)
  have hentered : (cached env facts nonEmpty inner a).Calm 1 (EvalM.entered s) :=
    (hs.calm hb).entered
  have hfresh := hinner.agrees _ _ hentered (calm_fresh hs.coordinate) (.refl _ _)
  have hat : (cached env facts nonEmpty inner a).root.At a a 0 (inner.cached env.cube) := .root
  have hcached := Scene.exec_cached hat hinner hentered
  rw [Calc.evaluate_cached_eq]
  rcases Nat.lt_or_ge s.depth env.config.maxEvalDepth with hd | hd
  · rw [EvalM.exec_calculation _ _ hd]
    exact hcached.trans hfresh.symm
  · have hdeeper : env.config.maxEvalDepth ≤ (EvalM.entered s).depth := Nat.le_succ_of_le hd
    rw [EvalM.exec_calculation_limited _ _ hd, inner.exec_evaluate_limited _ hdeeper]

theorem Keyed.transparent (H : (cached env facts nonEmpty inner a).Keyed) :
    inner.Transparent env facts nonEmpty a := by
  intro execution counts moves hrunning hmoves s hs hb
  have hsteady := ((cached env facts nonEmpty inner a).steady_start hrunning counts).after H hmoves
  rw [hs]
  exact Steady.exec_cached H hsteady (hs ▸ hb)

section
variable (H : (uncached env facts nonEmpty inner a).Keyed)
include H

/-- The calculation itself gives in a steady state what it gives from a fresh start in the same
context. -/
theorem Steady.exec_uncached {s : EvalState} (hs : (uncached env facts nonEmpty inner a).Steady 0 s)
    (hb : s.nonEmpty = nonEmpty) :
    ((inner.evaluate (0 :: a)).exec env (EvalM.entered s)).1 =
      ((inner.evaluate (0 :: a)).exec env
        ((uncached env facts nonEmpty inner a).fresh s.context 1)).1 := by
  have hentered : (uncached env facts nonEmpty inner a).Calm 1 (EvalM.entered s) :=
    (hs.calm hb).entered
  exact (H.sound H.formed .root).agrees _ _ hentered (calm_fresh hs.coordinate) (.refl _ _)

/-- A new result is kept, and nothing that is kept for the calculation itself changes its meaning. -/
theorem Steady.keep {s : EvalState} (hs : (uncached env facts nonEmpty inner a).Steady 0 s)
    (hb : s.nonEmpty = nonEmpty)
    (hnone : s.cache[EvalM.cacheKey a (inner.keyOrdinals env.cube) s]? = none) {v : Value}
    (hv : ((inner.evaluate (0 :: a)).exec env (EvalM.entered s)).1 = .ok v) :
    ∃ t, ((inner.cached env.cube).evaluate a).exec env s = (.ok v, t) ∧
      (uncached env facts nonEmpty inner a).Steady 0 t ∧ s.Frame t ∧
      t.cache[EvalM.cacheKey a (inner.keyOrdinals env.cube) s]? = some v := by
  have hlimit : s.depth < env.config.maxEvalDepth := by
    rcases Nat.lt_or_ge (s.depth + 1) env.config.maxEvalDepth with h | h
    · omega
    · rw [inner.exec_evaluate_limited _ h] at hv
      cases hv
  have hcalm : (uncached env facts nonEmpty inner a).Calm 1 (EvalM.entered s) :=
    (hs.calm hb).entered
  have hcoherent := ((H.sound H.formed .root).calm hcalm).coherent
  change (uncached env facts nonEmpty inner a).Coherent
    ((inner.evaluate (0 :: a)).exec env (EvalM.entered s)).2.cache at hcoherent
  rcases hexec : (inner.evaluate (0 :: a)).exec env (EvalM.entered s) with ⟨r, u⟩
  rw [hexec] at hv hcoherent
  cases hv
  let key := EvalM.cacheKey a (inner.keyOrdinals env.cube) s
  have hcached : ((inner.cached env.cube).evaluate a).exec env s =
      (.ok v, EvalM.left env a (EvalM.keeping u key v)) := by
    have hkeep : (EvalM.cached a (inner.keyOrdinals env.cube) (inner.evaluate (0 :: a))).exec env
        (EvalM.entered s) = (.ok v, EvalM.keeping u key v) := EvalM.exec_cached_ok hnone hexec
    rw [Calc.evaluate_cached_eq, EvalM.exec_calculation a _ hlimit, hkeep]
  have hwithin : (inner.cached env.cube).Within (Domain.ofCube env.cube) :=
    (Calc.formed_cached H.formed).mono fun _ h => h.within
  have hends : EvalState.Ends (Domain.ofCube env.cube) (Value.Within (Domain.ofCube env.cube)) s
      (((inner.cached env.cube).evaluate a).exec env s) :=
    Calc.evaluate_keeps H.regular.closed H.within hwithin a s hs.within
  rw [hcached] at hends
  have hframe : s.Frame (EvalM.left env a (EvalM.keeping u key v)) := hends.frame
  have hw : (EvalM.left env a (EvalM.keeping u key v)).Within (Domain.ofCube env.cube) :=
    hends.within
  refine ⟨_, hcached, hs.frame hframe hw ?_, hframe, ?_⟩
  · intro b level info os c hat name w hkept
    -- what is kept for the calculation itself is kept at its own address or below
    have hne : key ≠ (b, nonEmpty, name) := by
      intro heq
      have hlength : b.length = (0 :: a).length + level := hat.length
      have hab : a = b := congrArg Prod.fst heq
      rw [← hab, List.length_cons] at hlength
      omega
    have hbefore : (EvalM.keeping u key v).cache[((b, nonEmpty, name) : CacheKey)]? =
        u.cache[((b, nonEmpty, name) : CacheKey)]? := by
      rw [EvalM.getElem?_keeping, if_neg hne]
    exact hcoherent b level info os c hat name w (hbefore.symm.trans hkept)
  · show (EvalM.keeping u key v).cache[key]? = some v
    rw [EvalM.getElem?_keeping, if_pos rfl]

/-- Where keys do not determine results, a session gets to see a result that does not belong to its
context any more. -/
theorem determines_of_transparent (hT : inner.Transparent env facts nonEmpty a) :
    (cached env facts nonEmpty inner a).Determines (inner.keyOrdinals env.cube) inner a 0 := by
  intro κ μ hκ hμ hnames v hv
  have hlimit : 1 < env.config.maxEvalDepth := by
    rcases Nat.lt_or_ge 1 env.config.maxEvalDepth with h | h
    · exact h
    · have hdeep : env.config.maxEvalDepth ≤
          ((cached env facts nonEmpty inner a).fresh κ 1).depth := h
      have herror := inner.exec_evaluate_limited (0 :: a) hdeep
      cases hv.symm.trans (congrArg Prod.fst herror)
  -- the result is kept at one of the coordinates
  let first := ((EvalState.start env.cube (.memory facts) {} ∅).setRow κ).setNonEmpty nonEmpty
  have hrunning : Execution.stopped? {} = none := rfl
  have hstart := (uncached env facts nonEmpty inner a).steady_start hrunning ∅
  have hfirst : (uncached env facts nonEmpty inner a).Steady 0 first :=
    (hstart.setRow H.regular hκ.within).setNonEmpty nonEmpty
  have hcontext : first.context = κ :=
    EvalState.context_setRow_coordinate H.regular hstart.coordinate hκ
  have hempty : first.cache = ∅ := EvalState.cache_setRow _ κ
  have hresult : ((inner.evaluate (0 :: a)).exec env (EvalM.entered first)).1 = .ok v := by
    rw [hfirst.exec_uncached H rfl, hcontext]
    exact hv
  obtain ⟨second, hexec, hsecond, hframe, hkept⟩ :=
    hfirst.keep H rfl (by rw [hempty]; simp) hresult
  -- and found at the other one
  let third := second.setRow μ
  have hthird : (uncached env facts nonEmpty inner a).Steady 0 third :=
    hsecond.setRow H.regular hμ.within
  have hcontext' : third.context = μ :=
    EvalState.context_setRow_coordinate H.regular hsecond.coordinate hμ
  have hflag : third.nonEmpty = nonEmpty := (second.nonEmpty_setRow μ).trans hframe.nonEmpty
  have hhit : third.cache[EvalM.cacheKey a (inner.keyOrdinals env.cube) third]? = some v := by
    have hkey : EvalM.cacheKey a (inner.keyOrdinals env.cube) third =
        EvalM.cacheKey a (inner.keyOrdinals env.cube) first := by
      show (a, third.nonEmpty, names _ third.context) = (a, first.nonEmpty, names _ first.context)
      rw [hflag, hcontext, hcontext', hnames]
      rfl
    rw [hkey, EvalState.cache_setRow]
    exact hkept
  let moves := Move.visit κ ++ [.setNonEmpty nonEmpty, .evaluate] ++ Move.visit μ
  have hmoves : ∀ move ∈ moves, move.Within (Domain.ofCube env.cube) := by
    intro move hmove
    rcases List.mem_append.1 hmove with hmove | hmove
    · rcases List.mem_append.1 hmove with hmove | hmove
      · exact Move.visit_within hκ.within move hmove
      · rcases List.mem_pair.1 hmove with rfl | rfl <;> trivial
    · exact Move.visit_within hμ.within move hmove
  have hreached : third = (EvalState.start env.cube (.memory facts) {} ∅).after env
      (inner.cached env.cube) a moves := by
    rw [EvalState.after_append, EvalState.after_append, EvalState.after_visit, EvalState.after_visit]
    show second.setRow μ = (((inner.cached env.cube).evaluate a).exec env first).2.setRow μ
    rw [hexec]
  have hsame := hT {} ∅ moves hrunning hmoves third hreached hflag
  have hdepth : third.depth = 0 := hthird.depth
  rw [Calc.exec_cached_kept (by omega) hhit, hthird.exec_uncached H hflag, hcontext'] at hsame
  exact hsame.symm

end

end Scene

/-- If the calculation keeps results, dependency analysis covers what the kept calculation reads under
the flag. -/
def Calc.Covered (cube : Cube) : Calc → Prop
  | node _ (.cache _) [inner] =>
    ∀ h ∈ cube.hierarchies, inner.dependsIn true h = true → inner.dependsOn h = true
  | _ => True

theorem Scene.covered_of_every {S : Scene} (hc : S.env.cube.Regular)
    (hformed : S.root.Formed S.env.cube S.domain True)
    (h : S.nonEmpty = true → S.root.Every (Calc.Covered S.env.cube)) : S.Covered := by
  cases hb : S.nonEmpty with
  | false => exact covered_of_not_nonEmpty hc hformed hb
  | true =>
    rintro a level info os inner hat o ⟨k, hk, hread⟩
    rw [hb] at hread
    have hcovered : ∀ h ∈ S.env.cube.hierarchies, inner.dependsIn true h = true →
        inner.dependsOn h = true := (hat.every (h hb)).self
    obtain ⟨inner', hinner, rfl⟩ := (hat.every hformed).self.cache os rfl
    cases hinner
    have hmem := List.mem_of_getElem? hk
    refine List.mem_map.2 ⟨k, List.mem_filter.2 ⟨hmem, hcovered k hmem hread⟩, ?_⟩
    exact hc.ordinal o k hk

/-! ## Calls of `Cache` -/

namespace FunctionTable

def keepsResults : Resolver → Bool
  | .fixed o => o.definitions.all (·.body == .cache)
  | .variadic v => v.body == .cache

theorem body_of_mem_lookup_cache {r : Resolver} (hr : r ∈ builtin.lookup "Cache" .function)
    {d : Definition} (hd : r.Declares d) : d.body = .cache := by
  have hall : (builtin.lookup "Cache" .function).all keepsResults = true := by decide +kernel
  have hkeeps := List.all_eq_true.1 hall r hr
  cases r with
  | fixed o => exact eq_of_beq (List.all_eq_true.1 hkeeps d hd)
  | variadic v => exact hd.1.trans (eq_of_beq hkeeps)

end FunctionTable

theorem BoundCall.cache_produces {c : BoundCall} {cube : Cube} {styles : List ResultStyle} :
    Produces (fun tree => ∃ inner : Calc, tree = inner.cached cube) (c.cache cube styles) := by
  refine Produces.anything.bind fun o _ => ?_
  split
  all_goals exact Produces.anything.bind fun inner _ => .ok ⟨inner, rfl⟩

/-- A call of `Cache` is compiled to a calculation that keeps the results of another one. -/
theorem Expr.compile_cache {cube : Cube} {args : List Expr} {bound : Expr}
    {registry : ParameterRegistry} {styles : List ResultStyle} {tree : Calc}
    (hvalid : (((call "Cache" .function args).validate .builtin).run registry).1 = .ok bound)
    (hcompile : bound.compile cube styles = .ok tree) :
    ∃ inner : Calc, tree = inner.cached cube := by
  obtain ⟨d, type, args', rfl, r, hr, hd⟩ := validate_call hvalid
  have hbody := FunctionTable.body_of_mem_lookup_cache hr hd
  have hcall : BoundCall.compile ⟨d, type, operands cube args'⟩ cube styles =
      BoundCall.cache ⟨d, type, operands cube args'⟩ cube styles := by
    rw [BoundCall.compile, hbody]
  rw [compile, hcall] at hcompile
  exact BoundCall.cache_produces tree hcompile

/-- A call of `Cache` gives in all sessions what its argument gives one level deeper if and only if its
keys determine the results, provided that the calls of `Cache` in the argument are in order. They do
if the types of the tree tell the truth and dependency analysis covers what is kept. One level deeper
the argument gives what it gives in the same state, or the nesting is too deep. -/
theorem Calc.cached_transparent {env : Environment} (hcube : env.cube.Built)
    (henv : env.Within (Domain.ofCube env.cube)) {args : List Expr} {bound : Expr}
    {registry : ParameterRegistry} {styles : List ResultStyle} {tree : Calc}
    (hsource : (Expr.call "Cache" .function args).isUnbound = true)
    (hw : (Expr.call "Cache" .function args).Within (Domain.ofCube env.cube))
    (hvalid : (((Expr.call "Cache" .function args).validate .builtin).run registry).1 = .ok bound)
    (hcompile : bound.compile env.cube styles = .ok tree) (facts : List Fact) (a : Address) :
    ∃ inner : Calc, tree = inner.cached env.cube ∧
      ∀ nonEmpty : Bool,
        ((Scene.uncached env facts nonEmpty inner a).Determined →
          (inner.Transparent env facts nonEmpty a ↔
            (Scene.cached env facts nonEmpty inner a).Determines (inner.keyOrdinals env.cube)
              inner a 0)) ∧
        (env.cube.HierarchiesDistinct → (Scene.cached env facts nonEmpty inner a).Truthful →
          (nonEmpty = true → tree.Every (Calc.Covered env.cube)) →
            inner.Transparent env facts nonEmpty a) ∧
        ∀ s : EvalState,
          ((inner.evaluate (0 :: a)).exec env (EvalM.entered s)).1 =
              .error (.recursionLimit env.config.maxEvalDepth) ∨
            ((inner.evaluate (0 :: a)).exec env (EvalM.entered s)).1 =
              ((inner.evaluate (0 :: a)).exec env s).1 := by
  have hregular := hcube.regular
  have hformed := Expr.compile_formed_of_unbound hsource hw hvalid hcompile
  obtain ⟨inner, rfl⟩ := Expr.compile_cache hvalid hcompile
  refine ⟨inner, rfl, fun nonEmpty => ⟨fun hinner => ⟨fun hT => ?_, fun hkey => ?_⟩,
    fun hdistinct htypes hcovered => ?_, fun s => inner.evaluate_deeper (0 :: a) env s⟩⟩
  · have hinnerFormed := hformed.child inner List.mem_cons_self
    exact Scene.determines_of_transparent ⟨hregular, henv, hinnerFormed, hinner⟩ hT
  · exact Scene.Keyed.transparent ⟨hregular, henv, hformed, Scene.determined_cached hinner hkey⟩
  · have H : (Scene.cached env facts nonEmpty inner a).Apt := ⟨hregular, hdistinct, henv, hformed,
      htypes, Scene.covered_of_every hregular hformed hcovered⟩
    exact H.keyed.transparent

namespace Sample

/-- `Cache([Measures].[Amount].Value)` -/
def cachedCell : Expr := .call "Cache" .function [amountCell]

def isCacheOfCell : Calc → Bool
  | .node info (.cache _) [c] => info.type == .scalar && isCellOfMember c
  | _ => false

theorem cachedCell_within : cachedCell.Within (Domain.ofCube cube) := ⟨amountCell_within, trivial⟩

theorem compile_cachedCell : ∃ bound tree,
    ((cachedCell.validate .builtin).run []).1 = .ok bound ∧
      bound.compile cube Expr.anyStyles = .ok tree ∧ isCacheOfCell tree = true := by
  have hshape : (((cachedCell.validate .builtin).run []).1.toOption.any fun bound =>
      (bound.compile cube Expr.anyStyles).toOption.any isCacheOfCell) = true := by decide +kernel
  obtain ⟨bound, hvalid, hshape⟩ := exists_ok_of_any hshape
  obtain ⟨tree, hcompile, hshape⟩ := exists_ok_of_any hshape
  exact ⟨bound, tree, hvalid, hcompile, hshape⟩

theorem covered_of_isCacheOfCell {c : Calc} (hshape : isCacheOfCell c = true) :
    c.Every (Calc.Covered cube) := by
  unfold isCacheOfCell at hshape
  split at hshape
  · rename_i info os inner
    rw [Bool.and_eq_true] at hshape
    have hcell := hshape.2
    unfold isCellOfMember at hcell
    split at hcell
    · refine .node (fun h _ hdepends => hdepends) (List.forall_mem_singleton.2 ?_)
      refine .node trivial (List.forall_mem_singleton.2 ?_)
      exact .node trivial (List.forall_mem_nil _)
    · cases hcell
  · cases hshape

/-- Keeping the cell at the amount is transparent under either flag. -/
theorem cached_transparent_amount :
    environment.cube.Built ∧ environment.Within (Domain.ofCube environment.cube) ∧
      cachedCell.isUnbound = true ∧ cachedCell.Within (Domain.ofCube environment.cube) ∧
      ∃ (bound : Expr) (tree inner : Calc),
        ((cachedCell.validate .builtin).run []).1 = .ok bound ∧
          bound.compile environment.cube Expr.anyStyles = .ok tree ∧
          tree = inner.cached environment.cube ∧
          ∀ nonEmpty, inner.Transparent environment [⟨[amount], 5⟩] nonEmpty [0] := by
  refine ⟨cube_built, environment_within, rfl, cachedCell_within, ?_⟩
  obtain ⟨bound, tree, hvalid, hcompile, hshape⟩ := compile_cachedCell
  obtain ⟨inner, htree, htransparent⟩ := Calc.cached_transparent cube_built environment_within rfl
    cachedCell_within hvalid hcompile [⟨[amount], 5⟩] [0]
  refine ⟨bound, tree, inner, hvalid, hcompile, htree, fun nonEmpty => ?_⟩
  obtain ⟨-, hsufficient, -⟩ := htransparent nonEmpty
  refine hsufficient cube_distinct ?_ fun _ => covered_of_isCacheOfCell hshape
  have hformed := Expr.compile_formed_of_unbound rfl cachedCell_within hvalid hcompile
  rw [htree] at hshape hformed
  obtain ⟨htype, hcell⟩ : inner.type == .scalar ∧ isCellOfMember inner := by
    exact Bool.and_eq_true_iff.1 hshape
  refine Scene.truthful_of_every (.node (.inl ?_) (List.forall_mem_singleton.2 ?_))
  · show inner.type.named = []
    rw [eq_of_beq htype]
    rfl
  · refine types_of_isCellOfMember hcell ?_
    exact (hformed.child inner List.mem_cons_self).mono fun _ h => h.within

end Sample

end Olap
