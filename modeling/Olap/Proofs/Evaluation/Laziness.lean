import Olap.Proofs.Calc.Styles
import Olap.Proofs.Evaluation.Belonging
import Olap.Proofs.Evaluation.Holding
import Olap.Proofs.Evaluation.Nesting

/-!
# Sets on demand and in full

A set compiles to trees that differ in their roots only: a join is produced on demand or held in full,
and a list that belongs to the caller is copied (`Expr.Bound.renderings`). So the lists that these trees
give are the same (`Expr.renderings_agree`), unless no tuple on the left of a join asks for those on the
right and these are more than a list can hold (`Value.Stranded`). The lists are compared at one place
and where nothing is kept, to which the trees can be moved as long as kept results make no difference
to them (`Calc.Unswayed`).
-/

set_option autoImplicit false

namespace Olap

/-! ## Values on demand and in full -/

namespace Value

/-- The list of the set that a value is. -/
def held (limit : Nat) (v : Value) : Except CalcError TupleList :=
  v.toSource >>= TupleSource.collect limit

/-- The value is a join that is produced on demand, in which no tuple on the left asks for those on
the right, and these are more than a list can hold. -/
def Stranded (limit : Nat) (v : Value) : Prop :=
  ∃ p q, v = .iterable (.cross p q) ∧ p.rows = [] ∧ ¬ q.Holdable limit

/-- What a set gives on demand and in full: the same, or a join of two sets and the list of its
pairs. -/
def Rendered (limit : Nat) (onDemand inFull : Except CalcError Value) : Prop :=
  onDemand = inFull ∨
    ∃ p q, onDemand = .ok (.iterable (.cross p q)) ∧ inFull = list <$> p.collectPairs limit q

variable {limit : Nat} {l : TupleList} {v : Value}

theorem toList_map_list (r : Except CalcError TupleList) : list <$> r >>= toList = r := by
  cases r <;> rfl

theorem held_list (hl : l.Legal limit) : (list l).held limit = .ok l :=
  TupleSource.collect_list hl

theorem stranded_cross_iff {p q : TupleSource} :
    (iterable (.cross p q)).Stranded limit ↔ p.rows = [] ∧ ¬ q.Holdable limit := by
  refine ⟨?_, fun h => ⟨p, q, rfl, h⟩⟩
  rintro ⟨p, q, hv, h⟩
  cases hv
  exact h

/-- A stranded join has no tuples on demand. -/
theorem Stranded.exists_held (h : v.Stranded limit) : ∃ l, v.held limit = .ok l ∧ l.rows = [] := by
  obtain ⟨p, q, rfl, hempty, -⟩ := h
  have hrows : (TupleSource.cross p q).rows = [] := by
    rw [TupleSource.rows, hempty, List.flatMap_nil]
  obtain ⟨l, hl⟩ := TupleSource.exists_collect_iff.2 (TupleSource.holdable_of_nil hrows)
  exact ⟨l, hl, (TupleSource.collect_ok hl).2.2.trans hrows⟩

/-- Lists are held as they are, and a join has the list of its pairs, unless it is stranded. -/
theorem Rendered.toList_iff {r₁ r₂ : Except CalcError Value} (h : Rendered limit r₁ r₂)
    (hlist : ∀ v, r₂ = .ok v → ∃ l, v = .list l ∧ l.Legal limit)
    (hsolid : ∀ v, r₁ = .ok v → ∃ p, v.toSource = .ok p ∧ p.Solid limit) :
    r₂ >>= toList = .ok l ↔ r₁ >>= held limit = .ok l ∧ ¬ ∃ v, r₁ = .ok v ∧ v.Stranded limit := by
  rcases h with rfl | ⟨p, q, rfl, rfl⟩
  · rcases r₁ with e | v
    · exact ⟨nofun, fun h => nomatch h.1⟩
    · obtain ⟨m, rfl, hm⟩ := hlist v rfl
      have hheld : Except.ok (list m) >>= held limit = .ok m := held_list hm
      rw [hheld]
      refine ⟨fun h => ⟨h, ?_⟩, fun h => h.1⟩
      rintro ⟨v, hv, p, q, rfl, -⟩
      cases hv
  · obtain ⟨t, ht, hsolid⟩ := hsolid _ rfl
    cases ht
    have hstranded : (∃ v, Except.ok (iterable (.cross p q)) = (.ok v : Except CalcError Value) ∧
        v.Stranded limit) ↔ p.rows = [] ∧ ¬ q.Holdable limit := by
      rw [← stranded_cross_iff]
      exact ⟨fun ⟨v, hv, h⟩ => Except.ok.inj hv ▸ h, fun h => ⟨_, rfl, h⟩⟩
    rw [toList_map_list, TupleSource.collectPairs_iff hsolid.2, hstranded]
    exact Iff.rfl

end Value

/-! ## Lists and sets of one tree -/

namespace Calc

variable {env : Environment} {s : EvalState}

/-- The value of the tree at an address. -/
def valueAt (c : Calc) (env : Environment) (a : Address) (s : EvalState) : Except CalcError Value :=
  ((c.evaluate a).exec env s).1

/-- The list that the tree gives. -/
def listAt (c : Calc) (env : Environment) (a : Address) (s : EvalState) :
    Except CalcError TupleList :=
  ((EvalM.asList (c.evaluate a)).exec env s).1

/-- The set that the tree gives, held in full. -/
def heldAt (c : Calc) (env : Environment) (a : Address) (s : EvalState) :
    Except CalcError TupleList :=
  ((do EvalM.materialize (← EvalM.asSource (c.evaluate a))).exec env s).1

theorem listAt_eq (c : Calc) (a : Address) :
    c.listAt env a s = c.valueAt env a s >>= Value.toList :=
  congrArg Prod.fst (EvalM.exec_bind_lift _ _)

theorem heldAt_eq (c : Calc) (a : Address) (hs : s.execution.stopped? = none) :
    c.heldAt env a s = c.valueAt env a s >>= Value.held env.config.resultLimit := by
  have hframe := (c.evaluate_keeps_everything a env s s.within_everything).frame
  rw [heldAt, valueAt, EvalM.asSource, bind_assoc]
  rcases hc : (c.evaluate a).exec env s with ⟨e | v, t⟩
  · rw [EvalM.exec_bind_error hc]
    rfl
  · rw [hc] at hframe
    rw [EvalM.exec_bind_ok hc]
    show ((EvalM.lift v.toSource >>= EvalM.materialize).exec env t).1 =
      (v.toSource >>= TupleSource.collect env.config.resultLimit)
    rcases v.toSource with e | p
    · rfl
    · exact EvalM.exec_materialize p (hframe.stopped?.trans hs)

/-! ## Trees that differ in their roots -/

/-- What a join does with its two sets. -/
def joinSets (onDemand : Bool) (p q : TupleSource) : EvalM Value := do
  if onDemand && !(← get).nonEmpty then return .iterable (.cross p q)
  else return .list (← EvalM.crossJoin p q)

theorem evaluate_joined (type : ExprType) (onDemand : Bool) (l r : Calc) (a : Address) :
    (joined type onDemand l r).evaluate a =
      EvalM.calculation a (EvalM.asSource (l.evaluate (0 :: a)) >>= fun p =>
        EvalM.asSource (r.evaluate (1 :: a)) >>= fun q => joinSets onDemand p q) := by
  rw [joined, plain, withStyle, evaluate]
  rfl

variable {x y : EvalM Value}

/-- Two sets are given before anything is done with them, or the same failure whatever it is. -/
theorem exec_sources (hx : EvalM.Keeps env .everything x (Value.Within .everything))
    (hy : EvalM.Keeps env .everything y (Value.Within .everything)) (s : EvalState) :
    let both (f : TupleSource → TupleSource → EvalM Value) : EvalM Value :=
      EvalM.asSource x >>= fun p => EvalM.asSource y >>= fun q => f p q
    (∃ e, ∀ f, ((both f).exec env s).1 = .error e) ∨
      ∃ p q u, s.Frame u ∧ ∀ f, (both f).exec env s = (f p q).exec env u := by
  intro both
  have hleft : (EvalM.asSource x).exec env s = _ := EvalM.exec_bind_lift x Value.toSource
  rcases hp : (x.exec env s).1 >>= Value.toSource with e | p
  · rw [hp] at hleft
    exact .inl ⟨e, fun f => congrArg Prod.fst (EvalM.exec_bind_error hleft)⟩
  · rw [hp] at hleft
    generalize ht : (x.exec env s).2 = t at hleft
    have hframe : s.Frame t := ht ▸ (hx s s.within_everything).frame
    have hright : (EvalM.asSource y).exec env t = _ := EvalM.exec_bind_lift y Value.toSource
    rcases hq : (y.exec env t).1 >>= Value.toSource with e | q
    · rw [hq] at hright
      refine .inl ⟨e, fun f => ?_⟩
      show ((EvalM.asSource x >>= _).exec env s).1 = _
      rw [EvalM.exec_bind_ok hleft, EvalM.exec_bind_error hright]
    · rw [hq] at hright
      have hframe' := hframe.trans (hy t t.within_everything).frame
      refine .inr ⟨p, q, (y.exec env t).2, hframe', fun f => ?_⟩
      exact (EvalM.exec_bind_ok hleft).trans (EvalM.exec_bind_ok hright)

theorem rendered_joinSets (hx : EvalM.Keeps env .everything x (Value.Within .everything))
    (hy : EvalM.Keeps env .everything y (Value.Within .everything))
    (hs : s.execution.stopped? = none) :
    let result (onDemand : Bool) := ((EvalM.asSource x >>= fun p =>
      EvalM.asSource y >>= fun q => joinSets onDemand p q).exec env s).1
    Value.Rendered env.config.resultLimit (result true) (result false) := by
  intro result
  rcases exec_sources hx hy s with ⟨e, herror⟩ | ⟨p, q, u, hframe, hboth⟩
  · exact .inl ((herror (joinSets true)).trans (herror (joinSets false)).symm)
  · have hresult (onDemand : Bool) : result onDemand = ((joinSets onDemand p q).exec env u).1 :=
      congrArg Prod.fst (hboth (joinSets onDemand))
    rw [hresult, hresult, joinSets, joinSets, EvalM.exec_bind_ok EvalM.exec_get,
      EvalM.exec_bind_ok EvalM.exec_get]
    cases hflag : u.nonEmpty with
    | true => exact .inl rfl
    | false =>
      refine .inr ⟨p, q, rfl, ?_⟩
      rw [← EvalM.exec_crossJoin p q (hframe.stopped?.trans hs) hflag]
      exact congrArg Prod.fst (EvalM.exec_bind_pure _ Value.list)

theorem valueAt_joined (type : ExprType) (l r : Calc) (a : Address)
    (hs : s.execution.stopped? = none) :
    Value.Rendered env.config.resultLimit ((joined type true l r).valueAt env a s)
      ((joined type false l r).valueAt env a s) := by
  unfold valueAt
  rcases Nat.lt_or_ge s.depth env.config.maxEvalDepth with hdepth | hdepth
  · rw [evaluate_joined, evaluate_joined, EvalM.exec_calculation a _ hdepth,
      EvalM.exec_calculation a _ hdepth]
    exact rendered_joinSets (l.evaluate_keeps_everything _ env) (r.evaluate_keeps_everything _ env) hs
  · rw [exec_evaluate_limited _ a hdepth, exec_evaluate_limited _ a hdepth]
    exact .inl rfl

/-- The value of a copy of a list, if the nesting does not become too deep for it. -/
theorem valueAt_mutableCopy (c : Calc) (type : ExprType) (a : Address)
    (h : (adapted .mutableCopy c type).valueAt env a s ≠
      .error (.recursionLimit env.config.maxEvalDepth)) :
    (adapted .mutableCopy c type).valueAt env a s = Value.list <$> c.listAt env (0 :: a) s := by
  have hroot : (adapted .mutableCopy c type).evaluate a =
      EvalM.calculation a (EvalM.asList (c.evaluate (0 :: a)) >>= fun l => pure (.list l)) := by
    rw [adapted, plain, withStyle, evaluate]
    rfl
  unfold valueAt at h ⊢
  rw [hroot] at h ⊢
  rcases Nat.lt_or_ge s.depth env.config.maxEvalDepth with hdepth | hdepth
  · have hcopy : ((EvalM.calculation a _).exec env s).1 = Value.list <$> c.listAt env (0 :: a) _ :=
      (congrArg Prod.fst (EvalM.exec_calculation a _ hdepth)).trans
        (congrArg Prod.fst (EvalM.exec_bind_pure _ Value.list))
    rw [hcopy] at h ⊢
    rw [listAt_eq, valueAt] at h ⊢
    rcases c.evaluate_deeper (0 :: a) env s with hlimit | hsame
    · rw [hlimit] at h
      exact absurd rfl h
    · rw [hsame, listAt_eq]
      rfl
  · rw [EvalM.exec_calculation_limited a _ hdepth] at h
    exact absurd rfl h

end Calc

/-! ## The trees of a set -/

namespace Expr

variable {env : Environment} {e : Expr} {c : Calc} {styles others : List ResultStyle} {owned : Bool}
  {a : Address} {s : EvalState} {v : Value}

/-- The contract of a tree of which only the shape of sets is asked. -/
def shapes (env : Environment) (c : Calc) (a : Address) : Contract :=
  Contract.ofTree ⟨env, fun _ _ => True, False, False.elim⟩ c a

/-- Where nothing is kept, a tree delivers what it delivers under any contract. -/
theorem Bound.delivers (he : e.Bound) {Q : Value → Prop}
    (hc : (e.toOperand env.cube).Faithful (shapes env c a) → c.Delivers (shapes env c a) Q)
    (hv : c.valueAt env a s.cleared = .ok v) : Q v := by
  have hfaithful : (e.toOperand env.cube).Faithful (shapes env c a) := he.faithful False.elim
  have hensures := hc hfaithful a (Contract.guarded_ofTree _ c a)
  have hupheld : (shapes env c a).Upheld s.cleared :=
    ⟨False.elim, fun k v h => by simp [EvalState.cleared] at h⟩
  have hallowed := (hensures _ hupheld).allowed
  change Contract.Allows _ Q (c.valueAt env a s.cleared) at hallowed
  rw [hv] at hallowed
  exact hallowed

theorem Bound.exists_list (he : e.Bound) (hset : e.type.isSet = true)
    (h : (e.toOperand env.cube).list styles owned = .ok c)
    (hv : c.valueAt env a s.cleared = .ok v) :
    ∃ l, v = .list l ∧ l.Legal env.config.resultLimit := by
  obtain ⟨t, ht⟩ := ExprType.eq_set_of_isSet hset
  refine he.delivers (Q := fun v => ∃ l, v = .list l ∧ l.Legal env.config.resultLimit)
    (fun hfaithful => (hfaithful.list _ ht owned c h).delivers.mono ?_) hv
  rintro v ⟨l, rfl, hl⟩
  exact ⟨l, rfl, hl.legal⟩

theorem Bound.exists_solid (he : e.Bound) (hset : e.type.isSet = true)
    (h : (e.toOperand env.cube).iterable styles = .ok c)
    (hv : c.valueAt env a s.cleared = .ok v) :
    ∃ p, v.toSource = .ok p ∧ p.Solid env.config.resultLimit := by
  obtain ⟨t, ht⟩ := ExprType.eq_set_of_isSet hset
  refine he.delivers (Q := fun v => ∃ p, v.toSource = .ok p ∧ p.Solid env.config.resultLimit)
    (fun hfaithful => (hfaithful.iterable _ ht c h).delivers.mono ?_) hv
  rintro v ⟨p, hp, hsource⟩
  exact ⟨p, hp, hsource.solid⟩

/-- Where nothing is kept, the list of a set is that of the set that is produced on demand. -/
theorem Bound.toList_iff_held (he : e.Bound) (hset : e.type.isSet = true) {onDemand inFull : Calc}
    (h₁ : (e.toOperand env.cube).iterable styles = .ok onDemand)
    (h₂ : (e.toOperand env.cube).list others false = .ok inFull)
    (hroots : onDemand = inFull ∨
      ∃ type l r, onDemand = .joined type true l r ∧ inFull = .joined type false l r)
    (hs : s.execution.stopped? = none) (l : TupleList) :
    inFull.valueAt env a s.cleared >>= Value.toList = .ok l ↔
      onDemand.valueAt env a s.cleared >>= Value.held env.config.resultLimit = .ok l ∧
        ¬ ∃ v, onDemand.valueAt env a s.cleared = .ok v ∧ v.Stranded env.config.resultLimit := by
  refine Value.Rendered.toList_iff ?_ (fun v => he.exists_list hset h₂)
    fun v => he.exists_solid hset h₁
  rcases hroots with rfl | ⟨type, left, right, rfl, rfl⟩
  · exact .inl rfl
  · have hrunning : s.cleared.execution.stopped? = none := hs
    exact Calc.valueAt_joined type left right a hrunning

/-- A list that belongs to the caller is the list that is copied. -/
theorem toList_of_copied {owned inFull : Calc}
    (hcopy : owned = inFull ∨ owned = .adapted .mutableCopy inFull inFull.type)
    (hdepth : owned.valueAt env [] s.cleared ≠ .error (.recursionLimit env.config.maxEvalDepth)) :
    owned.valueAt env [] s.cleared >>= Value.toList =
      inFull.valueAt env [] s.cleared >>= Value.toList := by
  rcases hcopy with rfl | rfl
  · rfl
  · have hplace : inFull.valueAt env [0] s.cleared = inFull.valueAt env [] s.cleared :=
      inFull.evaluate_cleared [0] [] env s
    rw [Calc.valueAt_mutableCopy inFull _ [] hdepth, Value.toList_map_list, Calc.listAt_eq, hplace]

/-- A validated set without parameters compiles to trees that give the same tuples, whether they are
produced on demand, listed, or listed for a caller who owns the list: in every state in which what is
kept does not sway the trees, unless the nesting becomes too deep or the execution has to stop. A
stranded join is the one exception, and has no tuples. -/
theorem renderings_agree {source bound : Expr} {registry : ParameterRegistry}
    (hclosed : source.isClosed = true)
    (hvalid : ((source.validate .builtin).run registry).1 = .ok bound)
    (hset : bound.type.isSet = true) (env : Environment)
    (styles₁ styles₂ styles₃ : List ResultStyle) :
    ∃ onDemand inFull owned : Calc,
      (bound.toOperand env.cube).iterable styles₁ = .ok onDemand ∧
      (bound.toOperand env.cube).list styles₂ false = .ok inFull ∧
      (bound.toOperand env.cube).list styles₃ true = .ok owned ∧
      ∀ (s : EvalState) (a₁ a₂ a₃ : Address), s.execution.stopped? = none →
        onDemand.Unswayed env a₁ s → inFull.Unswayed env a₂ s → owned.Unswayed env a₃ s →
        owned.valueAt env a₃ s ≠ .error (.recursionLimit env.config.maxEvalDepth) →
        let stranded : Prop :=
          ∃ v, onDemand.valueAt env a₁ s = .ok v ∧ v.Stranded env.config.resultLimit
        owned.listAt env a₃ s = inFull.listAt env a₂ s ∧
          (∀ l, inFull.listAt env a₂ s = .ok l ↔ onDemand.heldAt env a₁ s = .ok l ∧ ¬ stranded) ∧
          (stranded → ∃ l, onDemand.heldAt env a₁ s = .ok l ∧ l.rows = []) := by
  have he := validate_bound hclosed hvalid
  obtain ⟨onDemand, h₁⟩ := he.iterable_compiles hset env.cube styles₁
  obtain ⟨inFull, h₂⟩ := he.list_compiles hset env.cube styles₂ false
  obtain ⟨owned, h₃⟩ := he.list_compiles hset env.cube styles₃ true
  obtain ⟨hroots, hcopy⟩ := he.renderings hset h₁ h₂ h₃
  refine ⟨onDemand, inFull, owned, h₁, h₂, h₃, ?_⟩
  intro s a₁ a₂ a₃ hs hun₁ hun₂ hun₃ hdepth stranded
  -- all three trees give in the state what they give at the root where nothing is kept
  have hplace {c : Calc} {a : Address} (h : c.Unswayed env a s) :
      c.valueAt env a s = c.valueAt env [] s.cleared := h.trans (c.evaluate_cleared a [] env s)
  have hv₁ := hplace hun₁
  rw [hplace hun₃] at hdepth
  refine ⟨?_, fun l => ?_, fun ⟨v, hv, h⟩ => ?_⟩
  · rw [Calc.listAt_eq, Calc.listAt_eq, hplace hun₃, hplace hun₂]
    exact toList_of_copied hcopy hdepth
  · rw [Calc.listAt_eq, hplace hun₂, Calc.heldAt_eq onDemand a₁ hs]
    simp only [stranded, hv₁]
    exact he.toList_iff_held hset h₁ h₂ hroots hs l
  · rw [Calc.heldAt_eq onDemand a₁ hs, hv]
    exact h.exists_held

end Expr

namespace Sample

/-- All pairs of measures. -/
def pairs : Expr := .call "CrossJoin" .function [bothMeasures, bothMeasures]

def bindings (e : Expr) : Expr :=
  match ((e.validate .builtin).run []).1 with
  | .ok bound => bound
  | .error _ => .literal .null

def isValidSet (e : Expr) : Bool :=
  ((e.validate .builtin).run []).1.toOption.any (·.type.isSet)

theorem validate_bindings {e : Expr} (h : isValidSet e = true) :
    ((e.validate .builtin).run []).1 = .ok (bindings e) ∧ (bindings e).type.isSet = true := by
  obtain ⟨bound, hbound, hset⟩ := exists_ok_of_any h
  rw [bindings, hbound]
  exact ⟨rfl, hset⟩

def fresh : EvalState := .start cube (.memory [⟨[amount], 5⟩]) {}

/-- All pairs of measures are the same four on demand and in full. -/
theorem renderings_agree_pairs : pairs.isClosed = true ∧
    ((pairs.validate .builtin).run []).1 = .ok (bindings pairs) ∧
      (bindings pairs).type.isSet = true ∧
      ∃ onDemand inFull owned l,
        ((bindings pairs).toOperand cube).iterable [] = .ok onDemand ∧
        ((bindings pairs).toOperand cube).list [] false = .ok inFull ∧
        ((bindings pairs).toOperand cube).list [] true = .ok owned ∧
        onDemand.heldAt environment [0] fresh = .ok l ∧
        inFull.listAt environment [1] fresh = .ok l ∧ owned.listAt environment [2] fresh = .ok l := by
  have hpairs : isValidSet pairs = true := by decide +kernel
  obtain ⟨hvalid, hset⟩ := validate_bindings hpairs
  obtain ⟨onDemand, inFull, owned, h₁, h₂, h₃, hagree⟩ :=
    Expr.renderings_agree rfl hvalid hset environment [] [] []
  have hvalue : (((bindings pairs).toOperand cube).list [] true).toOption.map
      (fun c => (c.listAt environment [2] fresh).toOption.isSome) = some true := by decide +kernel
  obtain ⟨c, hc, hsome⟩ := exists_ok_of_map hvalue
  cases hc.symm.trans h₃
  obtain ⟨l, hl⟩ := exists_ok_of_isSome hsome
  have hdepth : owned.valueAt environment [2] fresh ≠
      .error (.recursionLimit environment.config.maxEvalDepth) := by
    intro herror
    rw [Calc.listAt_eq, herror] at hl
    cases hl
  have hunswayed (c : Calc) (a : Address) : c.Unswayed environment a fresh :=
    (EvalState.unused_of_empty rfl).unswayed c environment
  obtain ⟨hcopy, hlist, -⟩ := hagree fresh [0] [1] [2] rfl (hunswayed _ _) (hunswayed _ _)
    (hunswayed _ _) hdepth
  have hinFull : inFull.listAt environment [1] fresh = .ok l := hcopy.symm.trans hl
  exact ⟨rfl, hvalid, hset, onDemand, inFull, owned, l, h₁, h₂, h₃, ((hlist l).1 hinFull).1, hinFull,
    hl⟩

/-- An engine whose lists hold no more than three tuples. -/
def small : Environment := { environment with config := { resultLimit := 3 } }

/-- No tuples, joined with more than a small list holds. -/
def nonePairs : Expr := .call "CrossJoin" .function [.call "\x7b\x7d" .braces [], pairs]

/-- The sizes of a set on demand, in full and as a list of the caller, each from a fresh start; what
fails has none. -/
def sizes (env : Environment) (bound : Expr) : Except CalcError (List (Option Nat)) := do
  let operand := bound.toOperand env.cube
  let onDemand ← operand.iterable []
  let inFull ← operand.list [] false
  let owned ← operand.list [] true
  let lists := [onDemand.heldAt env [0] fresh, inFull.listAt env [1] fresh, owned.listAt env [2] fresh]
  return lists.map fun r => r.toOption.map TupleList.size

/-- Sets of the pairs of measures, where a conversion or a bound call made in advance says that these
are one tuple. -/
def disguised : List Expr :=
  let tuple : ExprType := .tuple [.ofMember amount, .ofMember amount]
  match bindings pairs with
  | .bound d _ args =>
    [.convert pairs tuple .identity, .bound d tuple args].map fun e => .call "\x7b\x7d" .braces [e]
  | _ => []

section
open EvalM

/-- The set of both measures, with its results kept. -/
def keptMeasures : Expr := .call "Cache" .function [bothMeasures]

/-- The set is kept whatever the context is, and has two tuples. -/
def isKeptPair : Calc → Bool
  | .node _ (.cache []) [c] =>
    (c.listAt environment [0, 1] (entered fresh)).toOption.any (·.size == 2)
  | _ => false

/-- A state in which an empty list is kept for the tree at one address. -/
def stale : EvalState := keeping fresh ([0], false, []) (.list (.empty 1 0))

theorem held_stale {c : Calc} (h : isKeptPair c = true) :
    ∃ l, c.heldAt environment [0] stale = .ok l ∧ l.size = 0 := by
  unfold isKeptPair at h
  split at h
  · rename_i info d
    have hkept : (entered stale).cache[cacheKey [0] [] (entered stale)]? =
        some (.list (.empty 1 0)) := by
      show (keeping fresh _ _).cache[([0], false, [])]? = _
      rw [getElem?_keeping, if_pos rfl]
    have hvalue : (Calc.node info (.cache []) [d]).valueAt environment [0] stale =
        .ok (.list (.empty 1 0)) := by
      have hdepth : stale.depth < environment.config.maxEvalDepth := by decide
      exact (congrArg Prod.fst (exec_calculation [0] _ hdepth)).trans
        (congrArg Prod.fst (exec_cached_hit hkept))
    refine ⟨.empty 1 environment.config.resultLimit, ?_, rfl⟩
    rw [Calc.heldAt_eq _ _ rfl, hvalue]
    rfl
  · cases h

theorem list_stale {c : Calc} (h : isKeptPair c = true) :
    ∃ l, c.listAt environment [1] stale = .ok l ∧ l.size = 2 := by
  unfold isKeptPair at h
  split at h
  · rename_i info d
    have hnone : (entered stale).cache[cacheKey [1] [] (entered stale)]? = none := by
      show (keeping fresh _ _).cache[([1], false, [])]? = _
      rw [getElem?_keeping, if_neg (by decide)]
      exact Std.HashMap.getElem?_empty
    have hdepth : stale.depth < environment.config.maxEvalDepth := by decide
    have hunused : (entered stale).Unused [0, 1] := by
      intro k v hv
      change (keeping fresh _ _).cache[k]? = some v at hv
      rw [getElem?_keeping] at hv
      split at hv
      · rename_i hk
        rw [← hk]
        decide
      · exact absurd hv (by simp [fresh, EvalState.start])
    have hinner : d.valueAt environment [0, 1] (entered stale) =
        d.valueAt environment [0, 1] (entered fresh) := hunused.unswayed d environment
    have hvalue : (Calc.node info (.cache []) [d]).valueAt environment [1] stale =
        d.valueAt environment [0, 1] (entered fresh) := by
      refine (congrArg Prod.fst (exec_calculation [1] _ hdepth)).trans (Eq.trans ?_ hinner)
      show ((cached [1] [] (d.evaluate [0, 1])).exec environment (entered stale)).1 = _
      unfold Calc.valueAt
      rcases hd : (d.evaluate [0, 1]).exec environment (entered stale) with ⟨e | v, t⟩
      · rw [exec_cached_error hnone hd]
      · rw [exec_cached_ok hnone hd]
    rw [Calc.listAt_eq, hvalue, ← Calc.listAt_eq]
    obtain ⟨l, hl, hsize⟩ := exists_ok_of_any h
    exact ⟨l, hl, eq_of_beq hsize⟩
  · cases h

end

theorem validate_keptMeasures :
    ((keptMeasures.validate .builtin).run []).1 = .ok (bindings keptMeasures) ∧
      (bindings keptMeasures).type.isSet = true :=
  validate_bindings (by decide +kernel)

theorem renderings_stale : ∃ onDemand inFull l m,
    ((bindings keptMeasures).toOperand cube).iterable [] = .ok onDemand ∧
    ((bindings keptMeasures).toOperand cube).list [] false = .ok inFull ∧
    onDemand.heldAt environment [0] stale = .ok l ∧ inFull.listAt environment [1] stale = .ok m ∧
    l.size = 0 ∧ m.size = 2 := by
  obtain ⟨hvalid, hset⟩ := validate_keptMeasures
  have hbound : (bindings keptMeasures).Bound := Expr.validate_bound rfl hvalid
  obtain ⟨onDemand, h₁⟩ := hbound.iterable_compiles hset cube []
  obtain ⟨owned, h₃⟩ := hbound.list_compiles hset cube [] true
  have hshape : (((bindings keptMeasures).toOperand cube).list [] false).toOption.map isKeptPair =
      some true := by decide +kernel
  obtain ⟨inFull, h₂, hpair⟩ := exists_ok_of_map hshape
  obtain ⟨hroots, -⟩ := hbound.renderings hset h₁ h₂ h₃
  -- the root is no join, so both trees are the same
  obtain rfl : onDemand = inFull := by
    refine hroots.resolve_right ?_
    rintro ⟨type, l, r, -, rfl⟩
    cases hpair
  obtain ⟨l, hl, hlsize⟩ := held_stale hpair
  obtain ⟨m, hm, hmsize⟩ := list_stale hpair
  exact ⟨onDemand, onDemand, l, m, h₁, h₂, hl, hm, hlsize, hmsize⟩

/-- A join whose left side is empty has no tuples on demand and fails in full, if the right side is too
large for a list. A list that is kept for one of the trees need not be what the other one gives. Where
nodes made in advance give a set another type, it fails on demand instead. -/
theorem renderings_disagree :
    (((nonePairs.validate .builtin).run []).1 = .ok (bindings nonePairs) ∧
      (bindings nonePairs).type.isSet = true ∧
      (sizes small (bindings nonePairs)).toOption = some [some 0, none, none]) ∧
    (((keptMeasures.validate .builtin).run []).1 = .ok (bindings keptMeasures) ∧
      (bindings keptMeasures).type.isSet = true ∧
      ∃ onDemand inFull l m,
        ((bindings keptMeasures).toOperand cube).iterable [] = .ok onDemand ∧
        ((bindings keptMeasures).toOperand cube).list [] false = .ok inFull ∧
        onDemand.heldAt environment [0] stale = .ok l ∧
        inFull.listAt environment [1] stale = .ok m ∧ l.size = 0 ∧ m.size = 2) ∧
    disguised.length = 2 ∧ ∀ e ∈ disguised,
      ((e.validate .builtin).run []).1 = .ok (bindings e) ∧ (bindings e).type.isSet = true ∧
      (sizes environment (bindings e)).toOption = some [none, some 4, some 4] := by
  have hnone : isValidSet nonePairs = true ∧
      (sizes small (bindings nonePairs)).toOption = some [some 0, none, none] := by decide +kernel
  have hdisguised : disguised.length = 2 ∧ ∀ e ∈ disguised, isValidSet e = true ∧
      (sizes environment (bindings e)).toOption = some [none, some 4, some 4] := by decide +kernel
  obtain ⟨hvalid, hset⟩ := validate_bindings hnone.1
  obtain ⟨hkept, hkeptSet⟩ := validate_keptMeasures
  refine ⟨⟨hvalid, hset, hnone.2⟩, ⟨hkept, hkeptSet, renderings_stale⟩, hdisguised.1, fun e he => ?_⟩
  obtain ⟨hvalid, hset⟩ := validate_bindings (hdisguised.2 e he).1
  exact ⟨hvalid, hset, (hdisguised.2 e he).2⟩

end Sample

end Olap
