import Olap.Proofs.Calc.Compile
import Olap.Proofs.Evaluation.Dependence
import Olap.Proofs.Validation

/-!
# Independence of a hierarchy

A scene is apt (`Scene.Apt`) if its tree is well-formed, if the types of the tree tell the truth about
its values, and if what is kept is kept under all that it depends on. In an apt scene every evaluation
is sound (`Scene.Apt.sound`). Without the flag the last condition always holds, so a compiled tree
whose types tell the truth gives the same result in contexts that differ on a hierarchy only which the
tree does not depend on (`Calc.evaluate_independent`).
-/

set_option autoImplicit false

namespace Olap

namespace Scene

/-- The values of the calculations of the tree belong to their types. -/
def Truthful (S : Scene) : Prop :=
  ∀ (a : Address) (level : Nat) (c : Calc), S.root.At S.address a level c →
    ∀ κ, S.env.cube.Coordinate κ → ∀ v,
      ((c.evaluate a).exec S.env (S.fresh κ (S.depth + level))).1 = .ok v →
        v.Fits S.env.cube c.type

/-- What is kept is kept under the current members of all hierarchies that it reads. -/
def Covered (S : Scene) : Prop :=
  ∀ (a : Address) (level : Nat) (info : CalcInfo) (os : List Nat) (inner : Calc),
    S.root.At S.address a level (.node info (.cache os) [inner]) → ∀ o, S.Reads inner o → o ∈ os

/-- What makes all evaluations of a scene sound (module doc). -/
structure Apt (S : Scene) : Prop where
  regular : S.env.cube.Regular
  distinct : S.env.cube.HierarchiesDistinct
  within : S.env.Within S.domain
  formed : S.root.Formed S.env.cube S.domain True
  truthful : S.Truthful
  covered : S.Covered

variable {S : Scene} {a : Address} {level : Nat} {info : CalcInfo} {op : Operation}
variable {cs : List Calc}

/-- Without the flag, dependency analysis covers what is kept. -/
theorem covered_of_not_nonEmpty (hc : S.env.cube.Regular)
    (hformed : S.root.Formed S.env.cube S.domain True) (hb : S.nonEmpty = false) : S.Covered := by
  rintro a level info os inner hat o ⟨h, ho, hread⟩
  rw [hb, Calc.dependsIn_false] at hread
  obtain ⟨inner', hinner, rfl⟩ := (hat.every hformed).self.cache os rfl
  cases hinner
  refine List.mem_map.2 ⟨h, List.mem_filter.2 ⟨List.mem_of_getElem? ho, hread⟩, ?_⟩
  exact hc.ordinal o h ho

theorem eq_of_constant {info : CalcInfo} {v w : Value} {cs : List Calc} {env : Environment}
    {s : EvalState} (h : (((Calc.node info (.constant v) cs).evaluate a).exec env s).1 = .ok w) :
    w = v := by
  rw [Calc.evaluate] at h
  rcases Nat.lt_or_ge s.depth env.config.maxEvalDepth with hd | hd
  · rw [EvalM.exec_calculation a _ hd] at h
    cases h
    rfl
  · rw [EvalM.exec_calculation_limited a _ hd] at h
    cases h

/-- A tree tells the truth if its types name no hierarchies, but those of fixed values that belong to
them. -/
theorem truthful_of_every (h : S.root.Every fun c => c.type.named = [] ∨
    ∃ v, c.operation = .constant v ∧ v.Fits S.env.cube c.type) : S.Truthful := by
  intro a level c hat κ _ v hv
  rcases (hat.every h).self with hnone | ⟨w, hop, hfits⟩
  · exact fun r _ => .inl hnone
  · obtain ⟨info, op, cs⟩ := c
    change op = .constant w at hop
    subst hop
    rw [eq_of_constant hv]
    exact hfits

/-! ## Current members -/

theorem exec_currentMember {env : Environment} {x : EvalM Value} {s t : EvalState} {h : Hierarchy}
    {m : Member} (hx : (EvalM.asHierarchy x).exec env s = (.ok h, t))
    (hm : t.context[h.ordinal]? = some m) :
    ((Operation.run a .currentMember [x]).exec env s).1 = .ok (.member m) := by
  have hcurrent : (EvalM.currentMember h).exec env t = (.ok m, t) := by
    rw [EvalM.currentMember, EvalM.exec_bind_ok EvalM.exec_get, hm]
    rfl
  show ((EvalM.asHierarchy x >>= fun h => EvalM.currentMember h >>= fun m =>
    pure (Value.member m)).exec env s).1 = _
  rw [EvalM.exec_bind_ok hx, EvalM.exec_bind_ok hcurrent]
  rfl

/-- The type of a hierarchy does not exclude the hierarchy of a member that the type of current
members admits. -/
theorem uses_of_admits_currentMember {c : Cube} (hc : c.Regular) {t : ExprType}
    (ht : t.isHierarchy = true) {m : Member} (hm : t.currentMember.Admits c [m]) {o : Nat}
    {h : Hierarchy} (ho : c.hierarchies[o]? = some h) (hmh : m ∈ h.members) :
    t.uses h false = true := by
  cases t with
  | hierarchy s =>
    rcases hm with hnone | hall
    · cases hnone
    · cases hall with
      | cons hadmits _ =>
        obtain ⟨k, hk, hmk, hsk⟩ := hadmits
        have hat := hc.getElem?_hierarchyOrdinal hk hmk
        rw [hc.ordinal_of_mem ho hmh, ho] at hat
        cases hat
        exact hsk
  | _ => cases ht

/-- The hierarchy that the operand gives is read by the calculation: its current member belongs to the
type of the calculation, which says no more about it than the type of the operand. -/
theorem reads_currentMember (H : S.Apt) {c : Calc}
    (hat : S.root.At S.address a level (.node info .currentMember [c]))
    (hdepth : S.depth + level < S.env.config.maxEvalDepth)
    (hcs : S.Children (S.depth + level + 1) a [c]) {s : EvalState}
    (hs : S.Calm (S.depth + level + 1) s) {h : Hierarchy}
    (hh : ((EvalM.asHierarchy (c.evaluate (0 :: a))).exec S.env s).1 = .ok h) :
    S.Reads (.node info .currentMember [c]) h.ordinal := by
  have hwf := (hat.every H.formed).self
  obtain ⟨c', hc', htype, htyped⟩ := hwf.currentMember rfl
  cases hc'
  have hx : S.Sound (S.depth + level + 1) (S.Reads c) (EvalM.asHierarchy (c.evaluate (0 :: a)))
      S.domain.hierarchy :=
    (hcs 0 c rfl).along H.regular (EvalM.Composed.asHierarchy (.given rfl))
  -- from a fresh start the calculation gives the current member of the same hierarchy
  let fresh := S.fresh s.context (S.depth + level)
  have hfresh : S.Calm (S.depth + level + 1) (EvalM.entered fresh) :=
    (calm_fresh hs.coordinate).entered
  have hres := hx.agrees s _ hs hfresh (.refl _ _)
  obtain ⟨hframe, -, hdomain⟩ := hx.ends _ hfresh
  rcases hexec : (EvalM.asHierarchy (c.evaluate (0 :: a))).exec S.env (EvalM.entered fresh)
    with ⟨r, t⟩
  rw [hh, hexec] at hres
  cases hres
  rw [hexec] at hframe hdomain
  obtain ⟨i, hi⟩ := List.getElem?_of_mem (hdomain h rfl)
  have hord : h.ordinal = i := H.regular.ordinal i h hi
  have hlt : i < s.context.length := by
    rw [hs.coordinate.length]
    exact (List.getElem?_eq_some_iff.1 hi).1
  have hm : s.context[i]? = some s.context[i] := List.getElem?_eq_getElem hlt
  have hcontext : t.context[h.ordinal]? = some s.context[i] := by
    rw [hframe.context, hord]
    exact hm
  have hvalue : (((Calc.node info .currentMember [c]).evaluate a).exec S.env fresh).1 =
      .ok (.member s.context[i]) := by
    rw [Calc.evaluate, EvalM.exec_calculation a _ hdepth]
    exact exec_currentMember hexec hcontext
  have hfits := H.truthful a level _ hat s.context hs.coordinate _ hvalue
  have hadmits := hfits [s.context[i]] (List.mem_singleton_self _)
  rw [htype] at hadmits
  rw [hord]
  have hrule : Operation.currentMember.ruleIn S.nonEmpty info.rule = .currentOf := hwf.rule
  exact .of_uses hrule hi (uses_of_admits_currentMember H.regular (htyped trivial) hadmits hi
    (hs.coordinate.member i h hi _ hm))

theorem sound_currentMember (H : S.Apt) {c : Calc}
    (hat : S.root.At S.address a level (.node info .currentMember [c]))
    (hdepth : S.depth + level < S.env.config.maxEvalDepth)
    (hcs : S.Children (S.depth + level + 1) a [c]) :
    S.Sound (S.depth + level + 1) (S.Reads (.node info .currentMember [c]))
      (Operation.run a .currentMember (Calc.evaluations a 0 [c])) (Value.Within S.domain) := by
  have hwf := (hat.every H.formed).self
  have hrule : Operation.currentMember.ruleIn S.nonEmpty info.rule = .currentOf := hwf.rule
  have hchild : S.Sound (S.depth + level + 1) (S.Reads (.node info .currentMember [c]))
      (c.evaluate (0 :: a)) (S.Typed c.type) := (hcs 0 c rfl).weaken fun o => .of_operand hrule
  have hx : S.Sound (S.depth + level + 1) (S.Reads (.node info .currentMember [c]))
      (EvalM.asHierarchy (c.evaluate (0 :: a))) S.domain.hierarchy :=
    hchild.along H.regular (EvalM.Composed.asHierarchy (.given rfl))
  refine (hx.also fun s h hs hh => reads_currentMember H hat hdepth hcs hs hh).bind fun h hh => ?_
  exact (Sound.currentMember hh.2).bind fun m hm => .pure hm

/-! ## Kept results -/

theorem determines_of_covered (H : S.Apt) {os : List Nat} {inner : Calc}
    (hat : S.root.At S.address a level (.node info (.cache os) [inner]))
    (hx : S.Sound (S.depth + level + 1) (S.Reads inner) (inner.evaluate (0 :: a))
      (Value.Within S.domain)) : S.Determines os inner a level := by
  refine determines_of_reads H.regular ?_ (H.covered a level info os inner hat) hx
  obtain ⟨inner', -, rfl⟩ := (hat.every H.formed).self.cache os rfl
  intro o ho
  obtain ⟨h, hh, rfl⟩ := List.mem_map.1 ho
  obtain ⟨i, hi⟩ := List.getElem?_of_mem (List.mem_of_mem_filter hh)
  rw [H.regular.ordinal i h hi]
  exact (List.getElem?_eq_some_iff.1 hi).1

theorem sound_cache (H : S.Apt) {os : List Nat} {inner : Calc}
    (hat : S.root.At S.address a level (.node info (.cache os) [inner]))
    (hcs : S.Children (S.depth + level + 1) a [inner]) :
    S.Sound (S.depth + level + 1) (S.Reads (.node info (.cache os) [inner]))
      (Operation.run a (.cache os) (Calc.evaluations a 0 [inner])) (Value.Within S.domain) := by
  have hrule : (Operation.cache os).ruleIn S.nonEmpty info.rule = .anyChild :=
    (hat.every H.formed).self.rule
  have hinner := (hcs 0 inner rfl).mono fun v hv => hv.1
  refine (sound_cached hat (determines_of_covered H hat hinner) hinner).weaken ?_
  exact fun o => .of_child (.inl hrule) List.mem_cons_self

/-! ## All calculations -/

/-- Given sound evaluations of its children, a calculation does what its operation does soundly. -/
theorem sound_run (H : S.Apt) (hat : S.root.At S.address a level (.node info op cs))
    (hdepth : S.depth + level < S.env.config.maxEvalDepth)
    (hcs : S.Children (S.depth + level + 1) a cs) :
    S.Sound (S.depth + level + 1) (S.Reads (.node info op cs))
      (op.run a (Calc.evaluations a 0 cs)) (Value.Within S.domain) := by
  have hwf := (hat.every H.formed).self
  have hrule : info.rule = op.rule := hwf.rule
  cases hs : op.isScoped with
  | false => exact sound_unscoped H.regular H.within hrule hwf.within hs hcs
  | true =>
    cases op with
    | memberValue => exact sound_memberValue H.regular H.distinct hrule hcs
    | tupleValue =>
      obtain ⟨c, rfl⟩ := hwf.tupleValue rfl
      exact sound_tupleValue H.regular H.distinct hrule hcs
    | currentMember =>
      obtain ⟨c, rfl, -, -⟩ := hwf.currentMember rfl
      exact sound_currentMember H hat hdepth hcs
    | cache os =>
      obtain ⟨inner, rfl, -⟩ := hwf.cache os rfl
      exact sound_cache H hat hcs
    | crossJoin onDemand =>
      rcases cs with _ | ⟨c, _ | ⟨c', _ | ⟨c'', cs⟩⟩⟩
      · exact .throw
      · exact .throw
      · exact sound_crossJoin H.regular H.distinct onDemand hrule hcs
      · exact .throw
    | filter =>
      rcases cs with _ | ⟨c, _ | ⟨c', _ | ⟨c'', cs⟩⟩⟩
      · exact .throw
      · exact .throw
      · exact sound_filter H.regular H.distinct hrule hcs
      · exact .throw
    | order mode byText =>
      rcases cs with _ | ⟨c, _ | ⟨c', _ | ⟨c'', cs⟩⟩⟩
      · exact .throw
      · exact .throw
      · exact sound_order H.regular H.distinct mode byText hrule hcs
      · exact .throw
    | aggregate f =>
      rcases cs with _ | ⟨c, _ | ⟨c', _ | ⟨c'', cs⟩⟩⟩
      · exact .throw
      · exact .throw
      · exact sound_aggregate H.regular H.distinct f hrule hcs
      · exact .throw
    | _ => cases hs

theorem Apt.sound (H : S.Apt) {c : Calc} (hc : c.Formed S.env.cube S.domain True) {a : Address}
    {level : Nat} (hat : S.root.At S.address a level c) :
    S.Sound (S.depth + level) (S.Reads c) (c.evaluate a) (S.Typed c.type) := by
  induction hc generalizing a level with
  | @node info op cs _ _ ih =>
    have hcs : S.Children (S.depth + level + 1) a cs := fun j c hc =>
      ih c (List.mem_of_getElem? hc) (.child hat hc)
    have hx : S.Sound (S.depth + level) (S.Reads (.node info op cs))
        ((Calc.node info op cs).evaluate a) (Value.Within S.domain) := by
      rw [Calc.evaluate]
      rcases Nat.lt_or_ge (S.depth + level) S.env.config.maxEvalDepth with hdepth | hdepth
      · exact (sound_run H hat hdepth hcs).calculation a
      · exact .calculation_limited a hdepth
    -- a value is that of a fresh start, of which the types tell the truth
    refine hx.also fun s v hs hv => ?_
    rw [hx.agrees s _ hs (calm_fresh hs.coordinate) (.refl _ _)] at hv
    exact H.truthful a level _ hat s.context hs.coordinate v hv

theorem Apt.sound_root (H : S.Apt) :
    S.Sound S.depth (S.Reads S.root) (S.root.evaluate S.address) (S.Typed S.root.type) :=
  H.sound H.formed .root

end Scene

/-- A state from which an evaluation over the facts starts with nothing kept. -/
structure EvalState.Fresh (c : Cube) (facts : List Fact) (nonEmpty : Bool) (depth : Nat)
    (s : EvalState) : Prop where
  coordinate : c.Coordinate s.context
  nonEmpty : s.nonEmpty = nonEmpty
  depth : s.depth = depth
  reader : s.reader = .memory facts
  running : s.execution.stopped? = none
  cache : s.cache = ∅

theorem EvalState.Fresh.calm {S : Scene} {s : EvalState}
    (hs : s.Fresh S.env.cube S.facts S.nonEmpty S.depth) : S.Calm S.depth s :=
  ⟨.of_empty hs.coordinate hs.depth hs.reader hs.running hs.cache, hs.nonEmpty⟩

/-- A tree compiled from an expression as it was written, over the cube, is well-formed. -/
theorem Expr.compile_formed_of_unbound {cube : Cube} {source bound : Expr}
    {registry : ParameterRegistry} {styles : List ResultStyle} {tree : Calc}
    (hsource : source.isUnbound = true) (hw : source.Within (Domain.ofCube cube))
    (hvalid : ((source.validate .builtin).run registry).1 = .ok bound)
    (hcompile : bound.compile cube styles = .ok tree) :
    tree.Formed cube (Domain.ofCube cube) True :=
  compile_formed (validate_within hw hvalid) (fun _ => validate_wellTyped hsource hvalid) hcompile

/-- What a compiled tree does not depend on does not change its result, if the types of the tree tell
the truth. -/
theorem Calc.evaluate_independent {env : Environment} (hcube : env.cube.Built)
    (hdistinct : env.cube.HierarchiesDistinct) (henv : env.Within (Domain.ofCube env.cube))
    {source bound : Expr} {registry : ParameterRegistry} {styles : List ResultStyle} {tree : Calc}
    (hsource : source.isUnbound = true) (hw : source.Within (Domain.ofCube env.cube))
    (hvalid : ((source.validate .builtin).run registry).1 = .ok bound)
    (hcompile : bound.compile env.cube styles = .ok tree)
    {h : Hierarchy} (hh : h ∈ env.cube.hierarchies) (hdepends : tree.dependsOn h = false)
    {facts : List Fact} {a : Address} {depth : Nat}
    (htypes : Scene.Truthful ⟨env, facts, false, tree, a, depth⟩) {s t : EvalState}
    (hs : s.Fresh env.cube facts false depth) (ht : t.Fresh env.cube facts false depth)
    (hagree : ∀ o, o ≠ h.ordinal → s.context[o]? = t.context[o]?) :
    ((tree.evaluate a).exec env s).1 = ((tree.evaluate a).exec env t).1 := by
  have hregular := hcube.regular
  have hformed := Expr.compile_formed_of_unbound hsource hw hvalid hcompile
  let S : Scene := ⟨env, facts, false, tree, a, depth⟩
  have H : S.Apt := ⟨hregular, hdistinct, henv, hformed, htypes,
    Scene.covered_of_not_nonEmpty hregular hformed rfl⟩
  refine H.sound_root.agrees s t hs.calm ht.calm fun o ho => hagree o ?_
  rintro rfl
  obtain ⟨k, hk, hread⟩ := ho
  obtain ⟨i, hi⟩ := List.getElem?_of_mem hh
  rw [hregular.ordinal i h hi, hi] at hk
  cases hk
  rw [dependsIn_false, hdepends] at hread
  cases hread

/-! ## The cell of a measure -/

namespace Sample

/-- `[Measures].[Amount].Value` -/
def amountCell : Expr := .call "Value" .property [.member amount]

def amountBound : Expr :=
  match ((amountCell.validate .builtin).run []).1 with
  | .ok e => e
  | .error _ => .literal .null

def amountTree : Calc :=
  match amountBound.compile cube Expr.anyStyles with
  | .ok c => c
  | .error _ => .currentValue

def isCellOfMember : Calc → Bool
  | .node info .memberValue [.node info' (.constant (.member m)) []] =>
    info.type == .scalar && info'.type == .member (.ofMember m)
  | _ => false

theorem length_hierarchies : cube.hierarchies.length = 1 := by decide

def measures : Hierarchy := cube.hierarchies.get ⟨0, by rw [length_hierarchies]; decide⟩

theorem measures_mem : measures ∈ cube.hierarchies := List.get_mem _ _

theorem ordinal_measures : measures.ordinal = 0 := by decide

theorem amountCell_checks : ((amountCell.validate .builtin).run []).1.toOption.isSome = true ∧
    (amountBound.compile cube Expr.anyStyles).toOption.isSome = true ∧
      isCellOfMember amountTree = true ∧ amountTree.dependsOn measures = false := by
  decide +kernel

theorem validate_amountCell : ((amountCell.validate .builtin).run []).1 = .ok amountBound := by
  obtain ⟨e, he⟩ := exists_ok_of_isSome amountCell_checks.1
  rw [amountBound, he]

theorem compile_amountBound : amountBound.compile cube Expr.anyStyles = .ok amountTree := by
  obtain ⟨c, hc⟩ := exists_ok_of_isSome amountCell_checks.2.1
  rw [amountTree, hc]

theorem amountCell_within : amountCell.Within (Domain.ofCube cube) :=
  ⟨measure_mem (by decide), trivial⟩

theorem amountTree_formed : amountTree.Formed cube (Domain.ofCube cube) True :=
  Expr.compile_formed_of_unbound rfl amountCell_within validate_amountCell compile_amountBound

theorem cube_distinct : cube.HierarchiesDistinct := by
  unfold Cube.HierarchiesDistinct
  decide

theorem admits_ofMember {m : Member} (hm : (Domain.ofCube cube).member m) :
    (Scope.ofMember m).Admits cube m := by
  have hlevels : (cube.hierarchies.all fun h =>
      h.members.all fun m => m.level.hierarchy == h.uniqueName) = true := by decide
  obtain ⟨h, hh, hm⟩ := hm
  have hlevel := List.all_eq_true.1 (List.all_eq_true.1 hlevels h hh) m hm
  exact ⟨h, hh, hm, hlevel⟩

theorem types_of_isCellOfMember {c : Calc} (hshape : isCellOfMember c = true)
    (hc : c.Within (Domain.ofCube cube)) : c.Every fun c => c.type.named = [] ∨
      ∃ v, c.operation = .constant v ∧ v.Fits cube c.type := by
  unfold isCellOfMember at hshape
  split at hshape
  · rename_i info info' m
    rw [Bool.and_eq_true, beq_iff_eq, beq_iff_eq] at hshape
    obtain ⟨htype, htype'⟩ := hshape
    have hm : (Domain.ofCube cube).member m := (hc.child _ List.mem_cons_self).self
    have hfits : (Value.member m).Fits cube info'.type := by
      intro r hr
      rw [List.mem_singleton.1 hr, htype']
      exact .inr (.cons (admits_ofMember hm) .nil)
    -- the type of a cell names no hierarchies
    have hcell : info.type.named = [] := by
      rw [htype]
      rfl
    refine .node (.inl hcell) (List.forall_mem_singleton.2 ?_)
    exact .node (.inr ⟨.member m, rfl, hfits⟩) (List.forall_mem_nil _)
  · cases hshape

theorem amountTree_truthful (facts : List Fact) (depth : Nat) :
    Scene.Truthful ⟨environment, facts, false, amountTree, [0], depth⟩ := by
  have hshape := amountCell_checks.2.2.1
  refine Scene.truthful_of_every (types_of_isCellOfMember hshape ?_)
  exact amountTree_formed.mono fun _ h => h.within

def stateAt (m : Member) : EvalState := ⟨[m], false, [], 0, .memory [⟨[amount], 5⟩], {}, ∅, ∅⟩

theorem coordinate_singleton {k : Nat} (hk : k < 2) : cube.Coordinate [measure k] := by
  refine ⟨length_hierarchies.symm, fun i h hi m hm => ?_⟩
  obtain ⟨h', hh', hm'⟩ := measure_mem hk
  rcases i with _ | i
  · cases hm
    obtain ⟨j, hj⟩ := List.getElem?_of_mem hh'
    have hlt := (List.getElem?_eq_some_iff.1 hj).1
    rw [length_hierarchies] at hlt
    rw [show j = 0 by omega, hi] at hj
    cases hj
    exact hm'
  · cases hm

theorem fresh_stateAt {k : Nat} (hk : k < 2) :
    (stateAt (measure k)).Fresh cube [⟨[amount], 5⟩] false 0 :=
  ⟨coordinate_singleton hk, rfl, rfl, rfl, rfl, rfl⟩

theorem agree_stateAt (o : Nat) (ho : o ≠ measures.ordinal) :
    (stateAt amount).context[o]? = (stateAt cost).context[o]? := by
  rw [ordinal_measures] at ho
  rcases o with _ | o
  · exact absurd rfl ho
  · rfl

theorem environment_within : environment.Within (Domain.ofCube cube) := by
  rintro p ⟨⟩

/-- The cell at the amount is the same wherever the measures stand. -/
theorem evaluate_independent_measures :
    environment.cube.Built ∧ environment.cube.HierarchiesDistinct ∧
      environment.Within (Domain.ofCube environment.cube) ∧ amountCell.isUnbound = true ∧
      amountCell.Within (Domain.ofCube environment.cube) ∧
      ((amountCell.validate .builtin).run []).1 = .ok amountBound ∧
      amountBound.compile environment.cube Expr.anyStyles = .ok amountTree ∧
      measures ∈ environment.cube.hierarchies ∧ amountTree.dependsOn measures = false ∧
      Scene.Truthful ⟨environment, [⟨[amount], 5⟩], false, amountTree, [0], 0⟩ ∧
      (stateAt amount).Fresh environment.cube [⟨[amount], 5⟩] false 0 ∧
      (stateAt cost).Fresh environment.cube [⟨[amount], 5⟩] false 0 ∧
      (∀ o, o ≠ measures.ordinal → (stateAt amount).context[o]? = (stateAt cost).context[o]?) ∧
      ((amountTree.evaluate [0]).exec environment (stateAt amount)).1 =
        ((amountTree.evaluate [0]).exec environment (stateAt cost)).1 := by
  have hdepends := amountCell_checks.2.2.2
  have htypes := amountTree_truthful [⟨[amount], 5⟩] 0
  have hs : (stateAt amount).Fresh cube [⟨[amount], 5⟩] false 0 := fresh_stateAt (by decide)
  have ht : (stateAt cost).Fresh cube [⟨[amount], 5⟩] false 0 := fresh_stateAt (by decide)
  refine ⟨cube_built, cube_distinct, environment_within, rfl, amountCell_within,
    validate_amountCell, compile_amountBound, measures_mem, hdepends, htypes, hs, ht,
    agree_stateAt, ?_⟩
  exact Calc.evaluate_independent cube_built cube_distinct environment_within rfl amountCell_within
    validate_amountCell compile_amountBound measures_mem hdepends htypes hs ht agree_stateAt

end Sample

end Olap
