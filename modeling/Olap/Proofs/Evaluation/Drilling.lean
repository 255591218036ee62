import Olap.Proofs.Catalog.Drilling
import Olap.Proofs.Evaluation.Descendants
import Olap.Proofs.Evaluation.Ordering
import Olap.Proofs.Function.Arity

/-!
# `DrilldownMember`

A call of `DrilldownMember` with a set and the targets gives, for one member of the set after the other,
what is to be seen when this is drilled (`Expr.drilldown_shows`). With the word RECURSIVE it goes on
with what is found, and gives the descendants of the members of the set if there is nothing with
children that is not a target.
-/

set_option autoImplicit false

namespace Olap

/-! ## Loops that may be stopped -/

namespace EvalM

variable {env : Environment}

namespace Delivers

/-- The loop over a set drills one member after the other. -/
theorem drillDown (c : Cube) (targets : List Member) (recursive : Bool) (ms : List Member)
    (round : Nat) : Delivers env (EvalM.drillDown c targets recursive round ms)
      (.ok (ms.flatMap (c.drillDown targets recursive))) := by
  induction ms generalizing round with
  | nil => exact pure []
  | cons m ms ih => exact (poll round).bind_ok ((ih (round + 1)).bind_ok (pure _))

theorem memberList (ms : List Member) : Delivers env (EvalM.memberList ms)
    (Value.list <$> TupleList.ofMembers ms env.config.resultLimit) := by
  refine of_const fun s => ?_
  rw [EvalM.memberList, exec_bind_ok (a := env.config.resultLimit) (t := s) rfl, exec_bind_pure,
    exec_lift]

end Delivers

/-- Drilling a list of members that the first operand gives, with the targets that the second one
gives. -/
theorem exec_drilldownMember {x y : EvalM Value} {s t u : EvalState} {l k : TupleList}
    (hx : (asList x).exec env s = (.ok l, t)) (hy : (asList y).exec env t = (.ok k, u))
    (harity : l.arity = 1) (a : Address) (recursive : Bool) :
    (Operation.run a (.drilldownMember recursive) [x, y]).exec env s =
      (EvalM.drillDown env.cube k.members.toList recursive 0 l.members.toList >>=
        EvalM.memberList).exec env u := by
  show (asList x >>= _).exec env s = _
  rw [exec_bind_ok hx, exec_bind_ok hy, if_neg (not_not_intro harity)]
  rfl

end EvalM

/-! ## Calls -/

namespace Expr

open FunctionTable (Sole)
open ValidateM

/-- The word for the mode as an argument, if there is one. -/
def modeWord (word : Option String) : List Expr := word.toList.map fun w => .literal (.symbol w)

/-- `DrilldownMember(set, targets)`, or `DrilldownMember(set, targets, word)`. -/
def drilldown (set targets : Expr) (word : Option String) : Expr :=
  .call "DrilldownMember" .function (set :: targets :: modeWord word)

/-- From one registry of parameters to another one the expression is validated, and what it is bound to
compiles to the calculation of a list. -/
def CompilesToList (e : Expr) (c : Cube) (styles : List ResultStyle)
    (registry registry' : ParameterRegistry) (tree : Calc) : Prop :=
  ∃ x, (e.validate .builtin).run registry = (.ok x, registry') ∧ x.Passes .set ∧
    ((x.passedTo .set).toOperand c).list styles = .ok tree

/-- The overload of `DrilldownMember` with a parameter for the word, or without one. -/
def drilldownOverload (word : Option String) : Definition :=
  ⟨⟨"DrilldownMember", .function, .set, .set :: .set :: word.toList.map fun _ => .symbol⟩, "",
    ["RECURSIVE"], .declared, .drilldownMember⟩

theorem sole_drilldown (word : Option String) :
    FunctionTable.builtin.Sole "DrilldownMember" .function (drilldownOverload word) := by
  have h : FunctionTable.builtin.Sole "DrilldownMember" .function (drilldownOverload none) ∧
      FunctionTable.builtin.Sole "DrilldownMember" .function (drilldownOverload (some "")) := by
    decide +kernel
  cases word with
  | none => exact h.1
  | some w => exact h.2

variable {set targets x y : Expr} {word : Option String} {c : Cube} {styles : List ResultStyle}
  {registry between registry' : ParameterRegistry} {S T : Calc}

/-- The arguments of a call are passed to its overload: the sets are converted, the word stays. -/
theorem passes_drilldown (hx : x.Passes .set) (hy : y.Passes .set) (word : Option String) :
    List.Forall₂ Passes (x :: y :: modeWord word) (drilldownOverload word).signature.parameters ∧
      List.zipWith passedTo (x :: y :: modeWord word) (drilldownOverload word).signature.parameters =
        x.passedTo .set :: y.passedTo .set :: modeWord word := by
  cases word with
  | none => exact ⟨.cons hx (.cons hy .nil), rfl⟩
  | some w =>
    obtain ⟨hpasses, hpassed⟩ : (literal (.symbol w)).Passes .symbol ∧ _ := passes_self rfl
    refine ⟨.cons hx (.cons hy (.cons hpasses .nil)), ?_⟩
    exact congrArg (fun e => [x.passedTo .set, y.passedTo .set, e]) hpassed

theorem toUpper_recursive : "RECURSIVE".toUpper = "RECURSIVE" := by
  decide +kernel

/-- The one word that the overload knows may be written in any case. -/
theorem checkSymbols_drilldown (hword : ∀ w ∈ word, w.toUpper = "RECURSIVE") :
    (drilldownOverload word).checkSymbols (x.passedTo .set :: y.passedTo .set :: modeWord word) =
      .ok () := by
  have hset (e : Expr) : (e.passedTo .set).symbol? = none :=
    symbol?_eq_none fun heq => nomatch (passedTo_category e .set).symm.trans heq
  refine Definition.checkSymbols_of_known ?_
  refine List.forall_mem_cons.2 ⟨fun w hw => ?_, List.forall_mem_cons.2 ⟨fun w hw => ?_, ?_⟩⟩
  · rw [hset] at hw
    cases hw
  · rw [hset] at hw
    cases hw
  · intro e he w hw
    obtain ⟨w', hw', rfl⟩ := List.mem_map.1 he
    cases hw
    refine ⟨"RECURSIVE", List.mem_cons_self, ?_⟩
    rw [toUpper_recursive, hword w (Option.mem_toList.1 hw')]

/-- A call is validated if its sets are and can be passed as such. -/
theorem validate_drilldown (hword : ∀ w ∈ word, w.toUpper = "RECURSIVE")
    (hx : (set.validate .builtin).run registry = (.ok x, between))
    (hy : (targets.validate .builtin).run between = (.ok y, registry'))
    (hpx : x.Passes .set) (hpy : y.Passes .set) : ∃ d type, d.body = .drilldownMember ∧
      ((set.drilldown targets word).validate .builtin).run registry =
        (.ok (.bound d type (x.passedTo .set :: y.passedTo .set :: modeWord word)), registry') := by
  have hargs : (validateAll .builtin (set :: targets :: modeWord word)).run registry =
      (.ok (x :: y :: modeWord word), registry') := by
    have hwords : (validateAll .builtin (modeWord word)).run registry' =
        (.ok (modeWord word), registry') := by
      cases word <;> rfl
    exact validateAll_cons_ok.2 ⟨x, _, between, hx, validateAll_cons_ok.2
      ⟨y, _, registry', hy, hwords, rfl⟩, rfl⟩
  have hlength : (x :: y :: modeWord word).length =
      (drilldownOverload word).signature.parameters.length := by
    cases word <;> rfl
  obtain ⟨hpasses, hpassed⟩ := passes_drilldown hpx hpy word
  obtain ⟨description, hbind⟩ := (sole_drilldown word).exists_bind_iff
  let passed : List Expr := x.passedTo .set :: y.passedTo .set :: modeWord word
  let type : ExprType := (drilldownOverload word).resultType (passed.map Expr.type)
  have hbound : FunctionTable.builtin.bind "DrilldownMember" .function (x :: y :: modeWord word) =
      .ok (.bound { drilldownOverload word with description } type passed) := by
    refine (hbind _ _ hlength).2 ⟨hpasses, ?_, ?_⟩
    · rw [hpassed]
      exact checkSymbols_drilldown hword
    · rw [hpassed]
  exact ⟨_, _, rfl, validate_call_ok.2 ⟨_, hargs, hbound⟩⟩

/-- A call with a word compiles to a walk that goes on, one without to a walk that does not. -/
theorem compile_drilldown {d : Definition} (hd : d.body = .drilldownMember) (type : ExprType)
    (word : Option String) (hS : (x.toOperand c).list styles = .ok S)
    (hT : (y.toOperand c).list styles = .ok T) :
    ∃ info, (Expr.bound d type (x :: y :: modeWord word)).compile c styles =
      .ok (.node info (.drilldownMember word.isSome) [S, T]) := by
  let call : BoundCall := ⟨d, type, operands c (x :: y :: modeWord word)⟩
  have hword : call.word? 2 = .ok (word.map String.toUpper) := by
    cases word <;> rfl
  refine ⟨((Calc.plain "DrilldownMember" type (.drilldownMember word.isSome) [S, T]).withRule
    .butDepends).info, ?_⟩
  show call.compile c styles = _
  rw [BoundCall.compile, hd]
  show call.drilldownMember styles = _
  rw [BoundCall.drilldownMember, hword]
  show ((x.toOperand c).list styles >>= fun S => (y.toOperand c).list styles >>= fun T => _) = _
  rw [hS, hT]
  cases word <;> rfl

end Expr

/-! ## What a call shows -/

/-- Members are told by their unique names. Where no two members share one, a member is among others of
the cube if it is one of them. -/
theorem Cube.MembersDistinct.isAmong_iff {c : Cube} (hc : c.MembersDistinct) {targets : List Member}
    (htargets : ∀ n ∈ targets, ∃ k ∈ c.hierarchies, n ∈ k.members) {h : Hierarchy}
    (hh : h ∈ c.hierarchies) {m : Member} (hm : m ∈ h.members) :
    m.isAmong targets = true ↔ m ∈ targets := by
  rw [Member.isAmong, List.any_eq_true]
  constructor
  · rintro ⟨n, hn, hsame⟩
    obtain ⟨k, hk, hn'⟩ := htargets n hn
    obtain rfl : n = m := hc k hk n hn' h hh m hm (eq_of_beq hsame)
    exact hn
  · intro hmem
    exact ⟨m, hmem, beq_self_eq_true m.uniqueName⟩

theorem Calc.frame_of_asList {env : Environment} {S : Calc} {a : Address} {s t : EvalState}
    {l : TupleList} (h : (EvalM.asList (S.evaluate a)).exec env s = (.ok l, t)) : s.Frame t := by
  have hstate : ((S.evaluate a).exec env s).2 = t :=
    congrArg Prod.snd ((EvalM.exec_bind_lift (S.evaluate a) Value.toList).symm.trans h)
  rw [← hstate]
  exact S.evaluate_frame a env s

/-- The calculation of the walks gives what they find, unless the execution has to stop. -/
theorem Calc.evaluate_drilldown {env : Environment} {info : CalcInfo} {recursive : Bool} {S T : Calc}
    {a : Address} {s t u : EvalState} {l k : TupleList}
    (hl : (EvalM.asList (S.evaluate (0 :: a))).exec env (EvalM.entered s) = (.ok l, t))
    (hk : (EvalM.asList (T.evaluate (1 :: a))).exec env t = (.ok k, u)) (harity : l.arity = 1) :
    let found := l.members.toList.flatMap (env.cube.drillDown k.members.toList recursive)
    let result := (((Calc.node info (.drilldownMember recursive) [S, T]).evaluate a).exec env s).1
    Value.Lists env.config.resultLimit found result ∨
      ∃ e, s.execution.stopped? = some e ∧ result = .error e := by
  intro found result
  have hdepth : s.depth < env.config.maxEvalDepth := by
    by_contra hdeep
    have hlevel : env.config.maxEvalDepth ≤ (EvalM.entered s).depth :=
      Nat.le_succ_of_le (Nat.not_lt.1 hdeep)
    rw [EvalM.asList, EvalM.exec_bind_error (S.exec_evaluate_limited (0 :: a) hlevel)] at hl
    cases hl
  have hresult : result = ((EvalM.drillDown env.cube k.members.toList recursive 0 l.members.toList >>=
      EvalM.memberList).exec env u).1 := by
    show ((Calc.evaluate a (.node info _ [S, T])).exec env s).1 = _
    rw [Calc.evaluate, EvalM.exec_calculation a _ hdepth, Calc.evaluations, Calc.evaluations,
      Calc.evaluations, EvalM.exec_drilldownMember hl hk harity]
  have hstopped : u.execution.stopped? = s.execution.stopped? :=
    ((Calc.frame_of_asList hl).trans (Calc.frame_of_asList hk)).stopped?
  have hloop : EvalM.Delivers env _ _ :=
    (EvalM.Delivers.drillDown env.cube k.members.toList recursive l.members.toList 0).bind_ok
      (.memberList found)
  obtain ⟨checks, hfound | ⟨e, he, hstop⟩⟩ := hloop u
  · rw [hresult, hfound]
    exact .inl (Value.lists_ofMembers _ found)
  · rw [hresult, hstop]
    exact .inr ⟨e, hstopped ▸ he, rfl⟩

/-- A call of `DrilldownMember` is valid and compiles if its sets do. In a cube that has been built, if
the one gives a list of members and the other one the targets, it gives for each member of the list in
turn what is to be seen when this is drilled, unless these are more members than the limit on results
or the execution has to stop. The list is a part of what is given, in its order. A walk that goes on
shows all descendants of a member if everything in the hierarchy that has children is a target. -/
theorem Expr.drilldown_shows {env : Environment} (hc : env.cube.Built) {set targets : Expr}
    {word : Option String} (hword : ∀ w ∈ word, w.toUpper = "RECURSIVE") {styles : List ResultStyle}
    {registry between registry' : ParameterRegistry} {S T : Calc}
    (hset : set.CompilesToList env.cube styles registry between S)
    (htargets : targets.CompilesToList env.cube styles between registry' T) :
    ∃ bound info,
      ((set.drilldown targets word).validate .builtin).run registry = (.ok bound, registry') ∧
      bound.compile env.cube styles = .ok (.node info (.drilldownMember word.isSome) [S, T]) ∧
      ∀ (a : Address) (s t u : EvalState) (l k : TupleList) (home : Member → Hierarchy),
        (EvalM.asList (S.evaluate (0 :: a))).exec env (EvalM.entered s) = (.ok l, t) →
          (EvalM.asList (T.evaluate (1 :: a))).exec env t = (.ok k, u) → l.arity = 1 →
          (∀ m ∈ l.members, home m ∈ env.cube.hierarchies ∧ m ∈ (home m).members) →
            let among := k.members.toList
            let shown := l.members.toList.flatMap fun m => (home m).drilled among word.isSome m
            let result :=
              (((Calc.node info (.drilldownMember word.isSome) [S, T]).evaluate a).exec env s).1
            (Value.Lists env.config.resultLimit shown result ∨
              ∃ e, s.execution.stopped? = some e ∧ result = .error e) ∧
            l.members.toList.Sublist shown ∧
            (∀ m ∈ l.members,
              (∀ x ∈ (home m).members, (home m).children x ≠ [] → x.isAmong among = true) →
                (DescendantsCall.whole.expr m).GivesMembers env.cube
                  ((home m).drilled among true m)) ∧
            (env.cube.MembersDistinct →
              (∀ n ∈ among, ∃ h ∈ env.cube.hierarchies, n ∈ h.members) →
                ∀ h ∈ env.cube.hierarchies, ∀ m ∈ h.members,
                  (m.isAmong among = true ↔ m ∈ among)) := by
  obtain ⟨x, hx, hpx, hS⟩ := hset
  obtain ⟨y, hy, hpy, hT⟩ := htargets
  obtain ⟨d, type, hd, hvalid⟩ := validate_drilldown hword hx hy hpx hpy
  obtain ⟨info, hcompile⟩ := compile_drilldown hd type word hS hT
  refine ⟨_, info, hvalid, hcompile, ?_⟩
  intro a s t u l k home hl hk harity hhome among shown result
  have hmembers : ∀ m ∈ l.members.toList, home m ∈ env.cube.hierarchies ∧ m ∈ (home m).members :=
    fun m hm => hhome m (Array.mem_toList_iff.1 hm)
  have hshown : l.members.toList.flatMap (env.cube.drillDown among word.isSome) = shown :=
    List.flatMap_congr fun m hm =>
      hc.drillDown_eq (hmembers m hm).1 (hmembers m hm).2 among word.isSome
  refine ⟨?_, ?_, fun m hm hall => ?_, fun hdistinct hamong h hh m hm => ?_⟩
  · rw [← hshown]
    exact Calc.evaluate_drilldown hl hk harity
  · rw [← hshown]
    exact Member.sublist_flatMap fun m hm =>
      hc.exists_drillDown (hmembers m hm).1 (hmembers m hm).2 among word.isSome
  · obtain ⟨hh, hm⟩ := hhome m hm
    rw [← hc.drillDown_eq hh hm, hc.drillDown_all hh hm among hall]
    exact DescendantsCall.evaluate_walk (hc.levelled hh) hm trivial rfl
  · exact hdistinct.isAmong_iff hamong hh hm

namespace Sample

/-- `{[Time].[All Times], [Time].[Fiscal].[All Fiscals], [Time].[All Times]}` -/
def topDates : Expr :=
  .call "\x7b\x7d" .braces [.member (date 0), .member (date 3), .member (date 0)]

/-- `{[Time].[Fiscal].[All Fiscals], [Time].[All Times]}` -/
def openedDates : Expr := .call "\x7b\x7d" .braces [.member (date 3), .member (date 0)]

/-- What is to be seen of the dates that one calculation gives when they are drilled with those that
another one gives. -/
def shownDates (S T : Calc) : List String :=
  match (EvalM.asList (S.evaluate [0, 0])).exec datesEnvironment (EvalM.entered datesStart) with
  | (.ok l, t) =>
    match ((EvalM.asList (T.evaluate [1, 0])).exec datesEnvironment t).1 with
    | .ok k =>
      if l.arity = 1 then
        (l.members.toList.flatMap fun m => (calendarCube.hierarchyOf? m).elim []
          (·.drilled k.members.toList true m)).map (·.uniqueName)
      else []
    | .error _ => []
  | (.error _, _) => []

/-- A set of dates as a calculation of a list. -/
def datesList (e : Expr) : Except CalcError Calc := ((bindings e).toOperand calendarCube).list [.list]

def openNames : List String :=
  ["[Time].[All Times]", "[Time].[1997]", "[Time].[Fiscal].[All Fiscals]", "[Time].[Fiscal].[1997]",
    "[Time].[All Times]", "[Time].[1997]"]

theorem drilledDates_checks :
    (isValidSet topDates = true ∧ ((topDates.validate .builtin).run []).2.isEmpty = true) ∧
      (isValidSet openedDates = true ∧ ((openedDates.validate .builtin).run []).2.isEmpty = true) ∧
        "Recursive".toUpper = "RECURSIVE" ∧
          (do return shownDates (← datesList topDates) (← datesList openedDates)).toOption =
            some openNames := by
  decide +kernel

theorem datesList_compiles {e : Expr} {S : Calc} (hvalid : isValidSet e = true)
    (hregistry : ((e.validate .builtin).run []).2.isEmpty = true) (hS : datesList e = .ok S) :
    e.CompilesToList datesEnvironment.cube [.list] [] [] S := by
  obtain ⟨hbound, hset⟩ := validate_bindings hvalid
  obtain ⟨hpasses, hpassed⟩ := Expr.passes_self (p := .set) (eq_of_beq (ExprType.isSet_eq _ ▸ hset))
  refine ⟨bindings e, Prod.ext hbound (List.isEmpty_iff.1 hregistry), hpasses, ?_⟩
  rw [hpassed, cube_datesEnvironment]
  exact hS

theorem drilledDates_within :
    (topDates.drilldown openedDates (some "Recursive")).Within (Domain.ofCube calendarCube) :=
  ⟨⟨date_within (by decide), date_within (by decide), date_within (by decide), trivial⟩,
    ⟨date_within (by decide), date_within (by decide), trivial⟩, trivial, trivial⟩

/-- The top of one calendar, the top of the other one, and the first one again come with the years, but
not with the quarter, as the years are no targets. -/
theorem drilldown_shows_dates : datesEnvironment.cube.Built ∧
    "Recursive".toUpper = "RECURSIVE" ∧ ∃ (S T tree : Calc) (bound : Expr) (l out : TupleList),
      topDates.CompilesToList datesEnvironment.cube [.list] [] [] S ∧
      openedDates.CompilesToList datesEnvironment.cube [.list] [] [] T ∧
      ((topDates.drilldown openedDates (some "Recursive")).validate .builtin).run [] =
        (.ok bound, []) ∧
      bound.compile datesEnvironment.cube [.list] = .ok tree ∧
      ((EvalM.asList (S.evaluate [0, 0])).exec datesEnvironment (EvalM.entered datesStart)).1 = .ok l ∧
      l.arity = 1 ∧ ((tree.evaluate [0]).exec datesEnvironment datesStart).1 = .ok (.list out) ∧
      out.rows.map (·.map (·.uniqueName)) = openNames.map fun n => [n] := by
  obtain ⟨⟨hvalid, hregistry⟩, ⟨hvalid', hregistry'⟩, hupper, hshown⟩ := drilledDates_checks
  rcases hS : datesList topDates with e | S
  · rw [hS] at hshown
    cases hshown
  rcases hT : datesList openedDates with e | T
  · rw [hS, hT] at hshown
    cases hshown
  have hset := datesList_compiles hvalid hregistry hS
  have htargets := datesList_compiles hvalid' hregistry' hT
  have hword : ∀ w ∈ some "Recursive", w.toUpper = "RECURSIVE" := by
    rintro w ⟨⟩
    exact hupper
  obtain ⟨bound, info, hbound, hcompile, hruns⟩ :=
    Expr.drilldown_shows datesEnvironment_built hword hset htargets
  have hnames : shownDates S T = openNames := by
    rw [hS, hT] at hshown
    exact Option.some.inj hshown
  rw [shownDates] at hnames
  rcases hl : (EvalM.asList (S.evaluate [0, 0])).exec datesEnvironment (EvalM.entered datesStart)
    with ⟨e | l, t⟩
  · rw [hl] at hnames
    cases hnames
  rcases hk : (EvalM.asList (T.evaluate [1, 0])).exec datesEnvironment t with ⟨e | k, u⟩
  · simp only [hl, hk] at hnames
    cases hnames
  simp only [hl, hk] at hnames
  split at hnames
  case isFalse => cases hnames
  rename_i harity
  have hSwithin : S.Within (Domain.ofCube calendarCube) := by
    rw [cube_datesEnvironment] at hcompile
    have hformed := Expr.compile_formed_of_unbound rfl drilledDates_within
      (congrArg Prod.fst hbound) hcompile
    exact (hformed.child S List.mem_cons_self).mono fun _ h => h.within
  have hl' : l.Within (Domain.ofCube calendarCube) := list_within hSwithin hl
  obtain ⟨first, -⟩ := Option.isSome_iff_exists.1 sortedDates_checks.2.2.2.2
  let home (m : Member) : Hierarchy := (calendarCube.hierarchyOf? m).getD first
  have hhome : ∀ m ∈ l.members, home m ∈ calendarCube.hierarchies ∧ m ∈ (home m).members ∧
      calendarCube.hierarchyOf? m = some (home m) := by
    intro m hm
    obtain ⟨h, hh, hmh⟩ := hl' m hm
    have hfound := calendarCube_built.regular.hierarchyOf?_eq hh hmh
    have hsame : home m = h := congrArg (Option.getD · first) hfound
    rw [hsame]
    exact ⟨hh, hmh, hfound⟩
  obtain ⟨hout, -⟩ := hruns [0] datesStart t u l k home hl hk harity fun m hm => by
    rw [cube_datesEnvironment]
    exact ⟨(hhome m hm).1, (hhome m hm).2.1⟩
  obtain ⟨hlists, -⟩ | ⟨e, ⟨⟩, -⟩ := hout
  obtain ⟨out, hout, hrows⟩ := hlists nofun
  refine ⟨datesEnvironment_built, hupper, S, T, _, bound, l, out, hset, htargets, hbound, hcompile,
    congrArg Prod.fst hl, harity, hout, ?_⟩
  have hshown : (l.members.toList.flatMap fun m => (calendarCube.hierarchyOf? m).elim []
      (·.drilled k.members.toList true m)) =
        l.members.toList.flatMap fun m => (home m).drilled k.members.toList true m := by
    refine List.flatMap_congr fun m hm => ?_
    rw [(hhome m (Array.mem_toList_iff.1 hm)).2.2]
    rfl
  rw [hrows, List.map_map, ← hnames, hshown, List.map_map]
  rfl

end Sample

end Olap
