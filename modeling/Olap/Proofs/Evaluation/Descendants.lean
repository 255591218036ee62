import Olap.Proofs.Catalog.Levels
import Olap.Proofs.Evaluation.Returns
import Olap.Proofs.Function.Categories
import Olap.Proofs.Tuple.Legal

/-!
# Descendants of a member

A call for the descendants of a member names a target, a level or a distance, and a flag, or leaves
them out (`DescendantsCall`). In a cube that has been built every such call gives, in pre-order and
once each, the members at or below the given one that the flag selects by their depth
(`DescendantsCall.evaluate_selected`).
-/

set_option autoImplicit false

namespace Olap

/-! ## Sets of members -/

/-- The expression gives a set of members of a cube. It is valid and compiles, and where calculations may
be nested once more it evaluates to the list of the members, unless these are more than the limit on
results. -/
def Expr.GivesMembers (e : Expr) (c : Cube) (ms : List Member) : Prop :=
  ∀ registry : ParameterRegistry, ∃ bound, (e.validate .builtin).run registry = (.ok bound, registry) ∧
    ∀ styles : List ResultStyle, ∃ tree, bound.compile c styles = .ok tree ∧
      ∀ (env : Environment) (s : EvalState) (address : Address), env.cube = c →
        s.depth + 1 < env.config.maxEvalDepth →
        ((0 < env.config.resultLimit → ms.length ≤ env.config.resultLimit) →
          ∃ l, ((tree.evaluate address).exec env s).1 = .ok (.list l) ∧
            l.rows = ms.map fun m => [m]) ∧
        (0 < env.config.resultLimit → env.config.resultLimit < ms.length →
          ((tree.evaluate address).exec env s).1 =
            .error (.resourceLimitExceeded ms.length env.config.resultLimit))

/-- The result is the list of the members, or that these are more than the limit on results. -/
structure Value.Lists (limit : Nat) (ms : List Member) (r : Except CalcError Value) : Prop where
  within : (0 < limit → ms.length ≤ limit) →
    ∃ l, r = .ok (.list l) ∧ l.rows = ms.map fun m => [m]
  beyond : 0 < limit → limit < ms.length → r = .error (.resourceLimitExceeded ms.length limit)

theorem Value.lists_ofMembers (limit : Nat) (ms : List Member) :
    Value.Lists limit ms (Value.list <$> TupleList.ofMembers ms limit) := by
  refine ⟨fun hroom => ?_, fun hpos hlt => ?_⟩
  · have hlist := TupleList.ofMembers_eq_ok hroom
    obtain ⟨-, -, hrows⟩ := TupleList.ofMembers_ok hlist
    refine ⟨_, ?_, hrows⟩
    rw [hlist]
    rfl
  · rw [TupleList.ofMembers_eq_error hpos hlt]
    rfl

namespace EvalM.Returns

variable {env : Environment} {d : Nat} {x : EvalM Value} {argument : List (EvalM Value)} {m : Member}

theorem memberList (ms : List Member) : Returns env d (EvalM.memberList ms)
    (Value.list <$> TupleList.ofMembers ms env.config.resultLimit) :=
  .bind_ok resultLimit ((lift _).map Value.list)

/-! ## The target depth -/

theorem targetDepth_unbounded : Returns env d (EvalM.targetDepth .unbounded m []) (.ok m.depth) :=
  pure _

theorem targetDepth_level {l : Level} (hx : Returns env d x (.ok (.level l)))
    (hl : l.hierarchy = m.hierarchy) :
    Returns env d (EvalM.targetDepth .level m [x]) (.ok l.depth) := by
  refine hx.asLevel.bind_ok ?_
  rw [hl, bne_self_eq_false]
  exact pure _

theorem targetDepth_distance {i : Int64} (hx : Returns env d x (.ok (.int i))) (hi : 0 ≤ i.toInt) :
    Returns env d (EvalM.targetDepth .distance m [x]) (.ok (m.depth + i.toInt.toNat)) := by
  refine hx.asInteger.bind_ok ?_
  have hsign : ¬ ((some i).getD 0).toInt < 0 := Int.not_lt.2 hi
  rw [if_neg hsign]
  exact pure _

theorem descendants (a : Address) (target : DescendantsTarget) (flag : DescendantsFlag) {depth : Nat}
    (hx : Returns env d x (.ok (.member m)))
    (hdepth : Returns env d (EvalM.targetDepth target m argument) (.ok depth)) :
    Returns env d (Operation.run a (.descendants target flag) (x :: argument))
      (Value.list <$> TupleList.ofMembers (env.cube.descendants m depth flag)
        env.config.resultLimit) :=
  hx.asMember.bind_ok (hdepth.bind_ok (read.bind_ok (memberList _)))

end EvalM.Returns

/-- An expression gives a set of members if its operation makes their list, whatever the state. -/
theorem Expr.GivesMembers.intro {e : Expr} {c : Cube} {ms : List Member}
    (h : ∀ registry : ParameterRegistry, ∃ bound,
      (e.validate .builtin).run registry = (.ok bound, registry) ∧
        ∀ styles : List ResultStyle, ∃ info op cs,
          bound.compile c styles = .ok (.node info op cs) ∧
            ∀ (env : Environment) (a : Address) (d : Nat), env.cube = c →
              d < env.config.maxEvalDepth →
              EvalM.Returns env d (op.run a (Calc.evaluations a 0 cs))
                (Value.list <$> TupleList.ofMembers ms env.config.resultLimit)) :
    e.GivesMembers c ms := by
  intro registry
  obtain ⟨bound, hvalid, hcompiles⟩ := h registry
  refine ⟨bound, hvalid, fun styles => ?_⟩
  obtain ⟨info, op, cs, htree, hruns⟩ := hcompiles styles
  refine ⟨_, htree, fun env s address hc hs => ?_⟩
  have hreturns : (Calc.node info op cs).Returns env 1
      (Value.list <$> TupleList.ofMembers ms env.config.resultLimit) :=
    Calc.returns_node fun a d hd => hruns env a d hc hd
  rw [hreturns.fst_exec address hs]
  obtain ⟨hwithin, hbeyond⟩ := Value.lists_ofMembers env.config.resultLimit ms
  exact ⟨hwithin, hbeyond⟩

/-! ## Calls -/

/-- What a call for descendants says apart from the member: where the target depth is, and a word for the
flag. -/
inductive DescendantsCall where
  | whole
  | level (l : Level) (word : Option String)
  | distance (i : Int64) (word : Option String)

namespace DescendantsCall

def ofWord (word : Option String) : List Expr := word.toList.map fun w => .literal (.symbol w)

def arguments : DescendantsCall → List Expr
  | whole => []
  | level l word => .level l :: ofWord word
  | distance i word => .literal (.integer i) :: ofWord word

def expr (call : DescendantsCall) (m : Member) : Expr :=
  .call "Descendants" .function (.member m :: call.arguments)

def target : DescendantsCall → DescendantsTarget
  | whole => .unbounded
  | level .. => .level
  | distance .. => .distance

def word? : DescendantsCall → Option String
  | whole => none
  | level _ word | distance _ word => word

/-- The flag for each of the words, in capital letters. -/
def flagFor? : String → Option DescendantsFlag
  | "SELF" => some .self
  | "AFTER" => some .after
  | "BEFORE" => some .before
  | "BEFORE_AND_AFTER" => some .beforeAndAfter
  | "SELF_AND_AFTER" => some .selfAndAfter
  | "SELF_AND_BEFORE" => some .selfAndBefore
  | "SELF_BEFORE_AFTER" => some .selfBeforeAfter
  | "LEAVES" => some .leaves
  | _ => none

/-- The flag that the call asks for: by its word, whose case does not matter, or the members at the
target depth, or all of them if the call has no target. -/
def flag? (call : DescendantsCall) : Option DescendantsFlag :=
  match call.word? with
  | some w => flagFor? w.toUpper
  | none => some (if call.target = .unbounded then .selfBeforeAfter else .self)

/-- The target depth, for a member. -/
def depth (m : Member) : DescendantsCall → Nat
  | whole => m.depth
  | level l _ => l.depth
  | distance i _ => m.depth + i.toInt.toNat

/-- The target is a level of the hierarchy, or a distance downwards. -/
def IsFor (h : Hierarchy) : DescendantsCall → Prop
  | whole => True
  | level l _ => l ∈ h.levels
  | distance i _ => 0 ≤ i.toInt

/-- The types of the arguments after the member, as far as they decide what the call is bound to. -/
def types (call : DescendantsCall) : List ExprType :=
  let words := call.word?.toList.map fun _ => ExprType.symbol
  match call with
  | whole => []
  | level .. => .level .unknown :: words
  | distance .. => .integer :: words

/-- The overload for parameters of given categories after the member. -/
def overload (categories : List Category) : Definition :=
  ⟨⟨"Descendants", .function, .set, .member :: categories⟩, "",
    DescendantsFlag.all.map DescendantsFlag.word, .declared, .descendants⟩

theorem cheapest_descendants :
    (FunctionTable.builtin.lookup "Descendants" .function).all Resolver.isFixed = true ∧
      ∀ ts ∈ [[], [.level .unknown], [.level .unknown, .symbol], [.integer], [.integer, .symbol]],
        (cheapest (FunctionTable.builtin.fits "Descendants" .function
            ((ExprType.member .unknown :: ts).map Expr.ofType))).map Definition.undescribed =
          [overload (ts.map ExprType.category)] := by
  decide +kernel

variable {call : DescendantsCall} {flag : DescendantsFlag} {m : Member}

theorem types_mem (call : DescendantsCall) : call.types ∈
    [[], [.level .unknown], [.level .unknown, .symbol], [.integer], [.integer, .symbol]] := by
  rcases call with _ | ⟨l, _ | w⟩ | ⟨i, _ | w⟩ <;> simp [types, word?]

theorem flagFor?_eq (w : String) : flagFor? w = DescendantsFlag.ofWord? w := by
  unfold flagFor?
  split
  case h_9 =>
    -- no flag has a word that is not listed
    refine (List.find?_eq_none.2 fun f _ heq => ?_).symm
    have hword : f.word = w := eq_of_beq heq
    cases f <;> exact absurd hword.symm (by assumption)
  all_goals decide

theorem word_of_ofWord? {w : String} (h : DescendantsFlag.ofWord? w = some flag) : flag.word = w :=
  eq_of_beq (List.find?_some (p := fun f : DescendantsFlag => f.word == w) h)

theorem toUpper_word (flag : DescendantsFlag) : flag.word.toUpper = flag.word := by
  cases flag <;> decide +kernel

/-- A word among the arguments is that for the flag. -/
theorem word?_of_symbol? {e : Expr} {w : String} (he : e ∈ Expr.member m :: call.arguments)
    (h : e.symbol? = some w) : call.word? = some w := by
  rcases call with _ | ⟨l, _ | v⟩ | ⟨i, _ | v⟩ <;>
    simp only [arguments, ofWord, Option.toList, List.map_cons, List.map_nil, List.mem_cons,
      List.not_mem_nil, or_false] at he
  · subst he
    cases h
  · rcases he with rfl | rfl <;> cases h
  · rcases he with rfl | rfl | rfl <;> cases h
    rfl
  · rcases he with rfl | rfl <;> cases h
  · rcases he with rfl | rfl | rfl <;> cases h
    rfl

theorem validate_expr (hflag : call.flag? = some flag) (registry : ParameterRegistry) :
    ∃ description type, ((call.expr m).validate .builtin).run registry =
      (.ok (.bound { overload (call.types.map ExprType.category) with description } type
        (.member m :: call.arguments)), registry) := by
  have hargs : (Expr.validateAll .builtin (.member m :: call.arguments)).run registry =
      (.ok (.member m :: call.arguments), registry) := by
    rcases call with _ | ⟨l, _ | w⟩ | ⟨i, _ | w⟩ <;> rfl
  have htypes : (Expr.member m :: call.arguments).map (·.type.category) =
      (ExprType.member .unknown :: call.types).map ExprType.category := by
    rcases call with _ | ⟨l, _ | w⟩ | ⟨i, _ | w⟩ <;> rfl
  have hwords : ∀ e ∈ Expr.member m :: call.arguments, ∀ word, e.symbol? = some word →
      ∃ r ∈ DescendantsFlag.all.map DescendantsFlag.word, r.toUpper = word.toUpper := by
    intro e he word hword
    rw [flag?, word?_of_symbol? he hword] at hflag
    dsimp only at hflag
    rw [flagFor?_eq] at hflag
    have hword := word_of_ofWord? hflag
    refine ⟨flag.word, List.mem_map_of_mem (List.mem_of_find?_eq_some hflag), ?_⟩
    rw [toUpper_word, hword]
  obtain ⟨hfixed, hcheapest⟩ := cheapest_descendants
  obtain ⟨description, h⟩ := Expr.validate_call_exact "Descendants" .function
    (.member .unknown :: call.types) (overload (call.types.map ExprType.category)) hargs hfixed
    htypes (hcheapest _ call.types_mem) rfl hwords
  exact ⟨description, _, h⟩

/-- The calculations of the target. -/
def compiled : DescendantsCall → List Calc
  | whole => []
  | level l _ => [.ofLevel l]
  | distance i _ => [.constant (.int i) .integer]

/-- The call compiles to the walk for its target and its flag. -/
theorem compile_bound (hflag : call.flag? = some flag) (description : String) (type : ExprType)
    (c : Cube) (styles : List ResultStyle) :
    (Expr.bound { overload (call.types.map ExprType.category) with description } type
        (.member m :: call.arguments)).compile c styles =
      .ok (.plain "Descendants" type (.descendants call.target flag) (.ofMember m :: call.compiled)) := by
  rw [Expr.compile]
  show BoundCall.descendants _ styles = _
  rcases call with _ | ⟨l, _ | w⟩ | ⟨i, _ | w⟩
  case whole | level.none | distance.none =>
    cases hflag
    rfl
  case level.some | distance.some =>
    have hflag : DescendantsFlag.ofWord? w.toUpper = some flag := (flagFor?_eq _).symm.trans hflag
    simp only [BoundCall.descendants, BoundCall.operand, BoundCall.word?, Expr.operands, arguments,
      ofWord, Option.toList, List.map_cons, List.getElem?_cons_zero, List.getElem?_cons_succ,
      Expr.symbol?, bind, Except.bind, hflag]
    rfl

theorem returns_depth {env : Environment} {d : Nat} (hd : d < env.config.maxEvalDepth) (a : Address)
    {h : Hierarchy} (hlevelled : h.Levelled) (hm : m ∈ h.members) (hfor : call.IsFor h) :
    EvalM.Returns env d (EvalM.targetDepth call.target m (Calc.evaluations a 1 call.compiled))
      (.ok (call.depth m)) := by
  cases call with
  | whole => exact .targetDepth_unbounded
  | level l word =>
    refine .targetDepth_level (Calc.returns_constant (.level l) _ (1 :: a) d hd) ?_
    exact (hlevelled.hierarchy l hfor).trans (hlevelled.hierarchy_eq hm).symm
  | distance i word =>
    exact .targetDepth_distance (Calc.returns_constant (.int i) _ (1 :: a) d hd) hfor

/-- A call for descendants gives what the walk through the subtree of the member selects. -/
theorem evaluate_walk {c : Cube} {h : Hierarchy} (hlevelled : h.Levelled) (hm : m ∈ h.members)
    (hfor : call.IsFor h) (hflag : call.flag? = some flag) :
    (call.expr m).GivesMembers c (c.descendants m (call.depth m) flag) := by
  refine .intro fun registry => ?_
  obtain ⟨description, type, hvalid⟩ := validate_expr hflag registry
  refine ⟨_, hvalid, fun styles => ⟨_, _, _, compile_bound hflag description type c styles, ?_⟩⟩
  rintro env a d rfl hd
  exact .descendants a call.target flag (Calc.returns_constant (.member m) _ (0 :: a) d hd)
    (returns_depth hd a hlevelled hm hfor)

/-- In a cube that has been built a call for descendants, with a level of the member's hierarchy or a
distance downwards or without a target, gives what the walk through the member's subtree selects. These
are, in pre-order and once each, the members at or below the given one that the flag selects. -/
theorem evaluate_selected {c : Cube} (hc : c.Built) {h : Hierarchy} (hh : h ∈ c.hierarchies)
    (hm : m ∈ h.members) (hfor : call.IsFor h) (hflag : call.flag? = some flag) :
    (call.expr m).GivesMembers c (c.descendants m (call.depth m) flag) ∧
      (c.descendants m (call.depth m) flag).Sublist h.members ∧
      (c.descendants m (call.depth m) flag).Nodup ∧
      ∀ x, x ∈ c.descendants m (call.depth m) flag ↔
        x ∈ h.members ∧ (x = m ∨ m ∈ x.ancestors) ∧
          flag.Selects x.depth (call.depth m) (h.children x = []) := by
  refine ⟨evaluate_walk (hc.levelled hh) hm hfor hflag, ?_⟩
  exact hc.descendants_selected hh hm (call.depth m) flag

end DescendantsCall

namespace Sample

/-- What is below a year. -/
theorem descendants_after : ∃ (c : Cube) (h : Hierarchy) (m : Member) (selected : List Member),
    c.Built ∧ h ∈ c.hierarchies ∧ m ∈ h.members ∧
      ((DescendantsCall.distance 0 (some "after")).expr m).GivesMembers c selected ∧
      m.name = "1997" ∧ selected.map (·.name) = ["Q1"] := by
  have hruns : (quarterSteps.foldl CubeBuilder.take (.empty "Sales")).build.toOption.map (fun c =>
      c.hierarchies.head?.map fun h => h.members.head?.map fun m =>
        (m.name, (c.descendants m m.depth .after).map (·.name))) =
      some (some (some ("1997", ["Q1"]))) := by
    decide +kernel
  obtain ⟨c, hc, hfirst⟩ := exists_ok_of_map hruns
  obtain ⟨h, hh, hmembers⟩ := Option.map_eq_some_iff.1 hfirst
  obtain ⟨m, hm, hnames⟩ := Option.map_eq_some_iff.1 hmembers
  obtain ⟨hname, hselected⟩ := Prod.mk.inj hnames
  have hbuilt : c.Built := ⟨"Sales", quarterSteps, hc⟩
  have hflag : (DescendantsCall.distance 0 (some "after")).flag? = some .after := by decide +kernel
  have hfor : (DescendantsCall.distance 0 (some "after")).IsFor h := by
    show 0 ≤ (0 : Int64).toInt
    decide
  obtain ⟨hgives, -⟩ := DescendantsCall.evaluate_selected hbuilt (List.mem_of_head? hh)
    (List.mem_of_head? hm) hfor hflag
  exact ⟨c, h, m, _, hbuilt, List.mem_of_head? hh, List.mem_of_head? hm, hgives, hname, hselected⟩

end Sample

end Olap
