import Olap.Proofs.Calc.Braces
import Olap.Proofs.Evaluation.Belonging
import Olap.Proofs.Evaluation.Locality
import Olap.Proofs.Evaluation.Replacing

/-!
# Sets of one element

A built-in call takes a member or a tuple for a set by a conversion; braces around the argument make the
same set of it, as long as its value is a tuple with the columns of its type (`Calc.exec_taken`). So the
call goes alike with and without the braces, from every state, wherever the set is evaluated
(`Operation.SetPlace.exec_run`, `Expr.evaluate_braces`). They part where the value is null, as the parent
of a root is: the conversion refuses it, and the braces leave it out (`Calc.exec_taken_null`). Over a
cube whose names can be read nothing else makes a difference (`Expr.exec_isRow`).
-/

set_option autoImplicit false

namespace Olap

/-! ## Actions that start alike -/

namespace EvalM

variable {env : Environment} {s t : EvalState} {α β : Type}

theorem exec_bind_after {x : EvalM α} {f g : α → EvalM β} (hx : (x.exec env s).2 = t)
    (h : ∀ a, (x.exec env s).1 = .ok a → (f a).exec env t = (g a).exec env t) :
    (x >>= f).exec env s = (x >>= g).exec env s := by
  rcases hs : x.exec env s with ⟨e | a, t'⟩
  · rw [exec_bind_error hs, exec_bind_error hs]
  · rw [hs] at hx h
    obtain rfl : t' = t := hx
    rw [exec_bind_ok hs, exec_bind_ok hs, h a rfl]

theorem exec_bind_assoc {γ : Type} (x : EvalM α) (f : α → EvalM β) (g : β → EvalM γ) :
    (x >>= f >>= g).exec env s = (x >>= fun a => f a >>= g).exec env s := by
  rcases hs : x.exec env s with ⟨e | a, t⟩
  · rw [exec_bind_error (exec_bind_error hs), exec_bind_error hs]
  · rw [exec_bind, exec_bind_ok hs, exec_bind_ok hs, exec_bind]

/-- Looking at a value leaves the state that its evaluation leaves. -/
theorem state_asBool (x : EvalM Value) : ((asBool x).exec env s).2 = (x.exec env s).2 :=
  congrArg Prod.snd (exec_bind_lift x Value.toBool)

theorem state_asList (x : EvalM Value) : ((asList x).exec env s).2 = (x.exec env s).2 :=
  congrArg Prod.snd (exec_bind_lift x Value.toList)

theorem state_asSource (x : EvalM Value) : ((asSource x).exec env s).2 = (x.exec env s).2 :=
  congrArg Prod.snd (exec_bind_lift x Value.toSource)

end EvalM

open EvalM

/-! ## Operands that are sets -/

/-- The state in which an operand is evaluated that stands behind others: if there are any, the first
of them has been evaluated. -/
def EvalState.behind (env : Environment) (a : Address) (before : List Calc) (s : EvalState) :
    EvalState :=
  match before with
  | [] => s
  | c :: _ => ((c.evaluate (0 :: a)).exec env s).2

variable {env : Environment} {s : EvalState} {a : Address}

namespace EvalState

theorem frame_behind (env : Environment) (a : Address) (before : List Calc) (s : EvalState) :
    s.Frame (s.behind env a before) := by
  cases before with
  | nil => exact .refl s
  | cons c before => exact c.evaluate_frame (0 :: a) env s

/-- What is kept for the operands before is not kept for the one behind them. -/
theorem Unused.behind (h : s.Unused a) (before : List Calc) :
    (s.behind env a before).Unused (before.length :: a) := by
  intro k v hv hbelow
  cases before with
  | nil => exact h k v hv ((List.suffix_cons _ a).trans hbelow)
  | cons c before =>
    have hother : ¬ (0 :: a) <:+ k.1 := Address.not_below (Nat.succ_ne_zero _) hbelow
    change ((c.evaluate (0 :: a)).exec env s).2.cache[k]? = some v at hv
    rw [(c.evaluate_local env (0 :: a)).below s k hother] at hv
    exact h k v hv ((List.suffix_cons _ a).trans hbelow)

end EvalState

/-- An operation goes alike with operands at a place for sets that go alike where they are
evaluated. -/
theorem Operation.SetPlace.exec_run {op : Operation} {before after : List Calc} {x y : Calc}
    (h : op.SetPlace before after)
    (hxy : (x.evaluate (before.length :: a)).exec env (s.behind env a before) =
      (y.evaluate (before.length :: a)).exec env (s.behind env a before)) :
    (op.run a (Calc.evaluations a 0 (before ++ x :: after))).exec env s =
      (op.run a (Calc.evaluations a 0 (before ++ y :: after))).exec env s := by
  cases h with
  | yes condition no =>
    refine exec_bind_after (state_asBool _) fun b _ => ?_
    cases b
    · rfl
    · exact hxy
  | no condition yes =>
    refine exec_bind_after (state_asBool _) fun b _ => ?_
    cases b
    · exact hxy
    · rfl
  | targets recursive set =>
    exact exec_bind_after (state_asList _) fun l _ => exec_bind_congr (exec_bind_congr hxy _) _
  | right onDemand left =>
    exact exec_bind_after (state_asSource _) fun l _ => exec_bind_congr (exec_bind_congr hxy _) _
  | criterion set =>
    exact exec_bind_after (state_asSource _) fun l _ => exec_bind_congr (exec_bind_congr hxy _) _
  | emptied =>
    rcases after with _ | ⟨c, _ | ⟨d, others⟩⟩
    · exact exec_bind_congr (exec_bind_congr hxy _) _
    · exact exec_bind_congr (exec_bind_congr hxy _) _
    · rfl
  | kept ordinals => exact exec_cached_congr a ordinals hxy
  | _ => exact exec_bind_congr (exec_bind_congr hxy _) _

/-! ## Sets of one element -/

/-- The value is a tuple with the given number of columns; a member is one of one column. -/
def Value.IsRow (columns : Nat) (v : Value) : Prop := ∃ r, v.toTuple = .ok r ∧ r.length = columns

/-- The kind of value that a conversion asks for, to make a set of it. -/
def ExprType.elementKind : ExprType → String
  | .tuple _ => "tuple"
  | _ => "member"

namespace TupleList

theorem empty_max (arity limit : Nat) : empty (max arity 1) limit = empty arity limit := by
  simp [empty]

/-- No limit is too small for one tuple. -/
theorem ofMembers_singleton (m : Member) (limit : Nat) :
    ofMembers [m] limit = (empty 1 limit).add [m] := by
  simp [ofMembers, add, empty, size]

end TupleList

theorem Value.toMember_of_toTuple {v : Value} {m : Member} (h : v.toTuple = .ok [m]) :
    v.toMember = .ok m := by
  cases v with
  | member n =>
    cases h
    rfl
  | tuple r =>
    cases h
    rfl
  | _ => cases h

namespace EvalM

variable {v : Value} {x : EvalM Value}

theorem addElement_of_toTuple {r : Row} (h : v.toTuple = .ok r) (l : TupleList) :
    addElement l v = lift (l.add r) := by
  cases v with
  | member n =>
    cases h
    rfl
  | tuple q =>
    cases h
    rfl
  | _ => cases h

/-- The set in braces adds the value of its element to an empty list. -/
theorem exec_set_singleton (arity : Nat) (x : EvalM Value) :
    (Operation.run a (.set arity) [x]).exec env s =
      (x >>= fun v => addElement (.empty arity env.config.resultLimit) v >>= fun l =>
        pure (Value.list l)).exec env s := by
  show ((x >>= fun v => addElement (.empty arity env.config.resultLimit) v >>= fun l => pure l) >>=
    fun l => pure (Value.list l)).exec env s = _
  rw [exec_bind_assoc]
  refine exec_bind_after rfl fun v _ => ?_
  exact exec_bind_assoc _ _ _

theorem exec_memberToSet (hv : v.IsRow 1) :
    (lift v.toMember >>= fun m => memberList [m]).exec env s =
      (addElement (.empty 1 env.config.resultLimit) v >>= fun l => pure (Value.list l)).exec env s := by
  obtain ⟨r, hr, hlength⟩ := hv
  obtain ⟨m, rfl⟩ := List.length_eq_one_iff.1 hlength
  rw [Value.toMember_of_toTuple hr, addElement_of_toTuple hr, ← TupleList.ofMembers_singleton]
  rfl

theorem exec_tupleToSet {columns : Nat} (hv : v.IsRow columns) :
    (lift v.toTuple >>= fun r => resultLimit >>= fun limit =>
        lift ((TupleList.empty r.length limit).add r) >>= fun l => pure (Value.list l)).exec env s =
      (addElement (.empty columns env.config.resultLimit) v >>= fun l =>
        pure (Value.list l)).exec env s := by
  obtain ⟨r, hr, rfl⟩ := hv
  rw [hr, addElement_of_toTuple hr]
  rfl

/-- An element whose value is a tuple with the columns of its type is the same set by a conversion and
in braces. -/
theorem exec_ofElement {t : ExprType} (ht : t.IsElement)
    (hx : ∀ v, (x.exec env s).1 = .ok v → v.IsRow t.arity) :
    (adapt (.ofElement t) x).exec env s =
      (Operation.run a (.set (max t.arity 1)) [x]).exec env s := by
  rw [exec_set_singleton, TupleList.empty_max]
  obtain ⟨scope, rfl⟩ | ⟨scopes, rfl⟩ := ht.eq
  · refine (exec_bind_assoc x (fun v => lift v.toMember) fun m => memberList [m]).trans ?_
    exact exec_bind_after rfl fun v hv => exec_memberToSet (hx v hv)
  · refine (exec_bind_assoc x (fun v => lift v.toTuple) _).trans ?_
    exact exec_bind_after rfl fun v hv => exec_tupleToSet (hx v hv)

/-- An element without a value is no set by a conversion, and the empty set in braces. -/
theorem exec_ofElement_null {t : ExprType} (ht : t.IsElement) (hx : (x.exec env s).1 = .ok .null) :
    ((adapt (.ofElement t) x).exec env s).1 =
        .error (.typeConversion Value.null.kind t.elementKind) ∧
      ((Operation.run a (.set (max t.arity 1)) [x]).exec env s).1 =
        .ok (.list (.empty t.arity env.config.resultLimit)) := by
  obtain ⟨u, hu⟩ : ∃ u, x.exec env s = (.ok .null, u) := ⟨_, Prod.ext hx rfl⟩
  constructor
  · obtain ⟨scope, rfl⟩ | ⟨scopes, rfl⟩ := ht.eq
    · exact congrArg Prod.fst (exec_bind_error (t := u) (exec_bind_ok hu))
    · exact congrArg Prod.fst (exec_bind_error (t := u) (exec_bind_ok hu))
  · rw [exec_set_singleton, TupleList.empty_max, exec_bind_ok hu]
    rfl

end EvalM

/-! ## Trees that differ in one child -/

namespace Calc

variable {t : ExprType} {element : Calc}

theorem exec_taken (ht : t.IsElement)
    (h : ∀ v, ((element.evaluate (0 :: a)).exec env (entered s)).1 = .ok v → v.IsRow t.arity) :
    ((taken t element).evaluate a).exec env s = ((braced t element).evaluate a).exec env s :=
  exec_calculation_congr a (exec_ofElement ht h)

theorem exec_taken_null (ht : t.IsElement) (hdepth : s.depth < env.config.maxEvalDepth)
    (h : ((element.evaluate (0 :: a)).exec env (entered s)).1 = .ok .null) :
    (((taken t element).evaluate a).exec env s).1 =
        .error (.typeConversion Value.null.kind t.elementKind) ∧
      (((braced t element).evaluate a).exec env s).1 =
        .ok (.list (.empty t.arity env.config.resultLimit)) := by
  obtain ⟨htaken, hbraced⟩ := exec_ofElement_null (a := a) ht h
  constructor
  · exact (congrArg Prod.fst (exec_calculation a _ hdepth)).trans htaken
  · exact (congrArg Prod.fst (exec_calculation a _ hdepth)).trans hbraced

end Calc

/-! ## Values of elements -/

/-- What belongs to the type of an element is null or a tuple with the columns of the type. -/
theorem Value.Belongs.isRow {c : Cube} {t : ExprType} {v : Value} (ht : t.IsElement)
    (hv : v.Belongs c t) (hnull : v ≠ .null) : v.IsRow t.arity := by
  obtain ⟨scope, rfl⟩ | ⟨scopes, rfl⟩ := ht.eq
  · obtain rfl | ⟨m, rfl, -⟩ := hv
    · exact absurd rfl hnull
    · exact ⟨[m], rfl, rfl⟩
  · obtain ⟨r, rfl, hr⟩ := hv
    exact ⟨r, rfl, hr.length_eq.symm⟩

/-- In a state in which nothing is kept for it, a closed and consistent member or tuple is null or has
the columns of its type. -/
theorem Expr.exec_isRow (hbuilt : env.cube.Built) (hreadable : env.cube.DimensionsReadable)
    {source e : Expr} {registry : ParameterRegistry} (hclosed : source.isClosed = true)
    (hover : source.Over env.cube) (hvalid : ((source.validate .builtin).run registry).1 = .ok e)
    (hconsistent : e.isConsistent = true) (he : e.type.IsElement) {styles : List ResultStyle} {c : Calc}
    (hc : e.compile env.cube styles = .ok c) (hs : s.Placed env.cube) (hunused : s.Unused a) {v : Value}
    (hv : ((c.evaluate a).exec env s).1 = .ok v) (hnull : v ≠ .null) : v.IsRow e.type.arity := by
  let T : Contract := ⟨env, fun _ _ => True, True, fun _ => hbuilt.named hreadable⟩
  have hfaithful : (e.toOperand env.cube).Faithful (T.ofTree c a) :=
    (validate_bound hclosed hvalid).faithful fun _ => ⟨validate_over hover hvalid, hconsistent⟩
  have hlasting : (T.ofTree c a).Lasting s := Contract.lasting_of_unused hs hunused
  have hends := (hfaithful.serves _ c hc).delivers a (T.guarded_ofTree c a) s hlasting.upheld
  have hallowed : Contract.Allows _ _ ((c.evaluate a).exec env s).1 := hends.allowed
  rw [hv] at hallowed
  exact (Contract.Holds.belongs hallowed trivial).isRow he hnull

namespace Expr

variable {registry registry' : ParameterRegistry} {name : String} {form : CallForm}

/-- A built-in call that takes a member or a tuple for a set, by a conversion, goes as the call with
braces around this argument does, unless the argument is null. The call with braces is bound to the same
overload; both compile or fail with the same error; and if both compile, evaluating them from any state
has the same outcome

- if the argument, where it is evaluated, fails or gives a tuple with the columns of its type, or
- if it does not give null, and is closed and consistent, over a cube of which the names can be read, and
  nothing has been kept for the call.

If the argument gives null, it is refused by the conversion, while the set in braces is empty. -/
theorem evaluate_braces {before after args : List Expr} {a e : Expr} {d : Definition}
    {type target : ExprType} (ha : a.type.category ≠ .set)
    (hset : d.signature.parameters[before.length]? = some .set)
    (hconvert : args[before.length]? = some (.convert e target .toSet))
    (h : ((call name form (before ++ a :: after)).validate .builtin).run registry =
      (.ok (.bound d type args), registry')) :
    ((call name form (before ++ .call "\x7b\x7d" .braces [a] :: after)).validate .builtin).run registry =
        (.ok (.bound d type (args.set before.length e.braced)), registry') ∧
      ∀ (env : Environment) (styles : List ResultStyle),
        Paired (fun c c' => ∃ info op cs cs' element, cs.length = before.length ∧
            (∃ accepted, e.compile env.cube accepted = .ok element) ∧
            c = .node info op (cs ++ .taken e.type element :: cs') ∧
            c' = .node info op (cs ++ .braced e.type element :: cs') ∧
            ∀ (address : Address) (s : EvalState),
              let u := (entered s).behind env address cs
              let place := before.length :: address
              let value := ((element.evaluate (0 :: place)).exec env (entered u)).1
              ((∀ v, value = .ok v → v.IsRow e.type.arity) →
                (c.evaluate address).exec env s = (c'.evaluate address).exec env s) ∧
              (env.cube.Built → env.cube.DimensionsReadable → a.isClosed = true → a.Over env.cube →
                e.isConsistent = true → s.Placed env.cube → s.Unused address → value ≠ .ok .null →
                (c.evaluate address).exec env s = (c'.evaluate address).exec env s) ∧
              (value = .ok .null → s.depth + 1 < env.config.maxEvalDepth →
                (((Calc.taken e.type element).evaluate place).exec env u).1 =
                  .error (.typeConversion Value.null.kind e.type.elementKind) ∧
                (((Calc.braced e.type element).evaluate place).exec env u).1 =
                  .ok (.list (.empty e.type.arity env.config.resultLimit))))
          ((bound d type args).compile env.cube styles)
          ((bound d type (args.set before.length e.braced)).compile env.cube styles) := by
  obtain ⟨helement, ⟨between, hvalid⟩, ⟨hstandard, hbody⟩, bs, as, hlength, rfl, hbraces⟩ :=
    validate_braces ha hset hconvert h
  rw [← hlength] at hset ⊢
  have hreplace : (bs ++ .convert e (.set e.type) .toSet :: as).set bs.length e.braced =
      bs ++ e.braced :: as := by
    simp [List.set_append_right]
  rw [hreplace]
  refine ⟨hbraces, fun env styles => ?_⟩
  refine (compile_braces helement hstandard hbody hset type styles).mono fun c c' hdiffer => ?_
  cases hdiffer with
  | @node info op cs cs' x y hone hplace hk =>
    cases hone with
    | @of accepted element hcompiled =>
      refine ⟨info, op, cs, cs', element, hk, ⟨accepted, hcompiled⟩, rfl, rfl, fun address s => ?_⟩
      rw [← hk]
      intro u place value
      have hframe : (entered s).Frame u := EvalState.frame_behind env address cs (entered s)
      have hrow (hrow : ∀ v, value = .ok v → v.IsRow e.type.arity) :
          ((Calc.node info op (cs ++ .taken e.type element :: cs')).evaluate address).exec env s =
            ((Calc.node info op (cs ++ .braced e.type element :: cs')).evaluate address).exec env s :=
        exec_calculation_congr address (hplace.exec_run (Calc.exec_taken helement hrow))
      refine ⟨hrow, fun hbuilt hreadable hclosed hover hconsistent hs hunused hnull => ?_, ?_⟩
      · refine hrow fun v hv => ?_
        have hstart : (entered s).Placed env.cube := ⟨hs.coordinate, hs.undo⟩
        have hthere : u.Placed env.cube := hstart.frame hframe
        have hplaced : (entered u).Placed env.cube := ⟨hthere.coordinate, hthere.undo⟩
        have hentered : (entered s).Unused address := hunused
        have hbehind : (entered u).Unused (0 :: place) := fun k v hv hbelow =>
          hentered.behind cs k v hv ((List.suffix_cons 0 place).trans hbelow)
        refine exec_isRow hbuilt hreadable hclosed hover hvalid hconsistent helement hcompiled hplaced
          hbehind hv ?_
        rintro rfl
        exact hnull hv
      · intro hnull hdepth
        refine Calc.exec_taken_null helement ?_ hnull
        rwa [hframe.depth]

end Expr

/-! ## Measures and their parents -/

theorem Value.eq_null {v : Value} (h : v.isNull = true) : v = .null := by
  cases v with
  | null => rfl
  | _ => cases h

namespace Sample

def start : EvalState := .start cube (.memory []) {}

def countOf (e : Expr) : Expr := .call "Count" .function [e]

def inBraces (e : Expr) : Expr := .call "\x7b\x7d" .braces [e]

/-- The parent of a measure, which is a root. -/
def parent : Expr := .call "Parent" .property [.member amount]

/-- The number of columns of the first argument, if the call takes it for a set, by a conversion. -/
def columns? : Expr → Option Nat
  | .bound d _ (.convert e _ .toSet :: _) =>
    if d.signature.parameters.head? = some .set then some e.type.arity else none
  | _ => none

/-- The value of the element that is the first operand of a tree. -/
def elementValue : Calc → Option Value
  | .node _ _ (.node _ _ (c :: _) :: _) =>
    (((c.evaluate [0, 0, 0]).exec environment (entered (entered start))).1).toOption
  | _ => none

def counted (c : Calc) : Except CalcError (Option Int64) :=
  (((c.evaluate [0]).exec environment start).1).bind Value.toInteger

theorem exists_converted {e : Expr} {columns : Nat} {α : Type} {f : Calc → α} {r : α}
    (h : (((countOf e).validate .builtin).run []).1.toOption.map (fun bound =>
      (columns? bound, (bound.compile cube Expr.anyStyles).toOption.map f)) = some (some columns, some r)) :
    ∃ d type x target args registry c,
      ((countOf e).validate .builtin).run [] =
        (.ok (.bound d type (.convert x target .toSet :: args)), registry) ∧
      d.signature.parameters[([] : List Expr).length]? = some .set ∧ x.type.arity = columns ∧
      (Expr.bound d type (.convert x target .toSet :: args)).compile environment.cube Expr.anyStyles =
        .ok c ∧ f c = r := by
  obtain ⟨bound, hbound, hchecks⟩ := exists_ok_of_map h
  obtain ⟨hcolumns, hcompiles⟩ := Prod.mk.inj hchecks
  obtain ⟨c, hc, hvalue⟩ := exists_ok_of_map hcompiles
  unfold columns? at hcolumns
  split at hcolumns
  · obtain ⟨hset, harity⟩ := Option.ite_none_right_eq_some.1 hcolumns
    rw [List.head?_eq_getElem?] at hset
    exact ⟨_, _, _, _, _, _, c, Prod.ext hbound rfl, hset, Option.some.inj harity, hc, hvalue⟩
  · cases hcolumns

theorem amount_checks :
    (((countOf (.member amount)).validate .builtin).run []).1.toOption.map (fun bound =>
      (columns? bound, (bound.compile cube Expr.anyStyles).toOption.map fun c =>
        (((elementValue c).bind (·.toTuple.toOption)).map List.length, counted c))) =
      some (some 1, some (some 1, .ok (some 1))) := by
  decide +kernel

theorem parent_checks :
    (((countOf parent).validate .builtin).run []).1.toOption.map (fun bound =>
      (columns? bound, (bound.compile cube Expr.anyStyles).toOption.map fun c =>
        ((elementValue c).map Value.isNull, counted c))) =
      some (some 1, some (some true, .error (.typeConversion "null" "member"))) ∧
    (((countOf (inBraces parent)).validate .builtin).run []).1.toOption.map (fun bound =>
      (bound.compile cube Expr.anyStyles).toOption.map counted) = some (some (.ok (some 0))) := by
  decide +kernel

theorem elementValue_taken {info : CalcInfo} {op : Operation} {t : ExprType} {element : Calc}
    {cs : List Calc} : elementValue (.node info op ([] ++ .taken t element :: cs)) =
      (((element.evaluate [0, 0, 0]).exec environment (entered (entered start))).1).toOption := rfl

/-- A measure is counted alike with and without braces around it. Its parent, which is null, is not:
taken for a set it is refused, while the braces around it make the empty set. -/
theorem evaluate_braces_measures :
    (∃ bound braced registry c c',
      ((countOf (.member amount)).validate .builtin).run [] = (.ok bound, registry) ∧
      ((countOf (inBraces (.member amount))).validate .builtin).run [] = (.ok braced, registry) ∧
      bound.compile cube Expr.anyStyles = .ok c ∧ braced.compile cube Expr.anyStyles = .ok c' ∧
      (c.evaluate [0]).exec environment start = (c'.evaluate [0]).exec environment start ∧
      counted c = .ok (some 1)) ∧
    ∃ bound braced registry c c',
      ((countOf parent).validate .builtin).run [] = (.ok bound, registry) ∧
      ((countOf (inBraces parent)).validate .builtin).run [] = (.ok braced, registry) ∧
      bound.compile cube Expr.anyStyles = .ok c ∧ braced.compile cube Expr.anyStyles = .ok c' ∧
      (∃ t element, (((Calc.taken t element).evaluate [0, 0]).exec environment (entered start)).1 =
          .error (.typeConversion "null" t.elementKind) ∧
        (((Calc.braced t element).evaluate [0, 0]).exec environment (entered start)).1 =
          .ok (.list (.empty t.arity 0))) ∧
      counted c = .error (.typeConversion "null" "member") ∧ counted c' = .ok (some 0) := by
  constructor
  · obtain ⟨d, type, e, target, args, registry, c, hrun, hset, harity, hc, hvalues⟩ :=
      exists_converted amount_checks
    obtain ⟨hlength, hcounted⟩ := Prod.mk.inj hvalues
    obtain ⟨hbraces, hpaired⟩ := Expr.evaluate_braces (by decide) hset rfl hrun
    obtain ⟨c', hc', info, op, cs, cs', element, hcs, -, rfl, rfl, hruns⟩ :=
      (hpaired environment Expr.anyStyles).exists_ok hc
    obtain rfl : cs = [] := List.length_eq_zero_iff.1 hcs
    refine ⟨_, _, _, _, _, hrun, hbraces, hc, hc', (hruns [0] start).1 fun v hv => ?_, hcounted⟩
    change (((element.evaluate [0, 0, 0]).exec environment (entered (entered start))).1) = _ at hv
    rw [elementValue_taken, hv] at hlength
    rw [harity]
    exact exists_ok_of_map hlength
  · obtain ⟨hparent, hcount⟩ := parent_checks
    obtain ⟨d, type, e, target, args, registry, c, hrun, hset, -, hc, hvalues⟩ :=
      exists_converted hparent
    obtain ⟨hnull, hcounted⟩ := Prod.mk.inj hvalues
    obtain ⟨hbraces, hpaired⟩ := Expr.evaluate_braces (by decide) hset rfl hrun
    obtain ⟨c', hc', info, op, cs, cs', element, hcs, -, rfl, rfl, hruns⟩ :=
      (hpaired environment Expr.anyStyles).exists_ok hc
    obtain rfl : cs = [] := List.length_eq_zero_iff.1 hcs
    refine ⟨_, _, _, _, _, hrun, hbraces, hc, hc', ⟨e.type, element, ?_⟩, hcounted, ?_⟩
    · refine (hruns [0] start).2.2 ?_ (by decide)
      rw [elementValue_taken] at hnull
      obtain ⟨v, hv, hisNull⟩ := exists_ok_of_map hnull
      obtain rfl := Value.eq_null hisNull
      exact hv
    · obtain ⟨bound, hbound, hcount⟩ := exists_ok_of_map hcount
      cases hbound.symm.trans (congrArg Prod.fst hbraces)
      obtain ⟨c', hcompiled, hcount⟩ := exists_ok_of_map hcount
      cases hcompiled.symm.trans hc'
      exact hcount

end Sample

end Olap
