import Olap.Proofs.Evaluation.Contents

/-!
# Operations keep to contracts

What each operation ensures, given what the evaluations of its children ensure: the scopes of its
result are those of its operands, put together as the type of a call says.
-/

set_option autoImplicit false

namespace Olap

namespace ArithmeticOp

theorem onIntegers_error {op : ArithmeticOp} {i j : Int64} {e : CalcError}
    (h : op.onIntegers i j = .error e) : e.isMismatch = false := by
  unfold onIntegers at h
  split at h
  · cases h
  · split at h <;> cases h
    rfl

end ArithmeticOp

theorem negateInteger_error {i : Int64} {e : CalcError} (h : negateInteger i = .error e) :
    e.isMismatch = false := by
  unfold negateInteger at h
  split at h <;> cases h
  rfl

namespace Contract.Ensures

open EvalM

variable {T : Contract} {a : Address} {x y z : EvalM Value} {s : Scope} {ss us : List Scope}
variable {P Q R : Value → Prop} {e f : ExprType}

/-! ## Scalars -/

section
variable (hx : T.Ensures x P)
include hx

theorem run_toBoolean : T.Ensures (Operation.run a .toBoolean [x]) fun _ => True := by
  refine hx.bind fun v _ => ?_
  split
  · exact pure trivial
  · refine (lift (Q := fun _ => True) ?_).bind fun _ _ => pure trivial
    cases v <;> first | trivial | exact fun _ => rfl

theorem run_toNumber : T.Ensures (Operation.run a .toNumber [x]) fun _ => True :=
  hx.asDouble.bind fun _ _ => pure trivial

theorem run_toInteger : T.Ensures (Operation.run a .toInteger [x]) fun _ => True :=
  hx.asInteger.bind fun _ _ => pure trivial

theorem run_toText : T.Ensures (Operation.run a .toText [x]) fun _ => True :=
  hx.asText.bind fun _ _ => pure trivial

theorem run_integerToDouble :
    T.Ensures (Operation.run a (.adapt .integerToDouble) [x]) fun _ => True :=
  hx.asInteger.bind fun _ _ => pure trivial

theorem run_integerNegation : T.Ensures (Operation.run a .integerNegation [x]) fun _ => True := by
  refine hx.asInteger.bind fun n _ => ?_
  split
  · exact pure trivial
  · refine (lift (Q := fun _ => True) (.intro (fun _ _ => trivial) fun _ e he => ?_)).bind
      fun _ _ => pure trivial
    exact negateInteger_error he

theorem run_doubleNegation : T.Ensures (Operation.run a .doubleNegation [x]) fun _ => True :=
  hx.asDouble.bind fun _ _ => pure trivial

theorem run_negation : T.Ensures (Operation.run a .negation [x]) fun _ => True :=
  hx.asBool.bind fun _ _ => pure trivial

variable (hy : T.Ensures y Q)
include hy

theorem run_integerArithmetic (op : ArithmeticOp) :
    T.Ensures (Operation.run a (.integerArithmetic op) [x, y]) fun _ => True := by
  refine hx.asInteger.bind fun m _ => hy.asInteger.bind fun n _ => ?_
  split
  · exact pure trivial
  · refine (lift (Q := fun _ => True) (.intro (fun _ _ => trivial) fun _ e he => ?_)).bind
      fun _ _ => pure trivial
    exact ArithmeticOp.onIntegers_error he

theorem run_doubleArithmetic (op : ArithmeticOp) :
    T.Ensures (Operation.run a (.doubleArithmetic op) [x, y]) fun _ => True :=
  hx.asDouble.bind fun _ _ => hy.asDouble.bind fun _ _ => pure trivial

theorem run_compareNumbers (c : Comparison) :
    T.Ensures (Operation.run a (.compareNumbers c) [x, y]) fun _ => True := by
  refine hx.asDouble.bind fun m _ => hy.asDouble.bind fun n _ => ?_
  split <;> exact pure trivial

theorem run_compareTexts (c : Comparison) :
    T.Ensures (Operation.run a (.compareTexts c) [x, y]) fun _ => True := by
  refine hx.asText.bind fun m _ => hy.asText.bind fun n _ => ?_
  split <;> exact pure trivial

theorem run_conjunction : T.Ensures (Operation.run a .conjunction [x, y]) fun _ => True :=
  hx.asBool.bind fun _ _ =>
    ite (fun _ => hy.asBool.bind fun _ _ => pure trivial) fun _ => pure trivial

theorem run_disjunction : T.Ensures (Operation.run a .disjunction [x, y]) fun _ => True :=
  hx.asBool.bind fun _ _ =>
    ite (fun _ => pure trivial) fun _ => hy.asBool.bind fun _ _ => pure trivial

theorem run_choice (hQ : ∀ v, Q v → R v) (hz : T.Ensures z R) :
    T.Ensures (Operation.run a .choice [x, y, z]) R :=
  hx.asBool.bind fun _ _ => ite (fun _ => hy.mono hQ) fun _ => hz

end

theorem run_constant {v : Value} (hv : Q v) (xs : List (EvalM Value)) :
    T.Ensures (Operation.run a (.constant v) xs) Q :=
  pure hv

/-! ## Cells -/

theorem run_currentValue (xs : List (EvalM Value)) :
    T.Ensures (Operation.run a .currentValue xs) fun _ => True :=
  currentCell

theorem run_memberValue (hx : T.Ensures x (T.Holds (.member s))) :
    T.Ensures (Operation.run a .memberValue [x]) fun _ => True := by
  have hrow : T.Ensures (EvalM.asMembers [x]) (T.RowOf [s]) := asMembers (.cons hx.asMember .nil)
  exact hrow.bind fun _ hr => withRow (fun hstrict => (hr hstrict).within) currentCell

theorem run_tupleValue (hx : T.Ensures x (T.Holds (.tuple ss))) :
    T.Ensures (Operation.run a .tupleValue [x]) fun _ => True :=
  hx.asTuple.bind fun _ hr => withRow (fun hstrict => (hr hstrict).within) currentCell

/-! ## Catalog objects -/

theorem run_currentMember (hx : T.Ensures x (T.Holds (.hierarchy s))) :
    T.Ensures (Operation.run a .currentMember [x]) (T.Holds (.member s)) := by
  refine hx.asHierarchy.bind fun h hh => ?_
  refine (currentMember fun hstrict => (hh hstrict).1).bind fun m hm => pure fun hstrict => ?_
  obtain ⟨hmem, htells⟩ := hh hstrict
  exact .inr ⟨m, rfl, h, hmem, hm hstrict, htells⟩

theorem run_hierarchyOf (hx : T.Ensures x (T.Holds (.member s))) :
    T.Ensures (Operation.run a .hierarchyOf [x]) (T.Holds (.hierarchy s)) := by
  refine hx.asMember.bind fun m hm => (hierarchyOf hm).bind fun h hh => pure fun hstrict => ?_
  obtain ⟨hmem, htells⟩ := hh hstrict
  exact ⟨h, hmem, rfl, htells⟩

theorem run_dimensionToHierarchy (hx : T.Ensures x (T.Holds (.dimension s))) :
    T.Ensures (Operation.run a (.adapt .dimensionToHierarchy) [x]) (T.Holds (.hierarchy s)) := by
  refine hx.asDimension.bind fun d hd => (singleHierarchy hd).bind fun h hh => pure fun hstrict => ?_
  obtain ⟨hmem, htells⟩ := hh hstrict
  exact ⟨h, hmem, rfl, htells⟩

theorem run_levelToHierarchy (hx : T.Ensures x (T.Holds (.level s))) :
    T.Ensures (Operation.run a (.adapt .levelToHierarchy) [x]) (T.Holds (.hierarchy s)) := by
  refine hx.asLevel.bind fun l hl => read.bind ?_
  rintro _ rfl
  refine (levelHierarchy hl).bind fun h hh => pure fun hstrict => ?_
  obtain ⟨hmem, htells⟩ := hh hstrict
  exact ⟨h, hmem, rfl, htells⟩

theorem run_parent (hx : T.Ensures x (T.Holds (.member s))) :
    T.Ensures (Operation.run a .parent [x]) (T.Holds (.member s)) := by
  refine hx.asMember.bind fun m hm => pure fun hstrict => ?_
  rcases hp : m.parent? with _ | p
  · exact .inl rfl
  · obtain ⟨⟨h, hh, hmem, htells⟩, -⟩ := List.forall₂_cons.1 (hm hstrict)
    exact .inr ⟨p, rfl, h, hh, (T.named hstrict).toRegular.mem_of_parent? hh hmem hp, htells⟩

/-! ## Sets of members -/

theorem run_levelMembers (hx : T.Ensures x (T.Holds (.level s))) :
    T.Ensures (Operation.run a .levelMembers [x]) (T.IsList [s]) := by
  refine hx.asLevel.bind fun l hl => read.bind ?_
  rintro _ rfl
  refine (levelHierarchy hl).bind fun h hh => memberList (fun _ => rfl) fun m hm hstrict => ?_
  obtain ⟨hmem, htells⟩ := hh hstrict
  exact .cons ⟨h, hmem, h.levelMembers_subset_members l hm, htells⟩ .nil

theorem run_hierarchyMembers (hx : T.Ensures x (T.Holds (.hierarchy s))) :
    T.Ensures (Operation.run a .hierarchyMembers [x]) (T.IsList [s]) := by
  refine hx.asHierarchy.bind fun h hh => memberList (fun _ => rfl) fun m hm hstrict => ?_
  obtain ⟨hmem, htells⟩ := hh hstrict
  exact .cons ⟨h, hmem, hm, htells⟩ .nil

theorem run_children (hx : T.Ensures x (T.Holds (.member s))) :
    T.Ensures (Operation.run a .children [x]) (T.IsList [s]) := by
  refine hx.asMember.bind fun m hm => read.bind ?_
  rintro _ rfl
  refine memberList (fun _ => rfl) fun n hn hstrict => ?_
  obtain ⟨⟨h, hh, hmem, htells⟩, -⟩ := List.forall₂_cons.1 (hm hstrict)
  exact .cons ⟨h, hh, (T.named hstrict).toRegular.mem_of_children hh hmem hn, htells⟩ .nil

theorem run_descendants (target : DescendantsTarget) (flag : DescendantsFlag)
    (hx : T.Ensures x (T.Holds (.member s))) {argument : List (EvalM Value)}
    (hxs : ∀ y ∈ argument, T.Ensures y fun _ => True) :
    T.Ensures (Operation.run a (.descendants target flag) (x :: argument)) (T.IsList [s]) := by
  refine hx.asMember.bind fun m hm => (targetDepth hxs).bind fun depth _ => read.bind ?_
  rintro _ rfl
  refine memberList (fun _ => rfl) fun n hn hstrict => ?_
  obtain ⟨⟨h, hh, hmem, htells⟩, -⟩ := List.forall₂_cons.1 (hm hstrict)
  exact .cons ⟨h, hh, (T.named hstrict).toRegular.mem_of_descendants hh hmem hn, htells⟩ .nil

/-- The members that are drilled belong to the one scope of the first set. -/
theorem run_drilldownMember (recursive : Bool) (hx : T.Ensures x (T.Holds (.set e)))
    (hy : T.Ensures y (T.Holds (.set f))) :
    T.Ensures (Operation.run a (.drilldownMember recursive) [x, y]) (T.IsList e.scopes) := by
  refine hx.asList.bind fun l hl => hy.asList.bind fun targets _ => ?_
  refine ite (fun _ => (throw (Q := fun _ => False) rfl).bind fun _ h => h.elim) fun harity => ?_
  have harity : l.arity = 1 := Decidable.not_not.1 harity
  -- under a strict contract there is one scope only, so that any one may be named here
  let scope := e.scopes.headD .unknown
  have hscope (hstrict : T.strict) : e.scopes = [scope] := by
    obtain ⟨s, hs⟩ := List.length_eq_one_iff.1 ((hl.arity hstrict).symm.trans harity)
    simp only [scope, hs, List.headD_cons]
  have hmembers : ∀ m ∈ l.members.toList, T.RowOf [scope] [m] := by
    intro m hm hstrict
    rw [← hscope hstrict]
    refine hl.rows [m] ?_ hstrict
    rw [TupleList.rows_of_arity_one harity]
    exact List.mem_map.2 ⟨m, hm, rfl⟩
  refine read.bind ?_
  rintro _ rfl
  refine (drillDown _ recursive hmembers).bind fun ms hms => ?_
  refine memberList (fun hstrict => by rw [hscope hstrict]; rfl) fun m hm hstrict => ?_
  rw [hscope hstrict]
  exact hms m hm hstrict

/-! ## Sets -/

theorem run_memberToSet (hx : T.Ensures x (T.Holds (.member s))) :
    T.Ensures (Operation.run a (.adapt .memberToSet) [x]) (T.IsList [s]) := by
  refine hx.asMember.bind fun m hm => memberList (fun _ => rfl) fun n hn => ?_
  rw [List.mem_singleton.1 hn]
  exact hm

theorem run_memberToTuple (hx : T.Ensures x (T.Holds (.member s))) :
    T.Ensures (Operation.run a (.adapt .memberToTuple) [x]) (T.Holds (.tuple [s])) :=
  hx.asMember.bind fun m hm => pure fun hstrict => ⟨[m], rfl, hm hstrict⟩

theorem run_tupleToSet (hpos : T.strict → 0 < ss.length) (hx : T.Ensures x (T.Holds (.tuple ss))) :
    T.Ensures (Operation.run a (.adapt .tupleToSet) [x]) (T.IsList ss) := by
  refine hx.asTuple.bind fun r hr => resultLimit.bind fun limit hlimit => ?_
  subst hlimit
  have hempty : T.ListOf ss (.empty r.length T.env.config.resultLimit) :=
    listOf_empty fun hstrict => ⟨(hr hstrict).length_eq.symm, hpos hstrict⟩
  exact (lift (hempty.add hr)).bind fun l hl => pure ⟨l, rfl, hl⟩

theorem run_materialize (hx : T.Ensures x (T.Holds (.set e))) :
    T.Ensures (Operation.run a (.adapt .materialize) [x]) (T.IsList e.scopes) := by
  refine hx.bind fun v hv => ?_
  obtain ⟨p, hp, hsource⟩ := hv
  split
  · rename_i l
    cases hp
    exact pure ⟨l, rfl, hsource.solid, hsource.arity, hsource.rows⟩
  · rw [hp]
    exact (lift (r := .ok p) hsource).bind fun q hq => (materialize hq).bind fun l hl =>
      pure ⟨l, rfl, hl⟩

theorem run_mutableCopy (hx : T.Ensures x (T.Holds (.set e))) :
    T.Ensures (Operation.run a (.adapt .mutableCopy) [x]) (T.IsList e.scopes) :=
  hx.asList.bind fun l hl => pure ⟨l, rfl, hl⟩

section
variable (hx : T.Ensures x (T.Holds (.set e)))
include hx

theorem run_crossJoin (hy : T.Ensures y (T.Holds (.set f)))
    (hlen : T.strict → e.scopes.length + f.scopes.length < UInt64.size) :
    T.Ensures (Operation.run a (.crossJoin true) [x, y])
      (T.Holds (.set (.tuple (e.scopes ++ f.scopes)))) := by
  refine hx.asSource.bind fun p hp => hy.asSource.bind fun q hq => ?_
  refine nonEmpty (f := fun b =>
    if true && !b then Pure.pure (Value.iterable (.cross p q))
    else EvalM.crossJoin p q >>= fun joined => Pure.pure (Value.list joined)) fun b => ?_
  refine ite (fun _ => pure ⟨_, rfl, hp.cross hq hlen⟩) fun _ => ?_
  exact (crossJoin hp hq hlen).bind fun l hl => pure ⟨_, rfl, hl.source⟩

theorem run_crossJoin_list (hy : T.Ensures y (T.Holds (.set f)))
    (hlen : T.strict → e.scopes.length + f.scopes.length < UInt64.size) :
    T.Ensures (Operation.run a (.crossJoin false) [x, y]) (T.IsList (e.scopes ++ f.scopes)) := by
  refine hx.asSource.bind fun p hp => hy.asSource.bind fun q hq => ?_
  refine nonEmpty (f := fun b =>
    if false && !b then Pure.pure (Value.iterable (.cross p q))
    else EvalM.crossJoin p q >>= fun joined => Pure.pure (Value.list joined)) fun b => ?_
  exact (crossJoin hp hq hlen).bind fun l hl => pure ⟨l, rfl, hl⟩

theorem run_filter (hy : T.Ensures y Q) :
    T.Ensures (Operation.run a .filter [x, y]) (T.IsList e.scopes) := by
  refine hx.asSource.bind fun p hp => (forEachRow hp fun _ _ => hy.asBool).bind fun keep _ => ?_
  exact (select hp keep).bind fun l hl => pure ⟨l, rfl, hl⟩

theorem run_nonEmpty : T.Ensures (Operation.run a .nonEmpty [x]) (T.IsList e.scopes) := by
  refine hx.asSource.bind fun p hp => (forEachRow hp fun _ _ => ?_).bind fun keep _ => ?_
  · exact isEmptyCell.bind fun _ _ => pure trivial
  · exact (select hp keep).bind fun l hl => pure ⟨l, rfl, hl⟩

theorem run_nonEmptyAmong (hy : T.Ensures y (T.Holds (.set f))) :
    T.Ensures (Operation.run a .nonEmpty [x, y]) (T.IsList e.scopes) := by
  refine hx.asSource.bind fun p hp => hy.asList.bind fun others hothers => ?_
  refine (forEachRow hp fun _ _ => anyFilled hothers.rows).bind fun keep _ => ?_
  exact (select hp keep).bind fun l hl => pure ⟨l, rfl, hl⟩

theorem run_head {argument : List (EvalM Value)}
    (hxs : ∀ y ∈ argument, T.Ensures y fun _ => True) :
    T.Ensures (Operation.run a .head (x :: argument)) (T.IsList e.scopes) := by
  refine hx.asList.bind fun l hl => ?_
  have hcut (n : Nat) : T.IsList e.scopes (.list (if l.size ≤ n then l else l.subList 0 n)) := by
    split
    · exact ⟨l, rfl, hl⟩
    · exact ⟨_, rfl, hl.subList n⟩
  rcases argument with _ | ⟨y, ys⟩
  · exact bind (P := fun _ => True) (pure trivial) fun n _ => pure (hcut n)
  · refine (hxs y List.mem_cons_self).asInteger.bind fun n _ => ?_
    exact bind (P := fun _ => True) (pure trivial) fun n _ => pure (hcut n)

theorem run_count (excludeEmpty : Bool) :
    T.Ensures (Operation.run a (.count excludeEmpty) [x]) fun _ => True := by
  refine hx.asSource.bind fun p hp => ite (fun _ => ?_) fun _ => pure trivial
  exact (forEachRow hp fun _ _ => isEmptyCell).bind fun _ _ => pure trivial

theorem run_order (mode : SortMode) (byText : Bool) (hy : T.Ensures y Q) :
    T.Ensures (Operation.run a (.order mode byText) [x, y]) (T.IsList e.scopes) := by
  refine hx.asList.bind fun l hl => (sort ?_ mode hl).bind fun l hl => pure ⟨l, rfl, hl⟩
  refine ite (fun _ => ?_) fun _ => ?_
  · exact hy.asText.bind fun _ _ => pure trivial
  · exact hy.asDouble.bind fun _ _ => pure trivial

theorem run_aggregate (f : Aggregate) (hy : T.Ensures y Q) :
    T.Ensures (Operation.run a (.aggregate f) [x, y]) fun _ => True :=
  hx.asSource.bind fun _ hp => (forEachRow hp fun _ _ =>
    hy.asDouble.mono fun _ _ => trivial).bind fun _ _ => pure trivial

end

theorem run_set {arity : Nat} (harity : T.strict → arity = ss.length ∧ 0 < ss.length)
    {xs : List (EvalM Value)} (hxs : ∀ x ∈ xs, T.Ensures x (T.Element ss)) :
    T.Ensures (Operation.run a (.set arity) xs) (T.IsList ss) := by
  refine resultLimit.bind fun limit hlimit => ?_
  subst hlimit
  exact (addElements hxs (listOf_empty harity)).bind fun l hl => pure ⟨l, rfl, hl⟩

theorem run_tuple {xs : List (EvalM Value)}
    (hxs : List.Forall₂ (fun s x => T.Ensures x (T.Holds (.member s))) ss xs) :
    T.Ensures (Operation.run a .tuple xs) (T.Holds (.tuple ss)) :=
  (asMembers (hxs.imp fun _ _ hx => hx.asMember)).bind fun _ hr => tupleOf hr

end Contract.Ensures

end Olap
