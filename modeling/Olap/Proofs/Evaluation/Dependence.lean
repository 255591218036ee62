import Olap.Proofs.Evaluation.Agreement
import Olap.Proofs.Tuple.Buffer

/-!
# What evaluations depend on

Every evaluation in an apt scene is sound, and reads the hierarchies that dependency analysis says it
reads (`Scene.Apt.sound`). The rules by which a calculation does not depend on what a child reads are
right because the tuples of the first child, or the members that the children give, are put in the
context before it is read: a type that definitely lies on a hierarchy is told the truth about by the
values (`Scene.Truthful`), so they fix the current member there. A calculation that keeps results
reads what its child reads, and the key of what it keeps holds all of that (`Scene.Covered`).
-/

set_option autoImplicit false

namespace Olap

theorem Pinned.append_left {r : Row} {o : Nat} (h : Pinned r o) (q : Row) : Pinned (r ++ q) o := by
  obtain ⟨m, hm, ho⟩ := h
  exact ⟨m, List.mem_append_left q hm, ho⟩

theorem Pinned.append_right {r : Row} {o : Nat} (h : Pinned r o) (q : Row) : Pinned (q ++ r) o := by
  obtain ⟨m, hm, ho⟩ := h
  exact ⟨m, List.mem_append_right q hm, ho⟩

namespace Scene

variable {S : Scene} {α : Type} {d : Nat} {A : Nat → Prop}

/-- A tuple that a type admits fixes the hierarchies that the type definitely lies on. -/
theorem pinned_of_admits {c : Cube} (hc : c.Regular) (hd : c.HierarchiesDistinct) {t : ExprType}
    {r : Row} (hr : t.Admits c r) {o : Nat} {h : Hierarchy} (ho : c.hierarchies[o]? = some h)
    (ht : t.uses h true = true) : Pinned r o := by
  obtain ⟨m, hm, hmh⟩ := hr.exists_mem hd (List.mem_of_getElem? ho) ht
  exact ⟨m, hm, hc.ordinal_of_mem ho hmh⟩

/-- The value is within the domain and belongs to the type. -/
def Typed (S : Scene) (t : ExprType) (v : Value) : Prop :=
  v.Within S.domain ∧ v.Fits S.env.cube t

namespace Sound

theorem lift {r : Except CalcError α} {Q : α → Prop} (h : ∀ a, r = .ok a → Q a) :
    S.Sound d A (EvalM.lift r) Q :=
  of_const (fun _ => EvalM.exec_lift r) h

theorem calculation_limited (a : Address) (h : S.env.config.maxEvalDepth ≤ d) {x : EvalM α}
    {Q : α → Prop} : S.Sound d A (EvalM.calculation a x) Q := by
  have hexec {s : EvalState} (hs : S.Calm d s) : (EvalM.calculation a x).exec S.env s =
      (.error (.recursionLimit S.env.config.maxEvalDepth), s) :=
    EvalM.exec_calculation_limited a x (hs.depth.symm ▸ h)
  refine ⟨fun s hs => ?_, fun s hs => ?_, fun s t hs ht _ => ?_⟩
  · rw [hexec hs]
    exact .of_same hs.within (by rintro _ ⟨⟩)
  · rw [hexec hs]
    exact hs.coherent
  · rw [hexec hs, hexec ht]

/-! ## Values of a wanted kind -/

section
variable {x : EvalM Value} {t : ExprType} (hx : S.Sound d A x (S.Typed t))
include hx

theorem asMember : S.Sound d A (EvalM.asMember x) fun m =>
    S.domain.member m ∧ t.Admits S.env.cube [m] := by
  refine hx.bind fun v hv => lift fun m hm => ?_
  exact ⟨(Value.toMember_yields hv.1).of_ok hm, hv.2 [m] (by rw [Value.rows_toMember hm]; exact List.mem_singleton_self _)⟩

theorem asTuple : S.Sound d A (EvalM.asTuple x) fun r =>
    RowWithin S.domain r ∧ t.Admits S.env.cube r := by
  refine hx.bind fun v hv => lift fun r hr => ?_
  exact ⟨(Value.toTuple_yields hv.1).of_ok hr, hv.2 r (by rw [Value.rows_toTuple hr]; exact List.mem_singleton_self _)⟩

theorem asList : S.Sound d A (EvalM.asList x) fun l =>
    l.Within S.domain ∧ ∀ r ∈ l.rows, t.Admits S.env.cube r := by
  refine hx.bind fun v hv => lift fun l hl => ?_
  exact ⟨(Value.toList_yields hv.1).of_ok hl, fun r hr => hv.2 r (by rw [Value.rows_toList hl]; exact hr)⟩

theorem asSource : S.Sound d A (EvalM.asSource x) fun s =>
    s.Within S.domain ∧ ∀ r ∈ s.rows, t.Admits S.env.cube r := by
  refine hx.bind fun v hv => lift fun s hs => ?_
  exact ⟨(Value.toSource_yields hv.1).of_ok hs, fun r hr => hv.2 r (by rw [Value.rows_toSource hs]; exact hr)⟩

/-- What is composed of a sound action alone reads what that reads. -/
theorem along (hc : S.env.cube.Regular) {y : EvalM α} {Q : α → Prop}
    (hy : EvalM.Composed S.env S.domain False (· = x) y Q) : S.Sound d A y Q := by
  refine of_plain hc (fun y hy => ?_) hy
  rw [hy]
  exact hx.mono fun v hv => hv.1

end

/-! ## Sets -/

theorem materialize {src : TupleSource} (hs : src.Within S.domain) :
    S.Sound d A (EvalM.materialize src) fun l =>
      l.Within S.domain ∧ ∀ r ∈ l.rows, r ∈ src.rows := by
  refine bind (P := fun _ => True) (read.bind fun _ _ => pure trivial) fun limit _ => ?_
  rw [TupleSource.foldM_eq_foldlM_rows]
  refine bind (foldlM (P := fun p => p.2.Within S.domain ∧ p.2.Whole ∧ ∀ r ∈ p.2.rows, r ∈ src.rows)
    (fun p hp r hr => ?_) ⟨TupleList.within_empty _ _, TupleList.whole_empty _ _, by simp⟩) ?_
  · obtain ⟨hw, hwhole, hrows⟩ := hp
    refine (poll _).bind fun _ _ => (lift (Q := fun l => l.Within S.domain ∧ l.Whole ∧
      ∀ r ∈ l.rows, r ∈ src.rows) fun l hl => ?_).bind fun l hl => pure hl
    obtain ⟨hwhole', hrows'⟩ := TupleList.rows_add hwhole hl
    refine ⟨(TupleList.add_yields hw (hs r hr)).of_ok hl, hwhole', fun q hq => ?_⟩
    rw [hrows'] at hq
    rcases List.mem_append.1 hq with hq | hq
    · exact hrows q hq
    · rw [List.mem_singleton.1 hq]
      exact hr
  · exact fun p hp => pure ⟨hp.1, hp.2.2⟩

theorem joinRow (hc : S.env.cube.Regular) {left : Row} (hl : RowWithin S.domain left)
    {rights : List Row} (hr : ∀ r ∈ rights, RowWithin S.domain r)
    (hA : S.nonEmpty = true → ∀ r ∈ rights,
      S.env.cube.Covers fun o => A o ∨ Pinned (left ++ r) o)
    {joined : Nat × TupleList} (hj : joined.2.Within S.domain) :
    S.Sound d A (EvalM.joinRow S.nonEmpty left rights joined) fun p => p.2.Within S.domain := by
  induction rights generalizing joined with
  | nil => exact pure hj
  | cons right rest ih =>
    have hrow := hl.append (hr right List.mem_cons_self)
    have ih {joined : Nat × TupleList} (hj : joined.2.Within S.domain) :=
      ih (fun r h => hr r (List.mem_cons_of_mem right h))
        (fun hb r h => hA hb r (List.mem_cons_of_mem right h)) hj
    have hnext (dropped : Bool) : S.Sound d A
        (if dropped then EvalM.joinRow S.nonEmpty left rest (joined.1 + 1, joined.2)
          else EvalM.lift (joined.2.add (left ++ right)) >>= fun l =>
            EvalM.joinRow S.nonEmpty left rest (joined.1 + 1, l)) fun p => p.2.Within S.domain := by
      refine ite (fun _ => ih hj) fun _ => ?_
      exact (lift fun l hl => (TupleList.add_yields hj hrow).of_ok hl).bind fun l hl => ih hl
    refine (poll _).bind fun _ _ => ite (fun hb => ?_) fun _ => ?_
    · have hcovers := hA hb right List.mem_cons_self
      have hcell : S.Sound d (fun o => A o ∨ Pinned (left ++ right) o) EvalM.isEmptyCell
          fun _ => True := (currentCell hcovers).bind fun _ _ => pure trivial
      exact (withRow hc hrow hcell).bind fun dropped _ => hnext dropped
    · exact bind (P := fun _ => True) (pure trivial) fun dropped _ => hnext dropped

/-- A join does not read the cells at its tuples without the flag, and with it not what they fix. -/
theorem crossJoin (hc : S.env.cube.Regular) {l r : TupleSource} (hl : l.Within S.domain)
    (hr : r.Within S.domain)
    (hA : S.nonEmpty = true → ∀ p ∈ l.rows, ∀ q ∈ r.rows,
      S.env.cube.Covers fun o => A o ∨ Pinned (p ++ q) o) :
    S.Sound d A (EvalM.crossJoin l r) (TupleList.Within S.domain) := by
  refine (materialize hr).bind fun rights hrights => ?_
  refine flag (f := fun b => EvalM.resultLimit >>= fun limit =>
    l.foldM (fun joined r => EvalM.joinRow b r rights.rows joined)
      (0, .empty (TupleList.joinedArity l.arity r.arity) limit) >>= fun p => Pure.pure p.2) ?_
  refine bind (P := fun _ => True) (read.bind fun _ _ => pure trivial) fun limit _ => ?_
  rw [TupleSource.foldM_eq_foldlM_rows]
  refine (foldlM (P := fun p => p.2.Within S.domain) (fun p hp q hq => ?_) ?_).bind fun p hp => pure hp
  · refine joinRow hc (hl q hq) (fun r h => hrights.1.rows h) (fun hb r h => ?_) hp
    exact hA hb q hq r (hrights.2 r h)
  · exact TupleList.within_empty _ _

/-! ## Sorting -/

section
variable {B : Nat → Prop} {key : EvalM SortKey}

theorem ancestorKeys (hc : S.env.cube.Regular) (hk : S.Sound d B key fun _ => True)
    {ms : List Member} (hms : RowWithin S.domain ms) :
    S.Sound d B (EvalM.ancestorKeys key ms) fun _ => True := by
  induction ms with
  | nil => exact pure trivial
  | cons m ms ih =>
    rw [EvalM.ancestorKeys, EvalM.restoring_setMember]
    have hm : RowWithin S.domain [m] := RowWithin.nil.cons (hms m List.mem_cons_self)
    refine (withRow hc hm (hk.weaken fun _ => .inl)).bind fun k _ => ?_
    refine (ih fun n hn => hms n (List.mem_cons_of_mem m hn)).bind fun path _ => ?_
    exact pure trivial

theorem sortPath (hc : S.env.cube.Regular) (mode : SortMode) (hk : S.Sound d B key fun _ => True)
    {r : Row} (hr : RowWithin S.domain r) :
    S.Sound d B (EvalM.sortPath mode key r) fun _ => True := by
  refine hk.bind fun own _ => ?_
  rcases r with _ | ⟨leading, r⟩
  · exact pure trivial
  · have hlead := hr leading List.mem_cons_self
    refine ite (fun _ => ?_) fun _ => ?_
    · exact bind (P := fun _ => True) (pure trivial) fun _ _ => pure trivial
    · refine (ancestorKeys hc hk fun a ha => ?_).bind fun _ _ => pure trivial
      exact hc.closed.ancestors leading hlead a (List.mem_reverse.1 ha)

theorem sort (hc : S.env.cube.Regular) (mode : SortMode) {l : TupleList} (hl : l.Within S.domain)
    (hk : ∀ r ∈ l.rows, S.Sound d (fun o => A o ∨ Pinned r o) key fun _ => True) :
    S.Sound d A (EvalM.sort mode l key) (TupleList.Within S.domain) := by
  have hrows : (TupleSource.list l).Within S.domain := fun r hr => hl.rows hr
  refine (forEachRow hc hrows fun r hr => sortPath hc mode (hk r hr) (hrows r hr)).bind fun _ _ => ?_
  exact lift fun sorted h => (TupleList.permute_yields hl _).of_ok h

end

end Sound

end Scene

/-! ## Operations -/

/-- The operations that put something in the context of what they read, or keep results. -/
def Operation.isScoped : Operation → Bool
  | memberValue | tupleValue | currentMember | cache _ | crossJoin _ | filter | order .. | aggregate _ =>
    true
  | _ => false

/-- An operation that is not scoped depends on nothing, on everything, or on what any child depends
on. -/
theorem Operation.rule_of_unscoped {op : Operation} (h : op.isScoped = false) :
    op.rule = .never ∨ op.rule = .always ∨ op.rule = .anyChild ∨ op.rule = .butDepends := by
  cases op with
  | count excludeEmpty => cases excludeEmpty <;> simp [Operation.rule]
  | _ => simp_all [Operation.isScoped, Operation.rule]

/-- An operation that is not scoped and looks at the context depends on everything. -/
theorem Operation.rule_of_readsContext {op : Operation} (h : op.isScoped = false)
    (hc : op.readsContext = true) : op.rule = .always := by
  cases op with
  | count excludeEmpty =>
    change excludeEmpty = true at hc
    rw [hc]
    rfl
  | _ => simp_all [Operation.isScoped, Operation.readsContext, Operation.rule]

theorem Operation.ruleIn_of_unscoped {op : Operation} (h : op.isScoped = false) (b : Bool)
    (rule : DependencyRule) : op.ruleIn b rule = rule := by
  cases op with
  | crossJoin _ => cases h
  | _ => rfl

/-- The key of a tuple: the sort expression as a text or as a number. -/
def EvalM.sortKey (byText : Bool) (x : EvalM Value) : EvalM SortKey :=
  if byText then do return .text (← asText x) else do return .number (← asDouble x)

/-- `Order` sorts by the keys of its sort expression. -/
theorem Operation.run_order (a : Address) (mode : SortMode) (byText : Bool) (x y : EvalM Value) :
    Operation.run a (.order mode byText) [x, y] = do
      return .list (← EvalM.sort mode (← EvalM.asList x) (EvalM.sortKey byText y)) := rfl

namespace Scene

variable {S : Scene} {d : Nat} {a : Address} {info : CalcInfo} {op : Operation} {cs : List Calc}

/-- The calculation reads the hierarchy at a place, under the flag of the scene. -/
abbrev Reads (S : Scene) (c : Calc) (o : Nat) : Prop := c.Reads S.env.cube S.nonEmpty o

/-- The evaluations of the children of the calculation at an address are sound. -/
def Children (S : Scene) (d : Nat) (a : Address) (cs : List Calc) : Prop :=
  ∀ (j : Nat) (c : Calc), cs[j]? = some c →
    S.Sound d (S.Reads c) (c.evaluate (j :: a)) (S.Typed c.type)

/-- A constant or a parameter, which depend on nothing, do not look at the context either. -/
theorem sound_never (hc : S.env.cube.Regular) (henv : S.env.Within S.domain)
    (hop : op.Within S.domain) (hrule : op.rule = .never) {A : Nat → Prop} (xs : List (EvalM Value)) :
    S.Sound d A (op.run a xs) (Value.Within S.domain) := by
  have hcomposed (h : op.readsContext = false) (h' : op.isCache = false) :
      EvalM.Composed S.env S.domain False (fun _ => False) (op.run a []) (Value.Within S.domain) :=
    op.run_composed a hc.closed henv hop h' (fun h'' => by rw [h] at h''; cases h'') (by simp)
  cases op with
  | constant v => exact .of_constant hc (hcomposed rfl rfl)
  | parameter name default => exact .of_constant hc (hcomposed rfl rfl)
  | count excludeEmpty => cases excludeEmpty <;> cases hrule
  | _ => cases hrule

/-- An operation that is not scoped reads what its children read, or depends on everything. -/
theorem sound_unscoped (hc : S.env.cube.Regular) (henv : S.env.Within S.domain)
    (hrule : info.rule = op.rule) (hop : op.Within S.domain) (hs : op.isScoped = false)
    (hcs : S.Children d a cs) :
    S.Sound d (S.Reads (.node info op cs)) (op.run a (Calc.evaluations a 0 cs))
      (Value.Within S.domain) := by
  have hrule' : op.ruleIn S.nonEmpty info.rule = op.rule := by
    rw [Operation.ruleIn_of_unscoped hs, hrule]
  have hcache : op.isCache = false := by
    cases op with
    | cache os => cases hs
    | _ => rfl
  rcases Operation.rule_of_unscoped hs with h | h
  · exact sound_never hc henv hop h _
  · have hchild {c : Calc} (hmem : c ∈ cs) (o : Nat) (ho : S.Reads c o) :
        S.Reads (.node info op cs) o := by
      rcases h with h | h | h
      · obtain ⟨k, hk, -⟩ := ho
        exact .of_always (hrule'.trans h) hk
      · exact .of_child (.inl (hrule'.trans h)) hmem ho
      · exact .of_child (.inr (hrule'.trans h)) hmem ho
    have hcomposed : EvalM.Composed S.env S.domain (op.readsContext = true)
        (· ∈ Calc.evaluations a 0 cs) (op.run a (Calc.evaluations a 0 cs)) (Value.Within S.domain) :=
      op.run_composed a hc.closed henv hop hcache id fun x hx => .given hx
    refine Sound.of_composed hc (fun hr o k hk => ?_) (fun y hy => ?_) hcomposed
    · exact .of_always (hrule'.trans (Operation.rule_of_readsContext hs hr)) hk
    · obtain ⟨j, c, hcj, rfl⟩ := Calc.mem_evaluations hy
      rw [Nat.zero_add]
      exact ((hcs j c hcj).weaken (hchild (List.mem_of_getElem? hcj))).mono fun v hv => hv.1

/-! ### Cells at the members of the children -/

theorem Sound.asMembers {A : Nat → Prop} {k : Nat}
    (hcs : ∀ (j : Nat) (c : Calc), cs[j]? = some c →
      S.Sound d A (c.evaluate ((k + j) :: a)) (S.Typed c.type)) :
    S.Sound d A (EvalM.asMembers (Calc.evaluations a k cs)) fun r => RowWithin S.domain r ∧
      List.Forall₂ (fun c m => c.type.Admits S.env.cube [m]) cs r := by
  induction cs generalizing k with
  | nil => exact .pure ⟨.nil, .nil⟩
  | cons c cs ih =>
    refine (Sound.asMember (hcs 0 c rfl)).bind fun m hm => ?_
    refine (ih fun j c' hc' => ?_).bind fun r hr => ?_
    · have hchild := hcs (j + 1) c' hc'
      rwa [show k + (j + 1) = k + 1 + j by omega] at hchild
    · exact .pure ⟨hr.1.cons hm.1, .cons hm.2 hr.2⟩

theorem sound_memberValue (hc : S.env.cube.Regular) (hd : S.env.cube.HierarchiesDistinct)
    (hrule : info.rule = .butDepends) (hcs : S.Children d a cs) :
    S.Sound d (S.Reads (.node info .memberValue cs))
      (Operation.run a .memberValue (Calc.evaluations a 0 cs)) (Value.Within S.domain) := by
  have hrule' : Operation.memberValue.ruleIn S.nonEmpty info.rule = .butDepends := hrule
  have hmembers := Sound.asMembers (A := S.Reads (.node info .memberValue cs)) (k := 0) fun j c hcj => by
    rw [Nat.zero_add]
    exact (hcs j c hcj).weaken fun o => .of_child (.inr hrule') (List.mem_of_getElem? hcj)
  refine hmembers.bind fun r hr => Sound.withRow hc hr.1 (Sound.currentCell fun o k hk => ?_)
  have hfixed : S.Reads (.node info .memberValue cs) o ∨ ∃ c ∈ cs, c.type.uses k true = true :=
    Calc.Reads.or_uses hrule' hk
  rcases hfixed with h | ⟨c, hmem, hu⟩
  · exact .inl h
  · obtain ⟨i, hi, rfl⟩ := List.getElem_of_mem hmem
    have hlen : i < r.length := hr.2.length_eq ▸ hi
    obtain ⟨m, hm, ho⟩ := pinned_of_admits hc hd (hr.2.get hi hlen) hk hu
    rw [List.mem_singleton.1 hm] at ho
    exact .inr ⟨r[i], List.getElem_mem hlen, ho⟩

theorem sound_tupleValue (hc : S.env.cube.Regular) (hd : S.env.cube.HierarchiesDistinct)
    (hrule : info.rule = .butDepends) {c : Calc} (hcs : S.Children d a [c]) :
    S.Sound d (S.Reads (.node info .tupleValue [c]))
      (Operation.run a .tupleValue (Calc.evaluations a 0 [c])) (Value.Within S.domain) := by
  have hrule' : Operation.tupleValue.ruleIn S.nonEmpty info.rule = .butDepends := hrule
  have hx : S.Sound d (S.Reads (.node info .tupleValue [c])) (c.evaluate (0 :: a)) (S.Typed c.type) :=
    (hcs 0 c rfl).weaken fun o => .of_child (.inr hrule') List.mem_cons_self
  refine hx.asTuple.bind fun r hr => Sound.withRow hc hr.1 (Sound.currentCell fun o k hk => ?_)
  have hfixed : S.Reads (.node info .tupleValue [c]) o ∨ ∃ c' ∈ [c], c'.type.uses k true = true :=
    Calc.Reads.or_uses hrule' hk
  rcases hfixed with h | ⟨c', hmem, hu⟩
  · exact .inl h
  · rw [List.mem_singleton.1 hmem] at hu
    exact .inr (pinned_of_admits hc hd hr.2 hk hu)

/-! ### Operations on the tuples of the first child -/

/-- What the second child reads, its set fixes or the calculation reads, too. -/
theorem reads_of_second (hc : S.env.cube.Regular) (hd : S.env.cube.HierarchiesDistinct)
    (hrule : op.ruleIn S.nonEmpty info.rule = .allButFirst) {c c' : Calc} {r : Row}
    (hr : c.type.Admits S.env.cube r) {o : Nat} (h : S.Reads c' o) :
    S.Reads (.node info op [c, c']) o ∨ Pinned r o := by
  obtain ⟨k, hk, hk'⟩ := h
  have hfixed : S.Reads (.node info op [c, c']) o ∨ c.type.uses k true = true :=
    Calc.Reads.of_rest hrule (List.mem_singleton_self c') hk ⟨k, hk, hk'⟩
  rcases hfixed with h | h
  · exact .inl h
  · exact .inr (pinned_of_admits hc hd hr hk h)

section
variable {c c' : Calc}

theorem sound_filter (hc : S.env.cube.Regular) (hd : S.env.cube.HierarchiesDistinct)
    (hrule : info.rule = .allButFirst) (hcs : S.Children d a [c, c']) :
    S.Sound d (S.Reads (.node info .filter [c, c']))
      (Operation.run a .filter (Calc.evaluations a 0 [c, c'])) (Value.Within S.domain) := by
  have hrule' : Operation.filter.ruleIn S.nonEmpty info.rule = .allButFirst := hrule
  have hx : S.Sound d (S.Reads (.node info .filter [c, c'])) (c.evaluate (0 :: a))
      (S.Typed c.type) := (hcs 0 c rfl).weaken fun o => .of_first hrule'
  refine hx.asSource.bind fun src hsrc => ?_
  refine (Sound.forEachRow (Q := fun _ => True) hc hsrc.1 fun r hr => ?_).bind fun keep _ => ?_
  · have hy := (hcs 1 c' rfl).weaken fun o => reads_of_second hc hd hrule' (hsrc.2 r hr)
    exact hy.along hc (EvalM.Composed.asBool (.given rfl))
  · exact (Sound.of_constant hc (EvalM.Composed.select hsrc.1 keep)).bind fun l hl => .pure hl

theorem sound_aggregate (hc : S.env.cube.Regular) (hd : S.env.cube.HierarchiesDistinct)
    (f : Aggregate) (hrule : info.rule = .allButFirst) (hcs : S.Children d a [c, c']) :
    S.Sound d (S.Reads (.node info (.aggregate f) [c, c']))
      (Operation.run a (.aggregate f) (Calc.evaluations a 0 [c, c'])) (Value.Within S.domain) := by
  have hrule' : (Operation.aggregate f).ruleIn S.nonEmpty info.rule = .allButFirst := hrule
  have hx : S.Sound d (S.Reads (.node info (.aggregate f) [c, c'])) (c.evaluate (0 :: a))
      (S.Typed c.type) := (hcs 0 c rfl).weaken fun o => .of_first hrule'
  refine hx.asSource.bind fun src hsrc => ?_
  refine (Sound.forEachRow (Q := fun _ => True) hc hsrc.1 fun r hr => ?_).bind fun values _ => ?_
  · have hy := (hcs 1 c' rfl).weaken fun o => reads_of_second hc hd hrule' (hsrc.2 r hr)
    exact hy.along hc (EvalM.Composed.asDouble (.given rfl))
  · exact .pure (Value.within_double _)

theorem Sound.sortKey (hc : S.env.cube.Regular) {A : Nat → Prop} {x : EvalM Value} {t : ExprType}
    (hx : S.Sound d A x (S.Typed t)) (byText : Bool) :
    S.Sound d A (EvalM.sortKey byText x) fun _ => True := by
  refine Sound.ite (fun _ => ?_) fun _ => ?_
  · exact (hx.along hc (EvalM.Composed.asText (.given rfl))).bind fun _ _ => .pure trivial
  · exact (hx.along hc (EvalM.Composed.asDouble (.given rfl))).bind fun _ _ => .pure trivial

theorem sound_order (hc : S.env.cube.Regular) (hd : S.env.cube.HierarchiesDistinct)
    (mode : SortMode) (byText : Bool) (hrule : info.rule = .allButFirst)
    (hcs : S.Children d a [c, c']) :
    S.Sound d (S.Reads (.node info (.order mode byText) [c, c']))
      (Operation.run a (.order mode byText) (Calc.evaluations a 0 [c, c']))
      (Value.Within S.domain) := by
  have hrule' : (Operation.order mode byText).ruleIn S.nonEmpty info.rule = .allButFirst := hrule
  have hx : S.Sound d (S.Reads (.node info (.order mode byText) [c, c'])) (c.evaluate (0 :: a))
      (S.Typed c.type) := (hcs 0 c rfl).weaken fun o => .of_first hrule'
  rw [Calc.evaluations, Calc.evaluations, Calc.evaluations, Operation.run_order]
  refine hx.asList.bind fun l hl => (Sound.sort hc mode hl.1 fun r hr => ?_).bind fun l hl => .pure hl
  have hy := (hcs 1 c' rfl).weaken fun o => reads_of_second hc hd hrule' (hl.2 r hr)
  exact hy.sortKey hc byText

/-! ### Joins -/

theorem sound_crossJoin (hc : S.env.cube.Regular) (hd : S.env.cube.HierarchiesDistinct)
    (onDemand : Bool) (hrule : info.rule = .anyChild) (hcs : S.Children d a [c, c']) :
    S.Sound d (S.Reads (.node info (.crossJoin onDemand) [c, c']))
      (Operation.run a (.crossJoin onDemand) (Calc.evaluations a 0 [c, c']))
      (Value.Within S.domain) := by
  have hrule' : (Operation.crossJoin onDemand).ruleIn S.nonEmpty info.rule =
      if S.nonEmpty then .butDepends else .anyChild := by
    rw [← hrule]
    rfl
  have hrules : (Operation.crossJoin onDemand).ruleIn S.nonEmpty info.rule = .anyChild ∨
      (Operation.crossJoin onDemand).ruleIn S.nonEmpty info.rule = .butDepends := by
    rw [hrule']
    cases S.nonEmpty
    · exact .inl rfl
    · exact .inr rfl
  have hx : S.Sound d (S.Reads (.node info (.crossJoin onDemand) [c, c'])) (c.evaluate (0 :: a))
      (S.Typed c.type) := (hcs 0 c rfl).weaken fun o => .of_child hrules List.mem_cons_self
  have hy : S.Sound d (S.Reads (.node info (.crossJoin onDemand) [c, c'])) (c'.evaluate (1 :: a))
      (S.Typed c'.type) :=
    (hcs 1 c' rfl).weaken fun o => .of_child hrules (List.mem_cons_of_mem c List.mem_cons_self)
  refine hx.asSource.bind fun l hl => hy.asSource.bind fun r hr => ?_
  refine Sound.flag (f := fun b =>
    if onDemand && !b then Pure.pure (Value.iterable (.cross l r))
    else EvalM.crossJoin l r >>= fun joined => Pure.pure (Value.list joined)) ?_
  refine Sound.ite (fun _ => .pure (hl.1.cross hr.1)) fun _ => ?_
  refine (Sound.crossJoin hc hl.1 hr.1 fun hb p hp q hq o k hk => ?_).bind fun joined hj => .pure hj
  rw [if_pos hb] at hrule'
  have hfixed : S.Reads (.node info (.crossJoin onDemand) [c, c']) o ∨
      ∃ x ∈ [c, c'], x.type.uses k true = true :=
    Calc.Reads.or_uses hrule' hk
  rcases hfixed with h | ⟨x, hx, hu⟩
  · exact .inl h
  · rcases List.mem_cons.1 hx with rfl | hx
    · exact .inr ((pinned_of_admits hc hd (hl.2 p hp) hk hu).append_left q)
    · rw [List.mem_singleton.1 hx] at hu
      exact .inr ((pinned_of_admits hc hd (hr.2 q hq) hk hu).append_right p)

end

end Scene

end Olap
