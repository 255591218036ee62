import Olap.Proofs.Evaluation.Contracts
import Olap.Proofs.Tuple.Rows

/-!
# What values hold

Under every contract the sets that evaluations give are legal lists, or joins of such
(`TupleSource.Solid`). Under a strict contract values also belong to their types, column by column
(`Contract.Holds`). The conversions of values and the loops over tuples keep to this.
-/

set_option autoImplicit false

namespace Olap

theorem Row.Holds.within {c : Cube} {ss : List Scope} {r : Row} (hr : Row.Holds c ss r) :
    RowWithin (Domain.ofCube c) r := by
  induction hr with
  | nil => exact .nil
  | cons hm _ ih => exact ih.cons hm.mem

namespace Contract

variable {T : Contract} {α β : Type}

/-! ## Values of a type -/

/-- Under a strict contract the members of the tuple are of the scopes. -/
def RowOf (T : Contract) (ss : List Scope) (r : Row) : Prop := T.strict → Row.Holds T.env.cube ss r

/-- A legal list of tuples of the scopes. -/
structure ListOf (T : Contract) (ss : List Scope) (l : TupleList) : Prop where
  legal : l.Legal T.env.config.resultLimit
  arity : T.strict → l.arity = ss.length
  rows : ∀ r ∈ l.rows, T.RowOf ss r

/-- A legal list of tuples of the scopes, or a join of such lists. -/
structure SourceOf (T : Contract) (ss : List Scope) (s : TupleSource) : Prop where
  solid : s.Solid T.env.config.resultLimit
  arity : T.strict → s.arity = ss.length
  pos : T.strict → 0 < ss.length
  rows : ∀ r ∈ s.rows, T.RowOf ss r

/-- What the value of a type is: any set is one, and under a strict contract every value belongs to
its type. -/
def Holds (T : Contract) : ExprType → Value → Prop
  | .set t, v => ∃ s, v.toSource = .ok s ∧ T.SourceOf t.scopes s
  | t, v => T.strict → v.Belongs T.env.cube t

/-- The value is a list of tuples of the scopes. -/
def IsList (T : Contract) (ss : List Scope) (v : Value) : Prop := ∃ l, v = .list l ∧ T.ListOf ss l

variable {ss us : List Scope} {s t : Scope} {l m : TupleList} {r : Row} {v : Value}

theorem ListOf.source (hl : T.ListOf ss l) : T.SourceOf ss (.list l) where
  solid := hl.legal
  arity := hl.arity
  pos hstrict := hl.arity hstrict ▸ l.arity_pos
  rows := hl.rows

theorem IsList.holds {e : ExprType} (hv : T.IsList e.scopes v) : T.Holds (.set e) v := by
  obtain ⟨l, rfl, hl⟩ := hv
  exact ⟨.list l, rfl, hl.source⟩

theorem Holds.belongs {e : ExprType} (hv : T.Holds e v) (hstrict : T.strict) :
    v.Belongs T.env.cube e := by
  cases e with
  | set e =>
    obtain ⟨s, hs, hsource⟩ := hv
    refine ⟨s, hs, ?_, fun r hr => hsource.rows r hr hstrict⟩
    rw [hsource.arity hstrict, e.length_scopes]
  | _ => exact hv hstrict

/-! ## Lists -/

theorem listOf_empty {arity : Nat} (h : T.strict → arity = ss.length ∧ 0 < ss.length) :
    T.ListOf ss (.empty arity T.env.config.resultLimit) where
  legal := TupleList.legal_empty _ _
  arity hstrict := by
    obtain ⟨harity, hpos⟩ := h hstrict
    show max arity 1 = ss.length
    omega
  rows := by
    rw [TupleList.rows_empty]
    exact List.forall_mem_nil _

theorem ListOf.add (hl : T.ListOf ss l) (hr : T.RowOf ss r) : T.Allows (T.ListOf ss) (l.add r) := by
  refine .intro (fun l' h => ?_) fun hstrict e h => ?_
  · obtain ⟨hlegal, harity, hrows⟩ := hl.legal.add h
    refine ⟨hlegal, fun hstrict => harity.trans (hl.arity hstrict), fun q hq => ?_⟩
    rw [hrows] at hq
    rcases List.mem_append.1 hq with hq | hq
    · exact hl.rows q hq
    · exact List.mem_singleton.1 hq ▸ hr
  · refine TupleList.add_error h ?_
    rw [hl.arity hstrict]
    exact (hr hstrict).length_eq.symm

theorem ListOf.append (hl : T.ListOf ss l) (harity : T.strict → m.arity = ss.length)
    (hm : ∀ r ∈ m.rows, T.RowOf ss r) : T.Allows (T.ListOf ss) (l.append m) := by
  refine .intro (fun l' h => ?_) fun hstrict e h => ?_
  · obtain ⟨hlegal, harity, hrows⟩ := hl.legal.append h
    refine ⟨hlegal, fun hstrict => harity.trans (hl.arity hstrict), fun q hq => ?_⟩
    rw [hrows] at hq
    exact (List.mem_append.1 hq).elim (hl.rows q) (hm q)
  · exact TupleList.append_error h ((harity hstrict).trans (hl.arity hstrict).symm)

theorem ListOf.permute (hl : T.ListOf ss l) (places : List Nat) :
    T.Allows (T.ListOf ss) (l.permute places) := by
  refine .intro (fun l' h => ?_) fun _ e h => TupleList.permute_error h
  obtain ⟨hlegal, harity, hrows⟩ := TupleList.permute_ok h
  rw [hl.legal.limit_eq] at hlegal
  exact ⟨hlegal, fun hstrict => harity.trans (hl.arity hstrict), fun r hr => hl.rows r (hrows hr)⟩

theorem ListOf.subList (hl : T.ListOf ss l) (count : Nat) : T.ListOf ss (l.subList 0 count) := by
  obtain ⟨hlegal, hrows⟩ := hl.legal.subList 0 count
  refine ⟨hlegal, hl.arity, fun r hr => hl.rows r ?_⟩
  rw [hrows, List.drop_zero] at hr
  exact List.mem_of_mem_take hr

theorem listOf_ofMembers {ms : List Member} (hlen : T.strict → ss.length = 1)
    (hms : ∀ m ∈ ms, T.RowOf ss [m]) :
    T.Allows (T.ListOf ss) (TupleList.ofMembers ms T.env.config.resultLimit) := by
  refine .intro (fun l h => ?_) fun _ e h => TupleList.ofMembers_error h
  obtain ⟨hlegal, harity, hrows⟩ := TupleList.ofMembers_ok h
  refine ⟨hlegal, fun hstrict => harity.trans (hlen hstrict).symm, fun r hr => ?_⟩
  rw [hrows] at hr
  obtain ⟨m, hm, rfl⟩ := List.mem_map.1 hr
  exact hms m hm

/-- The join of two sets has the columns of both, as long as these can be counted. -/
theorem SourceOf.cross {p q : TupleSource} (hp : T.SourceOf ss p) (hq : T.SourceOf us q)
    (hlen : T.strict → ss.length + us.length < UInt64.size) : T.SourceOf (ss ++ us) (.cross p q) where
  solid := ⟨hp.solid, hq.solid⟩
  arity hstrict := by
    show TupleList.joinedArity p.arity q.arity = _
    rw [hp.arity hstrict, hq.arity hstrict, TupleList.joinedArity_eq_add (hlen hstrict),
      List.length_append]
  pos hstrict := by
    rw [List.length_append]
    exact Nat.add_pos_left (hp.pos hstrict) _
  rows r hr := by
    obtain ⟨x, hx, hr⟩ := List.mem_flatMap.1 hr
    obtain ⟨y, hy, rfl⟩ := List.mem_map.1 hr
    exact fun hstrict => List.rel_append (hp.rows x hx hstrict) (hq.rows y hy hstrict)

namespace Ensures

/-! ## Values of a wanted kind -/

section
variable {x : EvalM Value} {P : Value → Prop} (hx : T.Ensures x P)
include hx

theorem asBool : T.Ensures (EvalM.asBool x) fun _ => True :=
  hx.bind fun v _ => lift (by cases v <;> first | trivial | exact fun _ => rfl)

theorem asInteger : T.Ensures (EvalM.asInteger x) fun _ => True :=
  hx.bind fun v _ => lift (by cases v <;> first | trivial | exact fun _ => rfl)

theorem asDouble : T.Ensures (EvalM.asDouble x) fun _ => True :=
  hx.bind fun v _ => lift (by cases v <;> first | trivial | exact fun _ => rfl)

theorem asText : T.Ensures (EvalM.asText x) fun _ => True :=
  hx.bind fun v _ => lift (by cases v <;> first | trivial | exact fun _ => rfl)

end

section
variable {x : EvalM Value}

theorem asMember (hx : T.Ensures x (T.Holds (.member s))) :
    T.Ensures (EvalM.asMember x) fun m => T.RowOf [s] [m] := by
  refine hx.bind fun v hv => lift (.intro (fun m h hstrict => ?_) fun hstrict e h => ?_)
  all_goals obtain rfl | ⟨n, rfl, hn⟩ := hv hstrict
  · cases h
  · cases h
    exact .cons hn .nil
  · cases h
    rfl
  · cases h

theorem asTuple (hx : T.Ensures x (T.Holds (.tuple ss))) :
    T.Ensures (EvalM.asTuple x) (T.RowOf ss) := by
  refine hx.bind fun v hv => lift (.intro (fun r h hstrict => ?_) fun hstrict e h => ?_)
  all_goals
    obtain ⟨r, rfl, hr⟩ := hv hstrict
    cases h
  exact hr

theorem asSource {e : ExprType} (hx : T.Ensures x (T.Holds (.set e))) :
    T.Ensures (EvalM.asSource x) (T.SourceOf e.scopes) := by
  refine hx.bind fun v hv => lift ?_
  obtain ⟨s, hs, hsource⟩ := hv
  rw [hs]
  exact hsource

theorem asList {e : ExprType} (hx : T.Ensures x (T.Holds (.set e))) :
    T.Ensures (EvalM.asList x) (T.ListOf e.scopes) := by
  refine hx.bind fun v hv => lift ?_
  obtain ⟨s, hs, hsource⟩ := hv
  cases v with
  | list l =>
    cases hs
    exact ⟨hsource.solid, hsource.arity, hsource.rows⟩
  | _ => exact fun _ => rfl

theorem asLevel (hx : T.Ensures x (T.Holds (.level s))) : T.Ensures (EvalM.asLevel x) fun l =>
    T.strict → s.Tells (Scope.dimensionName l.hierarchy) l.hierarchy := by
  refine hx.bind fun v hv => lift (.intro (fun m h hstrict => ?_) fun hstrict e h => ?_)
  all_goals
    obtain ⟨l, rfl, hl⟩ := hv hstrict
    cases h
  exact hl

theorem asHierarchy (hx : T.Ensures x (T.Holds (.hierarchy s))) :
    T.Ensures (EvalM.asHierarchy x) fun h => T.strict → h ∈ T.env.cube.hierarchies ∧
      s.Tells h.dimension h.uniqueName := by
  refine hx.bind fun v hv => lift (.intro (fun m h hstrict => ?_) fun hstrict e h => ?_)
  all_goals
    obtain ⟨k, hk, rfl, htells⟩ := hv hstrict
    cases h
  exact ⟨hk, htells⟩

theorem asDimension (hx : T.Ensures x (T.Holds (.dimension s))) :
    T.Ensures (EvalM.asDimension x) fun d => T.strict → d ∈ T.env.cube.dimensions ∧
      ∀ h, d.singleHierarchy? = some h → s.Tells h.dimension h.uniqueName := by
  refine hx.bind fun v hv => lift (.intro (fun m h hstrict => ?_) fun hstrict e h => ?_)
  all_goals
    obtain ⟨d, hd, rfl, htells⟩ := hv hstrict
    cases h
  exact ⟨hd, htells⟩

end

/-- The members of several operands, each of the scope of its place. -/
theorem asMembers {xs : List (EvalM Value)}
    (hxs : List.Forall₂ (fun s x => T.Ensures (EvalM.asMember x) fun m => T.RowOf [s] [m]) ss xs) :
    T.Ensures (EvalM.asMembers xs) (T.RowOf ss) := by
  induction hxs with
  | nil => exact pure fun _ => .nil
  | cons hx _ ih =>
    refine hx.bind fun m hm => ih.bind fun ms hms => pure fun hstrict => ?_
    obtain ⟨hm, -⟩ := List.forall₂_cons.1 (hm hstrict)
    exact .cons hm (hms hstrict)

/-! ## Loops over the tuples of a set -/

theorem forEachRow {p : TupleSource} {f : Row → EvalM α} (hp : T.SourceOf ss p)
    (hf : ∀ r ∈ p.rows, T.Ensures (f r) fun _ => True) :
    T.Ensures (EvalM.forEachRow p f) fun _ => True := by
  rw [EvalM.forEachRow, TupleSource.foldM_eq_foldlM_rows]
  refine bind (foldlM (P := fun _ _ => True) (fun _ r hr _ _ => ?_) trivial) fun _ _ => pure trivial
  exact (poll _).bind fun _ _ => (withRow (fun hstrict => (hp.rows r hr hstrict).within)
    (hf r hr)).bind fun _ _ => pure trivial

theorem materialize {p : TupleSource} (hp : T.SourceOf ss p) :
    T.Ensures (EvalM.materialize p) (T.ListOf ss) := by
  refine resultLimit.bind fun limit hlimit => ?_
  subst hlimit
  rw [TupleSource.foldM_eq_foldlM_rows]
  have hstart : T.ListOf ss (.empty p.arity T.env.config.resultLimit) :=
    listOf_empty fun hstrict => ⟨hp.arity hstrict, hp.pos hstrict⟩
  refine bind (foldlM (P := fun _ q => T.ListOf ss q.2) (fun _ r hr q hq => ?_) hstart)
    fun q hq => pure hq
  exact (poll _).bind fun _ _ => (lift (hq.add (hp.rows r hr))).bind fun _ hl => pure hl

theorem select {p : TupleSource} (hp : T.SourceOf ss p) (keep : List Bool) :
    T.Ensures (EvalM.select p keep) (T.ListOf ss) := by
  refine resultLimit.bind fun limit hlimit => ?_
  subst hlimit
  rw [TupleSource.foldM_eq_foldlM_rows]
  have hstart : T.ListOf ss (.empty p.arity T.env.config.resultLimit) :=
    listOf_empty fun hstrict => ⟨hp.arity hstrict, hp.pos hstrict⟩
  refine bind (foldlM (P := fun _ q => T.ListOf ss q.2) (fun _ r hr q hq => ?_) hstart)
    fun q hq => pure hq
  obtain ⟨keep, l⟩ := q
  dsimp only
  split
  · exact (lift (hq.add (hp.rows r hr))).bind fun _ hl => pure hl
  · exact pure hq

theorem memberList {ms : List Member} (hlen : T.strict → ss.length = 1)
    (hms : ∀ m ∈ ms, T.RowOf ss [m]) : T.Ensures (EvalM.memberList ms) (T.IsList ss) := by
  refine resultLimit.bind fun limit hlimit => ?_
  subst hlimit
  exact (lift (listOf_ofMembers hlen hms)).bind fun l hl => pure ⟨l, rfl, hl⟩

theorem joinRow (nonEmpty : Bool) {left : Row} (hl : T.RowOf ss left) {rights : List Row}
    (hr : ∀ r ∈ rights, T.RowOf us r) {joined : Nat × TupleList}
    (hj : T.ListOf (ss ++ us) joined.2) :
    T.Ensures (EvalM.joinRow nonEmpty left rights joined) fun q => T.ListOf (ss ++ us) q.2 := by
  induction rights generalizing joined with
  | nil => exact pure hj
  | cons right rest ih =>
    obtain ⟨hright, hrest⟩ := List.forall_mem_cons.1 hr
    have hrow : T.RowOf (ss ++ us) (left ++ right) :=
      fun hstrict => List.rel_append (hl hstrict) (hright hstrict)
    have hnext (dropped : Bool) : T.Ensures
        (if dropped then EvalM.joinRow nonEmpty left rest (joined.1 + 1, joined.2)
          else EvalM.lift (joined.2.add (left ++ right)) >>= fun l =>
            EvalM.joinRow nonEmpty left rest (joined.1 + 1, l)) fun q => T.ListOf (ss ++ us) q.2 :=
      ite (fun _ => ih hrest hj) fun _ => (lift (hj.add hrow)).bind fun l hl => ih hrest hl
    refine (poll _).bind fun _ _ => ite (fun _ => ?_) fun _ => ?_
    · exact (withRow (fun hstrict => (hrow hstrict).within) isEmptyCell).bind fun dropped _ =>
        hnext dropped
    · exact bind (P := fun _ => True) (pure trivial) fun dropped _ => hnext dropped

theorem crossJoin {p q : TupleSource} (hp : T.SourceOf ss p) (hq : T.SourceOf us q)
    (hlen : T.strict → ss.length + us.length < UInt64.size) :
    T.Ensures (EvalM.crossJoin p q) (T.ListOf (ss ++ us)) := by
  have hcross := hp.cross hq hlen
  refine (materialize hq).bind fun rights hrights => ?_
  refine nonEmpty (f := fun b => EvalM.resultLimit >>= fun limit =>
    p.foldM (fun joined r => EvalM.joinRow b r rights.rows joined)
      (0, .empty (TupleList.joinedArity p.arity q.arity) limit) >>= fun j => Pure.pure j.2) fun b => ?_
  refine resultLimit.bind fun limit hlimit => ?_
  subst hlimit
  rw [TupleSource.foldM_eq_foldlM_rows]
  have hstart : T.ListOf (ss ++ us)
      (.empty (TupleList.joinedArity p.arity q.arity) T.env.config.resultLimit) :=
    listOf_empty fun hstrict => ⟨hcross.arity hstrict, hcross.pos hstrict⟩
  refine bind (foldlM (P := fun _ j => T.ListOf (ss ++ us) j.2) (fun _ r hr j hj => ?_) hstart)
    fun j hj => pure hj
  exact joinRow b (hp.rows r hr) hrights.rows hj

theorem anyFilled {rs : List Row} (hrs : ∀ r ∈ rs, T.RowOf ss r) :
    T.Ensures (EvalM.anyFilled rs) fun _ => True := by
  induction rs with
  | nil => exact pure trivial
  | cons r rs ih =>
    obtain ⟨hr, hrs⟩ := List.forall_mem_cons.1 hrs
    refine (withRow (fun hstrict => (hr hstrict).within) isEmptyCell).bind fun empty _ => ?_
    exact ite (fun _ => ih hrs) fun _ => pure trivial

/-! ## Sorting -/

section
variable {key : EvalM SortKey} (hk : T.Ensures key fun _ => True)
include hk

theorem ancestorKeys {ms : List Member}
    (hms : T.strict → RowWithin (Domain.ofCube T.env.cube) ms) :
    T.Ensures (EvalM.ancestorKeys key ms) fun _ => True := by
  induction ms with
  | nil => exact pure trivial
  | cons m ms ih =>
    rw [EvalM.ancestorKeys, EvalM.restoring_setMember]
    have hm (hstrict : T.strict) : RowWithin (Domain.ofCube T.env.cube) [m] :=
      RowWithin.nil.cons (hms hstrict m List.mem_cons_self)
    refine (withRow hm hk).bind fun k _ => ?_
    refine (ih fun hstrict n hn => hms hstrict n (List.mem_cons_of_mem m hn)).bind fun path _ => ?_
    exact pure trivial

theorem sortPath (mode : SortMode) (hr : T.RowOf ss r) :
    T.Ensures (EvalM.sortPath mode key r) fun _ => True := by
  refine hk.bind fun own _ => ?_
  rcases r with _ | ⟨leading, r⟩
  · exact pure trivial
  · refine ite (fun _ => ?_) fun _ => ?_
    · exact bind (P := fun _ => True) (pure trivial) fun _ _ => pure trivial
    · refine (ancestorKeys hk fun hstrict a ha => ?_).bind fun _ _ => pure trivial
      refine (T.named hstrict).toRegular.closed.ancestors leading ?_ a (List.mem_reverse.1 ha)
      exact (hr hstrict).within leading List.mem_cons_self

theorem sort (mode : SortMode) (hl : T.ListOf ss l) :
    T.Ensures (EvalM.sort mode l key) (T.ListOf ss) :=
  (forEachRow hl.source fun r hr => sortPath hk mode (hl.rows r hr)).bind fun _ _ =>
    lift (hl.permute _)

end

/-! ## Elements of sets -/

end Ensures

/-- Under a strict contract the value adds tuples of the scopes to a set. -/
def Element (T : Contract) (ss : List Scope) (v : Value) : Prop :=
  T.strict → match v with
    | .member m => Row.Holds T.env.cube ss [m]
    | .tuple r => Row.Holds T.env.cube ss r
    | .list l => l.arity = ss.length ∧ ∀ r ∈ l.rows, Row.Holds T.env.cube ss r
    | _ => True

namespace Ensures

theorem addElement (hl : T.ListOf ss l) (hv : T.Element ss v) :
    T.Ensures (EvalM.addElement l v) (T.ListOf ss) := by
  cases v with
  | member m => exact lift (hl.add hv)
  | tuple r => exact lift (hl.add hv)
  | list m => exact lift (hl.append (fun hstrict => (hv hstrict).1) fun r hr hstrict =>
      (hv hstrict).2 r hr)
  | null => exact pure hl
  | _ => exact throw rfl

theorem addElements {xs : List (EvalM Value)} (hxs : ∀ x ∈ xs, T.Ensures x (T.Element ss))
    (hl : T.ListOf ss l) : T.Ensures (EvalM.addElements l xs) (T.ListOf ss) := by
  induction xs generalizing l with
  | nil => exact pure hl
  | cons x xs ih =>
    obtain ⟨hx, hxs⟩ := List.forall_mem_cons.1 hxs
    exact hx.bind fun v hv => (addElement hl hv).bind fun l' hl' => ih hxs hl'

theorem tupleOf (hr : T.RowOf ss r) : T.Ensures (EvalM.tupleOf r) (T.Holds (.tuple ss)) := by
  unfold EvalM.tupleOf
  split
  · exact throw rfl
  · exact pure fun hstrict => ⟨r, rfl, hr hstrict⟩

/-! ## Catalog objects -/

theorem hierarchyOf {n : Member} (hn : T.RowOf [s] [n]) :
    T.Ensures (EvalM.hierarchyOf n) fun h => T.strict → h ∈ T.env.cube.hierarchies ∧
      s.Tells h.dimension h.uniqueName := by
  refine read.bind ?_
  rintro _ rfl
  split
  · rename_i h hh
    refine pure fun hstrict => ?_
    obtain ⟨⟨k, hk, hmem, htells⟩, -⟩ := List.forall₂_cons.1 (hn hstrict)
    rw [(T.named hstrict).toRegular.hierarchyOf?_eq hk hmem] at hh
    cases hh
    exact ⟨hk, htells⟩
  · exact throw rfl

theorem singleHierarchy {d : Dimension} (hd : T.strict → d ∈ T.env.cube.dimensions ∧
      ∀ h, d.singleHierarchy? = some h → s.Tells h.dimension h.uniqueName) :
    T.Ensures (EvalM.singleHierarchy d) fun h => T.strict → h ∈ T.env.cube.hierarchies ∧
      s.Tells h.dimension h.uniqueName := by
  unfold EvalM.singleHierarchy
  rcases h : d.singleHierarchy? with _ | k
  · exact throw rfl
  · refine pure fun hstrict => ?_
    obtain ⟨hmem, htells⟩ := hd hstrict
    exact ⟨List.mem_flatMap.2 ⟨d, hmem, Dimension.mem_of_singleHierarchy? h⟩, htells k h⟩

/-- The hierarchy that a level names is the one that its scope names. -/
theorem levelHierarchy {k : Level}
    (hk : T.strict → s.Tells (Scope.dimensionName k.hierarchy) k.hierarchy) :
    T.Ensures (EvalM.liftCatalog (T.env.cube.hierarchy k.hierarchy)) fun h =>
      T.strict → h ∈ T.env.cube.hierarchies ∧ s.Tells h.dimension h.uniqueName := by
  refine liftCatalog fun h hh hstrict => ?_
  have hmem := Cube.mem_hierarchies_of_hierarchy hh
  have hname : h.uniqueName = k.hierarchy := by
    unfold Cube.hierarchy at hh
    split at hh
    · rename_i hfind
      cases hh
      simpa using List.find?_some hfind
    · cases hh
  refine ⟨hmem, ?_⟩
  have htells := hk hstrict
  rwa [← hname, (T.named hstrict).readable h hmem] at htells

theorem targetDepth {target : DescendantsTarget} {n : Member} {argument : List (EvalM Value)}
    (hxs : ∀ x ∈ argument, T.Ensures x fun _ => True) :
    T.Ensures (EvalM.targetDepth target n argument) fun _ => True := by
  have hlevel {x : EvalM Value} (hx : T.Ensures x fun _ => True) :
      T.Ensures (EvalM.asLevel x) fun _ => True :=
    hx.bind fun v _ => lift (by cases v <;> first | trivial | exact fun _ => rfl)
  unfold EvalM.targetDepth
  split
  · refine (hlevel (hxs _ List.mem_cons_self)).bind fun k _ => ?_
    exact ite (fun _ => bind (P := fun _ => True) (throw rfl) fun _ _ => pure trivial)
      fun _ => pure trivial
  · refine (hxs _ List.mem_cons_self).asInteger.bind fun n _ => ?_
    exact ite (fun _ => bind (P := fun _ => True) (throw rfl) fun _ _ => pure trivial)
      fun _ => pure trivial
  · exact pure trivial

theorem drillDown (targets : List Member) (recursive : Bool) {round : Nat} {ms : List Member}
    (hms : ∀ m ∈ ms, T.RowOf [s] [m]) :
    T.Ensures (EvalM.drillDown T.env.cube targets recursive round ms)
      fun ns => ∀ n ∈ ns, T.RowOf [s] [n] := by
  induction ms generalizing round with
  | nil => exact pure (List.forall_mem_nil _)
  | cons m ms ih =>
    obtain ⟨hm, hms⟩ := List.forall_mem_cons.1 hms
    refine (poll _).bind fun _ _ => (ih hms).bind fun rest hrest => pure fun n hn => ?_
    rcases List.mem_append.1 hn with hn | hn
    · intro hstrict
      obtain ⟨⟨h, hh, hmem, htells⟩, -⟩ := List.forall₂_cons.1 (hm hstrict)
      have hn := (T.named hstrict).toRegular.mem_of_drillDown hh hmem hn
      exact .cons ⟨h, hh, hn, htells⟩ .nil
    · exact hrest n hn

end Ensures

end Contract

end Olap
