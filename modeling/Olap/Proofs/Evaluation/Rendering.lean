import Olap.Proofs.Evaluation.Frame
import Olap.Proofs.Tuple.Limits

/-!
# Actions that never want a list in vain

`EvalM.Renders kept x Q`: as long as only results as `kept` says are kept, the action `x` keeps no
others, its results satisfy `Q`, and it does not fail because a value was wanted as a list that is
none. There is one rule for each way to build an action. An action asks for a list only through
`EvalM.asList`, which is safe if the action before it gives lists (`EvalM.Renders.asList`); for all
others it does not matter what the actions before them give. `EvalM.Composed` would not do, as it does
not tell one failure from another.
-/

set_option autoImplicit false

namespace Olap

/-- The failure to see a value as a list. -/
def CalcError.wantsList : CalcError → Bool
  | typeConversion _ target => target == "list"
  | _ => false

/-- The computation does not fail because a value was wanted as a list. -/
def WantsNoList {α : Type} (r : Except CalcError α) : Prop :=
  ∀ e, r = .error e → e.wantsList = false

namespace WantsNoList

variable {α β : Type}

theorem ok (a : α) : WantsNoList (.ok a) := by
  rintro e ⟨⟩

theorem error {e : CalcError} (h : e.wantsList = false) :
    WantsNoList (.error e : Except CalcError α) := by
  rintro _ ⟨⟩
  exact h

theorem bind {x : Except CalcError α} {f : α → Except CalcError β} (hx : WantsNoList x)
    (hf : ∀ a, WantsNoList (f a)) : WantsNoList (x >>= f) := by
  cases x with
  | ok a => exact hf a
  | error e => exact error (hx e rfl)

theorem foldlM {f : α → β → Except CalcError α} (hf : ∀ a b, WantsNoList (f a b)) (l : List β)
    (a : α) : WantsNoList (l.foldlM f a) := by
  induction l generalizing a with
  | nil => exact ok a
  | cons b l ih => exact (hf a b).bind ih

end WantsNoList

/-! ## Values and tuples -/

theorem Value.toBool_wantsNoList (v : Value) : WantsNoList v.toBool := by
  cases v <;> first | exact .ok _ | exact .error rfl

theorem Value.toSource_wantsNoList (v : Value) : WantsNoList v.toSource := by
  cases v <;> first | exact .ok _ | exact .error rfl

namespace TupleList

variable {l m : TupleList}

theorem checkLimit_wantsNoList (attempted limit : Nat) :
    WantsNoList (checkLimit attempted limit) := by
  unfold checkLimit
  split
  · exact .error rfl
  · exact .ok _

theorem ofMembers_wantsNoList (ms : List Member) (limit : Nat) :
    WantsNoList (ofMembers ms limit) :=
  (checkLimit_wantsNoList _ _).bind fun _ => .ok _

theorem add_wantsNoList (r : Row) : WantsNoList (l.add r) := by
  unfold add
  split
  · exact .error rfl
  · exact (checkLimit_wantsNoList _ _).bind fun _ => .ok _

theorem append_wantsNoList : WantsNoList (l.append m) := by
  rw [append_eq_foldlM]
  exact .foldlM (fun l r => l.add_wantsNoList r) _ _

theorem permute_wantsNoList (places : List Nat) : WantsNoList (l.permute places) := by
  refine .foldlM (fun out i => ?_) places _
  split
  · exact add_wantsNoList _
  · exact .error rfl

end TupleList

namespace EvalM

/-! ## Actions -/

section
variable {α : Type} (kept : CacheKey → Value → Prop)

/-- Only such results are kept. -/
def Keeping (s : EvalState) : Prop := ∀ (k : CacheKey) (v : Value), s.cache[k]? = some v → kept k v

/-- How an action has to end. -/
structure Rendered (Q : α → Prop) (outcome : Except CalcError α × EvalState) : Prop where
  keeping : Keeping kept outcome.2
  holds : ∀ a, outcome.1 = .ok a → Q a
  wantsNoList : WantsNoList outcome.1

/-- The action gives results that satisfy `Q` (module doc). -/
def Renders (x : EvalM α) (Q : α → Prop) : Prop :=
  ∀ (env : Environment) (s : EvalState), Keeping kept s → Rendered kept Q (x.exec env s)

end

namespace Renders

variable {kept : CacheKey → Value → Prop} {α β : Type} {P Q : α → Prop} {x : EvalM α}

/-- An action that does not touch what is kept. -/
theorem of_cache_eq (hcache : ∀ env s, (x.exec env s).2.cache = s.cache)
    (hQ : ∀ env s a, (x.exec env s).1 = .ok a → Q a)
    (hfails : ∀ env s, WantsNoList (x.exec env s).1) : Renders kept x Q := by
  intro env s hs
  refine ⟨fun k v hv => ?_, hQ env s, hfails env s⟩
  rw [hcache] at hv
  exact hs k v hv

theorem pure {a : α} (h : Q a) : Renders kept (pure a) Q :=
  of_cache_eq (fun _ _ => rfl) (fun _ _ _ ha => by cases ha; exact h) fun _ _ => .ok a

theorem throw {e : CalcError} (h : e.wantsList = false) : Renders kept (throw e : EvalM α) Q :=
  of_cache_eq (fun _ _ => rfl) (nofun) fun _ _ => .error h

theorem mono (hx : Renders kept x P) (h : ∀ a, P a → Q a) : Renders kept x Q := by
  intro env s hs
  obtain ⟨hkeeping, hP, hfails⟩ := hx env s hs
  exact ⟨hkeeping, fun a ha => h a (hP a ha), hfails⟩

theorem trivially (hx : Renders kept x P) : Renders kept x fun _ => True :=
  hx.mono fun _ _ => trivial

theorem bind {f : α → EvalM β} {R : β → Prop} (hx : Renders kept x P)
    (hf : ∀ a, P a → Renders kept (f a) R) : Renders kept (x >>= f) R := by
  intro env s hs
  obtain ⟨hkeeping, hP, hfails⟩ := hx env s hs
  rcases h : x.exec env s with ⟨e | a, t⟩
  all_goals rw [h] at hkeeping hP hfails
  · rw [exec_bind_error h]
    exact ⟨hkeeping, nofun, .error (hfails e rfl)⟩
  · rw [exec_bind_ok h]
    exact hf a (hP a rfl) env t hkeeping

theorem ite {p : Prop} [Decidable p] {y : EvalM α} (hx : p → Renders kept x Q)
    (hy : ¬ p → Renders kept y Q) : Renders kept (if p then x else y) Q := by
  by_cases h : p
  · rw [if_pos h]
    exact hx h
  · rw [if_neg h]
    exact hy h

theorem foldlM {f : α → β → EvalM α} {l : List β}
    (hf : ∀ a, ∀ b ∈ l, Renders kept (f a b) fun _ => True) (a : α) :
    Renders kept (l.foldlM f a) fun _ => True := by
  induction l generalizing a with
  | nil => exact pure trivial
  | cons b l ih =>
    rw [List.foldlM_cons]
    obtain ⟨hb, hl⟩ := List.forall_mem_cons.1 fun b hb a => hf a b hb
    exact (hb a).bind fun a' _ => ih (fun a b h => hl b h a) a'

theorem lift {r : Except CalcError α} (h : WantsNoList r) :
    Renders kept (EvalM.lift r) fun _ => True :=
  of_cache_eq (fun _ _ => congrArg (·.2.cache) (exec_lift r)) (fun _ _ _ _ => trivial) fun _ _ => by
    rw [exec_lift]
    exact h

theorem liftCatalog (r : Except CatalogError α) :
    Renders kept (EvalM.liftCatalog r) fun _ => True := by
  cases r with
  | ok a => exact pure trivial
  | error e => exact throw (by cases e <;> rfl)

/-! ## The environment and the state -/

theorem read : Renders kept read fun _ => True :=
  of_cache_eq (fun _ _ => rfl) (fun _ _ _ _ => trivial) fun env _ => .ok env

theorem resultLimit : Renders kept EvalM.resultLimit fun _ => True :=
  read.bind fun _ _ => pure trivial

theorem nonEmpty {f : Bool → EvalM α} (hf : ∀ b, Renders kept (f b) Q) :
    Renders kept (get >>= fun s => f s.nonEmpty) Q := by
  intro env s hs
  rw [exec_bind_ok exec_get]
  exact hf s.nonEmpty env s hs

theorem poll (round : Nat) : Renders kept (EvalM.poll round) fun _ => True := by
  refine of_cache_eq (fun env s => ?_) (fun _ _ _ _ => trivial) fun env s e he => ?_
  · rw [exec_poll]
  · rw [exec_poll] at he
    unfold Execution.checkRound Execution.check at he
    split at he
    · rcases hstop : s.execution.stopped? with _ | reason
      all_goals
        rw [hstop] at he
        cases he
      unfold Execution.stopped? at hstop
      repeat' split at hstop
      all_goals cases hstop
      all_goals rfl
    · cases he

theorem currentCell : Renders kept EvalM.currentCell fun v => v.isSet = false := by
  intro env s hs
  rcases hr : s.reader.get s.context with ⟨v | _, reader⟩
  · rw [exec_currentCell_ready hr]
    refine ⟨hs, ?_, .ok _⟩
    rintro _ ⟨⟩
    cases v <;> rfl
  · rw [exec_currentCell_pending hr]
    refine ⟨hs, fun v hv => ?_, fun e he => ?_⟩
    · split at hv <;> cases hv
      rfl
    · split at he <;> cases he
      rfl

theorem isEmptyCell : Renders kept EvalM.isEmptyCell fun _ => True :=
  currentCell.bind fun _ _ => pure trivial

theorem currentMember (h : Hierarchy) : Renders kept (EvalM.currentMember h) fun _ => True := by
  intro env s hs
  rw [EvalM.currentMember, exec_bind_ok exec_get]
  split
  · exact ⟨hs, fun _ _ => trivial, .ok _⟩
  · exact ⟨hs, fun _ _ => trivial, .error rfl⟩

/-! ## Contexts, nesting and kept results -/

theorem withRow (r : Row) (hx : Renders kept x Q) : Renders kept (EvalM.withRow r x) Q := by
  intro env s hs
  obtain ⟨hkeeping, hQ, hfails⟩ := hx env (s.setRow r) fun k v hv => hs k v (by simpa using hv)
  rw [exec_withRow]
  exact ⟨fun k v hv => hkeeping k v (by simpa using hv), hQ, hfails⟩

theorem calculation (a : Address) (hx : Renders kept x Q) :
    Renders kept (EvalM.calculation a x) Q := by
  intro env s hs
  obtain ⟨hkeeping, hQ, hfails⟩ := hx env (entered s) hs
  rcases Nat.lt_or_ge s.depth env.config.maxEvalDepth with h | h
  · rw [exec_calculation a x h]
    exact ⟨hkeeping, hQ, hfails⟩
  · rw [exec_calculation_limited a x h]
    exact ⟨hs, nofun, .error rfl⟩

/-- What may be kept for a calculation is what its evaluation gives. -/
theorem cached {a : Address} {os : List Nat} {x : EvalM Value} {Q : Value → Prop}
    (hkept : ∀ b names v, kept (a, b, names) v ↔ Q v) (hx : Renders kept x Q) :
    Renders kept (EvalM.cached a os x) Q := by
  intro env s hs
  rcases hk : s.cache[cacheKey a os s]? with _ | v
  · obtain ⟨hkeeping, hQ, hfails⟩ := hx env s hs
    rcases h : x.exec env s with ⟨e | v, t⟩
    all_goals rw [h] at hkeeping hQ hfails
    · rw [exec_cached_error hk h]
      exact ⟨hkeeping, hQ, hfails⟩
    · rw [exec_cached_ok hk h]
      refine ⟨fun k w hw => ?_, hQ, hfails⟩
      rw [getElem?_keeping] at hw
      split at hw
      · rename_i heq
        cases hw
        rw [← heq]
        exact (hkept _ _ _).2 (hQ v rfl)
      · exact hkeeping k w hw
  · rw [exec_cached_hit hk]
    refine ⟨hs, ?_, .ok v⟩
    rintro _ ⟨⟩
    exact (hkept _ _ _).1 (hs _ v hk)

/-! ## Values of a wanted kind -/

section
variable {x : EvalM Value} {P : Value → Prop} (hx : Renders kept x P)
include hx

theorem through {f : Value → Except CalcError α} (hf : ∀ v, WantsNoList (f v)) :
    Renders kept (x >>= fun v => EvalM.lift (f v)) fun _ => True :=
  hx.bind fun v _ => lift (hf v)

theorem asBool : Renders kept (EvalM.asBool x) fun _ => True :=
  hx.through Value.toBool_wantsNoList

theorem asInteger : Renders kept (EvalM.asInteger x) fun _ => True :=
  hx.through fun v => by cases v <;> first | exact .ok _ | exact .error rfl

theorem asDouble : Renders kept (EvalM.asDouble x) fun _ => True :=
  hx.through fun v => by cases v <;> first | exact .ok _ | exact .error rfl

theorem asText : Renders kept (EvalM.asText x) fun _ => True :=
  hx.through fun v => by cases v <;> first | exact .ok _ | exact .error rfl

theorem asMember : Renders kept (EvalM.asMember x) fun _ => True := by
  refine hx.through fun v => ?_
  unfold Value.toMember
  split
  · exact .ok _
  · exact .ok _
  · exact .error rfl

theorem asTuple : Renders kept (EvalM.asTuple x) fun _ => True :=
  hx.through fun v => by cases v <;> first | exact .ok _ | exact .error rfl

theorem asSource : Renders kept (EvalM.asSource x) fun _ => True :=
  hx.through Value.toSource_wantsNoList

theorem asLevel : Renders kept (EvalM.asLevel x) fun _ => True :=
  hx.through fun v => by cases v <;> first | exact .ok _ | exact .error rfl

theorem asHierarchy : Renders kept (EvalM.asHierarchy x) fun _ => True :=
  hx.through fun v => by cases v <;> first | exact .ok _ | exact .error rfl

theorem asDimension : Renders kept (EvalM.asDimension x) fun _ => True :=
  hx.through fun v => by cases v <;> first | exact .ok _ | exact .error rfl

end

/-- A list may be asked for where there is one. -/
theorem asList {x : EvalM Value} (hx : Renders kept x fun v => ∃ l, v = .list l) :
    Renders kept (EvalM.asList x) fun _ => True := by
  refine hx.bind ?_
  rintro _ ⟨l, rfl⟩
  exact lift (.ok l)

theorem asMembers {xs : List (EvalM Value)} (hxs : ∀ x ∈ xs, Renders kept x fun _ => True) :
    Renders kept (EvalM.asMembers xs) fun _ => True := by
  induction xs with
  | nil => exact pure trivial
  | cons x xs ih =>
    obtain ⟨hx, hxs⟩ := List.forall_mem_cons.1 hxs
    exact hx.asMember.bind fun m _ => (ih hxs).bind fun ms _ => pure trivial

/-! ## Loops over the tuples of a set -/

theorem forEachRow (p : TupleSource) {f : Row → EvalM α}
    (hf : ∀ r, Renders kept (f r) fun _ => True) :
    Renders kept (EvalM.forEachRow p f) fun _ => True := by
  rw [EvalM.forEachRow, TupleSource.foldM_eq_foldlM_rows]
  refine bind (foldlM (fun a r _ => ?_) _) fun _ _ => pure trivial
  exact (poll _).bind fun _ _ => (withRow r (hf r)).bind fun _ _ => pure trivial

theorem materialize (p : TupleSource) : Renders kept (EvalM.materialize p) fun _ => True := by
  refine resultLimit.bind fun limit _ => ?_
  rw [TupleSource.foldM_eq_foldlM_rows]
  refine bind (foldlM (fun a r _ => ?_) _) fun _ _ => pure trivial
  exact (poll _).bind fun _ _ => (lift (TupleList.add_wantsNoList r)).bind fun _ _ => pure trivial

theorem select (p : TupleSource) (keep : List Bool) :
    Renders kept (EvalM.select p keep) fun _ => True := by
  refine resultLimit.bind fun limit _ => ?_
  rw [TupleSource.foldM_eq_foldlM_rows]
  refine bind (foldlM (fun a r _ => ?_) _) fun _ _ => pure trivial
  obtain ⟨keep, l⟩ := a
  dsimp only
  split
  · exact (lift (TupleList.add_wantsNoList r)).bind fun _ _ => pure trivial
  · exact pure trivial

theorem memberList (ms : List Member) :
    Renders kept (EvalM.memberList ms) fun v => ∃ l, v = .list l :=
  resultLimit.bind fun limit _ => (lift (TupleList.ofMembers_wantsNoList ms limit)).bind fun l _ =>
    pure ⟨l, rfl⟩

theorem joinRow (nonEmpty : Bool) (left : Row) (rights : List Row) (joined : Nat × TupleList) :
    Renders kept (EvalM.joinRow nonEmpty left rights joined) fun _ => True := by
  induction rights generalizing joined with
  | nil => exact pure trivial
  | cons right rest ih =>
    have hnext (dropped : Bool) : Renders kept
        (if dropped then EvalM.joinRow nonEmpty left rest (joined.1 + 1, joined.2)
          else EvalM.lift (joined.2.add (left ++ right)) >>= fun l =>
            EvalM.joinRow nonEmpty left rest (joined.1 + 1, l)) fun _ => True :=
      ite (fun _ => ih _) fun _ => (lift (TupleList.add_wantsNoList _)).bind fun _ _ => ih _
    refine (poll _).bind fun _ _ => ite (fun _ => ?_) fun _ => ?_
    · exact (withRow _ isEmptyCell).bind fun dropped _ => hnext dropped
    · exact bind (P := fun _ => True) (pure trivial) fun dropped _ => hnext dropped

theorem crossJoin (p q : TupleSource) : Renders kept (EvalM.crossJoin p q) fun _ => True := by
  refine (materialize q).bind fun rights _ => ?_
  refine nonEmpty (f := fun b => EvalM.resultLimit >>= fun limit =>
    p.foldM (fun joined r => EvalM.joinRow b r rights.rows joined)
      (0, .empty (TupleList.joinedArity p.arity q.arity) limit) >>= fun j => Pure.pure j.2) fun b => ?_
  refine resultLimit.bind fun limit _ => ?_
  rw [TupleSource.foldM_eq_foldlM_rows]
  exact bind (foldlM (fun joined r _ => joinRow b r _ joined) _) fun _ _ => pure trivial

theorem anyFilled (rs : List Row) : Renders kept (EvalM.anyFilled rs) fun _ => True := by
  induction rs with
  | nil => exact pure trivial
  | cons r rs ih =>
    exact (withRow r isEmptyCell).bind fun _ _ => ite (fun _ => ih) fun _ => pure trivial

/-! ## Sorting -/

section
variable {key : EvalM SortKey} (hk : Renders kept key fun _ => True)
include hk

theorem ancestorKeys (ms : List Member) :
    Renders kept (EvalM.ancestorKeys key ms) fun _ => True := by
  induction ms with
  | nil => exact pure trivial
  | cons m ms ih =>
    rw [EvalM.ancestorKeys, EvalM.restoring_setMember]
    exact (withRow [m] hk).bind fun _ _ => ih.bind fun _ _ => pure trivial

theorem sortPath (mode : SortMode) (r : Row) :
    Renders kept (EvalM.sortPath mode key r) fun _ => True := by
  refine hk.bind fun own _ => ?_
  rcases r with _ | ⟨leading, r⟩
  · exact pure trivial
  · refine ite (fun _ => ?_) fun _ => ?_
    · exact bind (P := fun _ => True) (pure trivial) fun _ _ => pure trivial
    · exact (ancestorKeys hk _).bind fun _ _ => pure trivial

theorem sort (mode : SortMode) (l : TupleList) :
    Renders kept (EvalM.sort mode l key) fun _ => True :=
  (forEachRow _ fun r => sortPath hk mode r).bind fun _ _ => lift (TupleList.permute_wantsNoList _)

end

/-! ## Constructors -/

theorem addElement (l : TupleList) (v : Value) :
    Renders kept (EvalM.addElement l v) fun _ => True := by
  cases v with
  | member m => exact lift (TupleList.add_wantsNoList _)
  | tuple r => exact lift (TupleList.add_wantsNoList _)
  | list m => exact lift TupleList.append_wantsNoList
  | null => exact pure trivial
  | _ => exact throw rfl

theorem addElements {xs : List (EvalM Value)} (hxs : ∀ x ∈ xs, Renders kept x fun _ => True)
    (l : TupleList) : Renders kept (EvalM.addElements l xs) fun _ => True := by
  induction xs generalizing l with
  | nil => exact pure trivial
  | cons x xs ih =>
    obtain ⟨hx, hxs⟩ := List.forall_mem_cons.1 hxs
    exact hx.bind fun v _ => (addElement l v).bind fun l' _ => ih hxs l'

theorem tupleOf (r : Row) : Renders kept (EvalM.tupleOf r) fun v => ∃ r, v = .tuple r := by
  unfold EvalM.tupleOf
  split
  · exact throw rfl
  · exact pure ⟨r, rfl⟩

/-! ## Catalog objects -/

theorem hierarchyOf (m : Member) : Renders kept (EvalM.hierarchyOf m) fun _ => True := by
  refine read.bind fun env _ => ?_
  split
  · exact pure trivial
  · exact throw rfl

theorem singleHierarchy (d : Dimension) :
    Renders kept (EvalM.singleHierarchy d) fun _ => True := by
  unfold EvalM.singleHierarchy
  split
  · exact pure trivial
  · exact throw rfl

theorem targetDepth (target : DescendantsTarget) (m : Member) {xs : List (EvalM Value)}
    (hxs : ∀ x ∈ xs, Renders kept x fun _ => True) :
    Renders kept (EvalM.targetDepth target m xs) fun _ => True := by
  unfold EvalM.targetDepth
  split
  · refine (hxs _ List.mem_cons_self).asLevel.bind fun k _ => ?_
    exact ite (fun _ => bind (P := fun _ => True) (throw rfl) fun _ _ => pure trivial)
      fun _ => pure trivial
  · refine (hxs _ List.mem_cons_self).asInteger.bind fun n _ => ?_
    exact ite (fun _ => bind (P := fun _ => True) (throw rfl) fun _ _ => pure trivial)
      fun _ => pure trivial
  · exact pure trivial

theorem drillDown (cube : Cube) (targets : List Member) (recursive : Bool) (round : Nat)
    (ms : List Member) :
    Renders kept (EvalM.drillDown cube targets recursive round ms) fun _ => True := by
  induction ms generalizing round with
  | nil => exact pure trivial
  | cons m ms ih => exact (poll _).bind fun _ _ => (ih _).bind fun _ _ => pure trivial

end Renders

end EvalM

end Olap
