import Mathlib.Data.List.Forall2
import Olap.Proofs.Evaluation.Relocation
import Olap.Proofs.Tuple.Limits

/-!
# Actions with and without a limit

`Cap.Actions K env x y R`: the action `x`, run under the limit of `K`, does what `y` does without a
limit, with results that are related by `R`, unless the limit refuses some number of tuples. There is
one rule for each way to build an action, and one for each loop over the tuples of a set.
-/

set_option autoImplicit false

namespace Olap

/-- The environment with another limit on the tuples of lists. -/
def Environment.withLimit (env : Environment) (limit : Nat) : Environment :=
  { env with config := { env.config with resultLimit := limit } }

/-- The lists that are kept have no more tuples than the limit allows. -/
def EvalState.Bounded (limit : Nat) (s : EvalState) : Prop :=
  ∀ (k : CacheKey) (v : Value), s.cache[k]? = some v → v.Bounded limit

namespace Cap

variable {K : Cap} {env : Environment} {α β : Type}

/-! ## States and outcomes -/

/-- The states differ at most in what is counted, and in the limits of the sets that are kept. -/
structure States (K : Cap) (s t : EvalState) : Prop where
  alike : s.Alike False [] [] t
  kept : ∀ k : CacheKey, Option.Rel K.Values s.cache[k]? t.cache[k]?

/-- How the outcome under the limit compares with the outcome without it. -/
inductive Outcomes (K : Cap) (R : α → α → Prop) :
    Except CalcError α × EvalState → Except CalcError α × EvalState → Prop
  | refused {n : Nat} {s : EvalState} {p : Except CalcError α × EvalState} (h : K.limit < n)
      (hs : K.strict → s.Bounded K.limit) :
      Outcomes K R (.error (.resourceLimitExceeded n K.limit), s) p
  | both {r q : Except CalcError α} {s t : EvalState} (h : K.Results R r q) (hs : K.States s t) :
      Outcomes K R (r, s) (q, t)

/-- The lists are related, and what stands beside them is the same. -/
def Counted (K : Cap) (a b : β × TupleList) : Prop := a.1 = b.1 ∧ K.Lists a.2 b.2

/-- The first action does under the limit what the second one does without it (module doc). -/
def Actions (K : Cap) (env : Environment) (x y : EvalM α) (R : α → α → Prop) : Prop :=
  ∀ s t, K.States s t →
    K.Outcomes R (x.exec (env.withLimit K.limit) s) (y.exec (env.withLimit 0) t)

namespace States

variable {s t : EvalState}

theorem refl (h : K.strict → s.Bounded K.limit) : K.States s s := by
  refine ⟨⟨rfl, False.elim⟩, fun k => ?_⟩
  rcases hk : s.cache[k]? with _ | v
  · exact .none
  · exact .some (.refl fun hstrict => h hstrict k v hk)

theorem bounded (h : K.States s t) (hstrict : K.strict) : s.Bounded K.limit := by
  intro k v hv
  have hk := h.kept k
  rw [hv] at hk
  generalize t.cache[k]? = w at hk
  cases hk with
  | some h => exact h.bounded hstrict

theorem setRow (h : K.States s t) (r : Row) : K.States (s.setRow r) (t.setRow r) := by
  refine ⟨h.alike.setRow r, fun k => ?_⟩
  rw [EvalState.cache_setRow, EvalState.cache_setRow]
  exact h.kept k

theorem restore (h : K.States s t) (mark : Nat) : K.States (s.restore mark) (t.restore mark) := by
  refine ⟨h.alike.restore mark, fun k => ?_⟩
  rw [EvalState.cache_restore, EvalState.cache_restore]
  exact h.kept k

/-- The same change of what is neither kept nor counted. -/
theorem change {f : EvalState → EvalState} (h : K.States s t)
    (hkept : ∀ u v : EvalState, f (u.withKept v) = (f u).withKept (f v))
    (hcache : ∀ u, (f u).cache = u.cache) : K.States (f s) (f t) := by
  refine ⟨⟨?_, False.elim⟩, fun k => ?_⟩
  · exact (congrArg f h.alike.rest).trans (hkept s t)
  · rw [hcache, hcache]
    exact h.kept k

theorem keeping (h : K.States s t) (k : CacheKey) {v w : Value} (hv : K.Values v w) :
    K.States (EvalM.keeping s k v) (EvalM.keeping t k w) := by
  refine ⟨⟨congrArg (EvalM.keeping · k w) h.alike.rest, False.elim⟩, fun k' => ?_⟩
  rw [EvalM.getElem?_keeping, EvalM.getElem?_keeping]
  split
  · exact .some hv
  · exact h.kept k'

theorem cacheKey (h : K.States s t) (a : Address) (os : List Nat) :
    EvalM.cacheKey a os t = EvalM.cacheKey a os s := by
  rw [EvalM.cacheKey, EvalM.cacheKey, h.alike.context, h.alike.nonEmpty]

end States

/-! ## Actions -/

namespace Actions

open EvalM

variable {R : α → α → Prop} {Q : β → β → Prop}

theorem of_results {r q : Except CalcError α} (h : K.Results R r q) :
    K.Actions env (EvalM.lift r) (EvalM.lift q) R := by
  intro s t hst
  rw [exec_lift, exec_lift]
  exact .both h hst

theorem pure {a b : α} (h : R a b) : K.Actions env (pure a) (pure b) R := of_results (.ok h)

theorem throw (e : CalcError) : K.Actions env (throw e : EvalM α) (throw e) R :=
  of_results (.error e)

theorem lift (r : Except CalcError α) : K.Actions env (EvalM.lift r) (EvalM.lift r) Eq :=
  of_results (.of_same fun _ _ => rfl)

theorem liftCatalog (r : Except CatalogError α) :
    K.Actions env (EvalM.liftCatalog r) (EvalM.liftCatalog r) Eq := by
  cases r with
  | ok a => exact pure rfl
  | error e => exact throw _

theorem bind {x y : EvalM α} {f g : α → EvalM β} (hx : K.Actions env x y R)
    (hf : ∀ a b, R a b → K.Actions env (f a) (g b) Q) : K.Actions env (x >>= f) (y >>= g) Q := by
  intro s t hst
  have ho := hx s t hst
  rcases hs : x.exec (env.withLimit K.limit) s with ⟨r, s'⟩
  rcases ht : y.exec (env.withLimit 0) t with ⟨q, t'⟩
  rw [hs, ht] at ho
  cases ho with
  | refused h hbounded =>
    rw [exec_bind_error hs]
    exact .refused h hbounded
  | both h hst' =>
    cases h with
    | refused h =>
      rw [exec_bind_error hs]
      exact .refused h hst'.bounded
    | error e =>
      rw [exec_bind_error hs, exec_bind_error ht]
      exact .both (.error e) hst'
    | ok h =>
      rw [exec_bind_ok hs, exec_bind_ok ht]
      exact hf _ _ h s' t' hst'

theorem bind_eq {x y : EvalM α} {f g : α → EvalM β} (hx : K.Actions env x y Eq)
    (hf : ∀ a, K.Actions env (f a) (g a) Q) : K.Actions env (x >>= f) (y >>= g) Q :=
  hx.bind fun a _ h => h ▸ hf a

theorem ite {p : Prop} [Decidable p] {x x' y y' : EvalM α} (hx : p → K.Actions env x x' R)
    (hy : ¬ p → K.Actions env y y' R) :
    K.Actions env (if p then x else y) (if p then x' else y') R := by
  by_cases h : p
  · rw [if_pos h, if_pos h]
    exact hx h
  · rw [if_neg h, if_neg h]
    exact hy h

theorem foldlM {f g : α → β → EvalM α} {l : List β}
    (hf : ∀ a b, R a b → ∀ c, K.Actions env (f a c) (g b c) R) {a b : α} (h : R a b) :
    K.Actions env (l.foldlM f a) (l.foldlM g b) R := by
  induction l generalizing a b with
  | nil => exact pure h
  | cons c l ih =>
    rw [List.foldlM_cons, List.foldlM_cons]
    exact (hf a b h c).bind fun a' b' h' => ih h'

/-! ## The environment and the state -/

theorem bind_read {f g : Environment → EvalM α}
    (hf : K.Actions env (f (env.withLimit K.limit)) (g (env.withLimit 0)) R) :
    K.Actions env (read >>= f) (read >>= g) R := by
  intro s t hst
  rw [exec_bind_ok exec_read, exec_bind_ok exec_read]
  exact hf s t hst

/-- What is read does not depend on the limit. -/
theorem bind_catalog {f g : Environment → EvalM α} (hf : ∀ limit, f (env.withLimit limit) = f env)
    (hg : ∀ limit, g (env.withLimit limit) = g env) (h : K.Actions env (f env) (g env) R) :
    K.Actions env (read >>= f) (read >>= g) R :=
  bind_read ((hf K.limit).symm ▸ (hg 0).symm ▸ h)

theorem bind_resultLimit {f g : Nat → EvalM α} (hf : K.Actions env (f K.limit) (g 0) R) :
    K.Actions env (EvalM.resultLimit >>= f) (EvalM.resultLimit >>= g) R :=
  .bind (R := fun m n => m = K.limit ∧ n = 0) (bind_read (pure ⟨rfl, rfl⟩)) fun _ _ ⟨hm, hn⟩ =>
    hm ▸ hn ▸ hf

theorem nonEmpty {f g : Bool → EvalM α} (hf : ∀ b, K.Actions env (f b) (g b) R) :
    K.Actions env (get >>= fun s => f s.nonEmpty) (get >>= fun s => g s.nonEmpty) R := by
  intro s t hst
  rw [exec_bind_ok exec_get, exec_bind_ok exec_get, hst.alike.nonEmpty]
  exact hf s.nonEmpty s t hst

theorem poll (round : Nat) : K.Actions env (EvalM.poll round) (EvalM.poll round) Eq := by
  intro s t hst
  rw [exec_poll, exec_poll, hst.alike.execution]
  let checked := s.execution.checkRound env.config.checkInterval round
  exact .both (.of_same fun _ _ => rfl)
    (hst.change (f := fun u => { u with execution := checked.2 }) (fun _ _ => rfl) fun _ => rfl)

theorem currentMember (h : Hierarchy) :
    K.Actions env (EvalM.currentMember h) (EvalM.currentMember h) Eq := by
  intro s t hst
  rw [EvalM.currentMember, exec_bind_ok exec_get, exec_bind_ok exec_get, hst.alike.context]
  cases s.context[h.ordinal]? with
  | some m => exact .both (.ok rfl) hst
  | none => exact .both (.error _) hst

theorem currentCell : K.Actions env EvalM.currentCell EvalM.currentCell K.Values := by
  intro s t hst
  have hget : t.reader.get t.context = s.reader.get s.context := by
    rw [hst.alike.reader, hst.alike.context]
  have hstates (r : CellReader) : K.States { s with reader := r } { t with reader := r } :=
    hst.change (f := fun u => { u with reader := r }) (fun _ _ => rfl) fun _ => rfl
  rcases hs : s.reader.get s.context with ⟨v | _, r⟩
  · rw [exec_currentCell_ready hs, exec_currentCell_ready (hget.trans hs)]
    exact .both (.ok (.single (by cases v <;> rfl))) (hstates r)
  · rw [exec_currentCell_pending hs, exec_currentCell_pending (hget.trans hs)]
    refine .both (.of_same fun v hv => ?_) (hstates r)
    split at hv <;> cases hv
    exact .single rfl

theorem isEmptyCell : K.Actions env EvalM.isEmptyCell EvalM.isEmptyCell Eq :=
  currentCell.bind fun _ _ h => pure (h.convert (fun _ _ => rfl) fun _ _ => rfl)

/-! ## Contexts, nesting and kept results -/

theorem withRow (r : Row) {x y : EvalM α} (hx : K.Actions env x y R) :
    K.Actions env (EvalM.withRow r x) (EvalM.withRow r y) R := by
  intro s t hst
  have ho := hx _ _ (hst.setRow r)
  have hmark : t.mark = s.mark := congrArg List.length hst.alike.undo
  rw [exec_withRow, exec_withRow, hmark]
  generalize x.exec (env.withLimit K.limit) (s.setRow r) = o at ho ⊢
  generalize y.exec (env.withLimit 0) (t.setRow r) = p at ho ⊢
  cases ho with
  | refused h hbounded =>
    refine .refused h fun hstrict k v hv => hbounded hstrict k v ?_
    rwa [EvalState.cache_restore] at hv
  | both h hst' => exact .both h (hst'.restore s.mark)

theorem calculation (a : Address) {x y : EvalM α} (hx : K.Actions env x y R) :
    K.Actions env (EvalM.calculation a x) (EvalM.calculation a y) R := by
  intro s t hst
  have hdepth := hst.alike.depth
  rcases Nat.lt_or_ge s.depth env.config.maxEvalDepth with hlt | hge
  · have ho := hx _ _ (hst.change (f := entered) (fun _ _ => rfl) fun _ => rfl)
    have hs : s.depth < (env.withLimit K.limit).config.maxEvalDepth := hlt
    have ht : t.depth < (env.withLimit 0).config.maxEvalDepth := hdepth ▸ hlt
    rw [exec_calculation a x hs, exec_calculation a y ht]
    generalize x.exec (env.withLimit K.limit) (entered s) = o at ho ⊢
    generalize y.exec (env.withLimit 0) (entered t) = p at ho ⊢
    cases ho with
    | refused h hbounded => exact .refused h hbounded
    | both h hst' =>
      exact .both h (hst'.change (f := left env a) (fun _ _ => rfl) fun _ => rfl)
  · have hs : (env.withLimit K.limit).config.maxEvalDepth ≤ s.depth := hge
    have ht : (env.withLimit 0).config.maxEvalDepth ≤ t.depth := hdepth ▸ hge
    rw [exec_calculation_limited a x hs, exec_calculation_limited a y ht]
    exact .both (.error _) hst

theorem cached (a : Address) (os : List Nat) {x y : EvalM Value}
    (hx : K.Actions env x y K.Values) :
    K.Actions env (EvalM.cached a os x) (EvalM.cached a os y) K.Values := by
  intro s t hst
  have hkey := hst.cacheKey a os
  have hkept := hst.kept (EvalM.cacheKey a os s)
  rcases hs : s.cache[EvalM.cacheKey a os s]? with _ | v
  all_goals rcases ht : t.cache[EvalM.cacheKey a os s]? with _ | w
  all_goals rw [hs, ht] at hkept
  all_goals rw [← hkey] at ht
  · have ho := hx s t hst
    rcases hxs : x.exec (env.withLimit K.limit) s with ⟨r, s'⟩
    rcases hyt : y.exec (env.withLimit 0) t with ⟨q, t'⟩
    rw [hxs, hyt] at ho
    cases ho with
    | refused h hbounded =>
      rw [exec_cached_error hs hxs]
      exact .refused h hbounded
    | both h hst' =>
      cases h with
      | refused h =>
        rw [exec_cached_error hs hxs]
        exact .refused h hst'.bounded
      | error e =>
        rw [exec_cached_error hs hxs, exec_cached_error ht hyt]
        exact .both (.error e) hst'
      | ok h =>
        rw [exec_cached_ok hs hxs, exec_cached_ok ht hyt, hkey]
        exact .both (.ok h) (hst'.keeping _ h)
  · cases hkept
  · cases hkept
  · cases hkept with
    | some h =>
      rw [exec_cached_hit hs, exec_cached_hit ht]
      exact .both (.ok h) hst

/-! ## Values of a wanted kind -/

section
variable {x y : EvalM Value} (hx : K.Actions env x y K.Values)
include hx

/-- A conversion that does not look into sets. -/
theorem convert {f : Value → Except CalcError α} (hlist : ∀ l m, f (.list l) = f (.list m))
    (hiterable : ∀ s t, f (.iterable s) = f (.iterable t)) :
    K.Actions env (x >>= fun v => EvalM.lift (f v)) (y >>= fun v => EvalM.lift (f v)) Eq :=
  hx.bind fun _ _ h => h.convert hlist hiterable ▸ lift _

theorem asBool : K.Actions env (EvalM.asBool x) (EvalM.asBool y) Eq :=
  hx.convert (fun _ _ => rfl) fun _ _ => rfl

theorem asInteger : K.Actions env (EvalM.asInteger x) (EvalM.asInteger y) Eq :=
  hx.convert (fun _ _ => rfl) fun _ _ => rfl

theorem asDouble : K.Actions env (EvalM.asDouble x) (EvalM.asDouble y) Eq :=
  hx.convert (fun _ _ => rfl) fun _ _ => rfl

theorem asText : K.Actions env (EvalM.asText x) (EvalM.asText y) Eq :=
  hx.convert (fun _ _ => rfl) fun _ _ => rfl

theorem asMember : K.Actions env (EvalM.asMember x) (EvalM.asMember y) Eq :=
  hx.convert (fun _ _ => rfl) fun _ _ => rfl

theorem asTuple : K.Actions env (EvalM.asTuple x) (EvalM.asTuple y) Eq :=
  hx.convert (fun _ _ => rfl) fun _ _ => rfl

theorem asLevel : K.Actions env (EvalM.asLevel x) (EvalM.asLevel y) Eq :=
  hx.convert (fun _ _ => rfl) fun _ _ => rfl

theorem asHierarchy : K.Actions env (EvalM.asHierarchy x) (EvalM.asHierarchy y) Eq :=
  hx.convert (fun _ _ => rfl) fun _ _ => rfl

theorem asDimension : K.Actions env (EvalM.asDimension x) (EvalM.asDimension y) Eq :=
  hx.convert (fun _ _ => rfl) fun _ _ => rfl

theorem asList : K.Actions env (EvalM.asList x) (EvalM.asList y) K.Lists :=
  hx.bind fun _ _ h => of_results h.toList

theorem asSource : K.Actions env (EvalM.asSource x) (EvalM.asSource y) K.Sources :=
  hx.bind fun _ _ h => of_results h.toSource

end

theorem asMembers {xs ys : List (EvalM Value)}
    (hxs : List.Forall₂ (fun x y => K.Actions env x y K.Values) xs ys) :
    K.Actions env (EvalM.asMembers xs) (EvalM.asMembers ys) Eq := by
  induction hxs with
  | nil => exact pure rfl
  | cons hx _ ih => exact .bind_eq (asMember hx) fun m => .bind_eq ih fun ms => pure rfl

/-! ## Loops over the tuples of a set -/

/-- A loop that gathers tuples in a list, which is empty at first. -/
theorem gather {f g : β × TupleList → Row → EvalM (β × TupleList)} {rows : List Row} {b : β}
    {arity : Nat}
    (hf : ∀ b l m, K.Lists l m → ∀ r, K.Actions env (f (b, l) r) (g (b, m) r) K.Counted) :
    K.Actions env (rows.foldlM f (b, .empty arity K.limit) >>= fun a => Pure.pure a.2)
      (rows.foldlM g (b, .empty arity 0) >>= fun a => Pure.pure a.2) K.Lists := by
  refine .bind (R := K.Counted) (foldlM ?_ ⟨rfl, lists_empty arity⟩) fun a b hab => pure hab.2
  rintro ⟨b, l⟩ ⟨_, m⟩ ⟨rfl, h⟩ r
  exact hf b l m h r

section
variable {p q : TupleSource} (h : K.Sources p q)
include h

theorem forEachRow {f g : Row → EvalM α} (hf : ∀ r, K.Actions env (f r) (g r) Eq) :
    K.Actions env (EvalM.forEachRow p f) (EvalM.forEachRow q g) Eq := by
  rw [EvalM.forEachRow, EvalM.forEachRow, TupleSource.foldM_eq_foldlM_rows,
    TupleSource.foldM_eq_foldlM_rows, h.rows]
  refine .bind_eq (foldlM (fun a b hab r => ?_) rfl) fun _ => pure rfl
  subst hab
  exact .bind_eq (poll _) fun _ => .bind_eq (.withRow r (hf r)) fun _ => pure rfl

theorem materialize : K.Actions env (EvalM.materialize p) (EvalM.materialize q) K.Lists := by
  refine bind_resultLimit ?_
  rw [TupleSource.foldM_eq_foldlM_rows, TupleSource.foldM_eq_foldlM_rows, h.rows, h.arity]
  refine gather fun round l m hl r => ?_
  exact .bind_eq (poll round) fun _ => .bind (of_results (hl.add r)) fun _ _ h => pure ⟨rfl, h⟩

theorem select (keep : List Bool) :
    K.Actions env (EvalM.select p keep) (EvalM.select q keep) K.Lists := by
  refine bind_resultLimit ?_
  rw [TupleSource.foldM_eq_foldlM_rows, TupleSource.foldM_eq_foldlM_rows, h.rows, h.arity]
  refine gather fun keep l m hl r => ?_
  dsimp only
  split
  · exact .bind (of_results (hl.add r)) fun _ _ h => pure ⟨rfl, h⟩
  · exact pure ⟨rfl, hl⟩

end

theorem memberList (ms : List Member) :
    K.Actions env (EvalM.memberList ms) (EvalM.memberList ms) K.Values :=
  bind_resultLimit (.bind (of_results (results_ofMembers ms)) fun _ _ h => pure (.list h))

theorem joinRow (b : Bool) (left : Row) (rights : List Row) {round : Nat} {l m : TupleList}
    (h : K.Lists l m) :
    K.Actions env (EvalM.joinRow b left rights (round, l)) (EvalM.joinRow b left rights (round, m))
      K.Counted := by
  induction rights generalizing round l m with
  | nil => exact pure ⟨rfl, h⟩
  | cons right rest ih =>
    let next (l : TupleList) (dropped : Bool) : EvalM (Nat × TupleList) :=
      if dropped then EvalM.joinRow b left rest (round + 1, l)
      else EvalM.lift (l.add (left ++ right)) >>= fun l => EvalM.joinRow b left rest (round + 1, l)
    have hnext (dropped : Bool) : K.Actions env (next l dropped) (next m dropped) K.Counted :=
      .ite (fun _ => ih h) fun _ => .bind (of_results (h.add _)) fun _ _ h => ih h
    refine .bind_eq (poll round) fun _ => .ite (fun _ => ?_) fun _ => ?_
    · exact .bind_eq (.withRow _ isEmptyCell) hnext
    · exact .bind_eq (pure rfl) hnext

theorem crossJoin {p p' q q' : TupleSource} (hp : K.Sources p p') (hq : K.Sources q q') :
    K.Actions env (EvalM.crossJoin p q) (EvalM.crossJoin p' q') K.Lists := by
  refine .bind (materialize hq) fun l m hlm => ?_
  let join (p q : TupleSource) (rights : List Row) (b : Bool) : EvalM TupleList :=
    EvalM.resultLimit >>= fun limit =>
      p.foldM (fun joined r => EvalM.joinRow b r rights joined)
        (0, .empty (TupleList.joinedArity p.arity q.arity) limit) >>= fun a => Pure.pure a.2
  refine nonEmpty (f := join p q l.rows) (g := join p' q' m.rows) fun b => bind_resultLimit ?_
  rw [TupleSource.foldM_eq_foldlM_rows, TupleSource.foldM_eq_foldlM_rows, hp.rows, hp.arity, hq.arity,
    hlm.freed.rows]
  exact gather fun round l m h r => joinRow b r _ h

theorem anyFilled (rs : List Row) :
    K.Actions env (EvalM.anyFilled rs) (EvalM.anyFilled rs) Eq := by
  induction rs with
  | nil => exact pure rfl
  | cons r rs ih =>
    exact .bind_eq (.withRow r isEmptyCell) fun _ => .ite (fun _ => ih) fun _ => pure rfl

/-! ## Sorting -/

section
variable {key key' : EvalM SortKey} (hk : K.Actions env key key' Eq)
include hk

theorem ancestorKeys (ms : List Member) :
    K.Actions env (EvalM.ancestorKeys key ms) (EvalM.ancestorKeys key' ms) Eq := by
  induction ms with
  | nil => exact pure rfl
  | cons m ms ih =>
    rw [EvalM.ancestorKeys, EvalM.ancestorKeys, restoring_setMember, restoring_setMember]
    exact .bind_eq (.withRow [m] hk) fun _ => .bind_eq ih fun _ => pure rfl

theorem sortPath (mode : SortMode) (r : Row) :
    K.Actions env (EvalM.sortPath mode key r) (EvalM.sortPath mode key' r) Eq := by
  refine .bind_eq hk fun own => ?_
  rcases r with _ | ⟨leading, r⟩
  · exact pure rfl
  · refine .ite (fun _ => ?_) fun _ => ?_
    · exact .bind_eq (pure rfl) fun _ => pure rfl
    · exact .bind_eq (ancestorKeys hk _) fun _ => pure rfl

theorem sort (mode : SortMode) {l m : TupleList} (h : K.Lists l m) :
    K.Actions env (EvalM.sort mode l key) (EvalM.sort mode m key') K.Lists :=
  .bind_eq (forEachRow (.list h.freed) (sortPath hk mode)) fun _ => of_results (h.permute _)

end

end Actions

end Cap

end Olap
