import Mathlib.Data.List.Forall2
import Olap.Proofs.Evaluation.Domain
import Olap.Proofs.Evaluation.Exec

/-!
# What operations are composed of

`EvalM.Composed env D contextual given x Q`: in the environment `env` the action `x` is put together
from the given actions and the primitive ones below, its results satisfy `Q`, and all values that are
passed on in it are within the domain `D`. Only a `contextual` action looks at the context, or changes
it for a part of itself. `EvalM.Matched` says of two actions that they are put together alike, of
pairs of given actions. Every operation but the one that keeps results is composed of the evaluations
of its children, whatever these are (`Operation.run_matched`). What is closed under the rules of
`Composed` therefore holds of all evaluations, by one induction over the tree
(`Calc.evaluate_of_closed`).
-/

set_option autoImplicit false

namespace Olap

namespace EvalM

section
variable (env : Environment) (D : Domain) (contextual : Prop) (given : EvalM Value → Prop)

/-- An action composed of given ones (module doc). -/
inductive Composed : {α : Type} → EvalM α → (α → Prop) → Prop
  | given {x : EvalM Value} (h : given x) : Composed x (Value.Within D)
  | pure {α : Type} {a : α} {Q : α → Prop} (h : Q a) : Composed (pure a) Q
  | throw {α : Type} {e : CalcError} {Q : α → Prop} (h : e.isSignal = false) :
      Composed (throw e : EvalM α) Q
  | bind {α β : Type} {x : EvalM α} {f : α → EvalM β} {P : α → Prop} {Q : β → Prop}
      (hx : Composed x P) (hf : ∀ a, P a → Composed (f a) Q) : Composed (x >>= f) Q
  | mono {α : Type} {x : EvalM α} {P Q : α → Prop} (hx : Composed x P) (h : ∀ a, P a → Q a) :
      Composed x Q
  | read : Composed read (· = env)
  | poll (round : Nat) : Composed (poll round) fun _ => True
  | nonEmpty {α : Type} {f : Bool → EvalM α} {Q : α → Prop} (hc : contextual)
      (hf : ∀ b, Composed (f b) Q) : Composed (get >>= fun s => f s.nonEmpty) Q
  | currentMember {h : Hierarchy} (hc : contextual) (hh : D.hierarchy h) :
      Composed (currentMember h) D.member
  | currentCell (hc : contextual) : Composed currentCell (Value.Within D)
  | withRow {α : Type} {r : Row} {x : EvalM α} {Q : α → Prop} (hc : contextual)
      (hr : RowWithin D r) (hx : Composed x Q) : Composed (withRow r x) Q

end

section
variable (env : Environment) (D : Domain) (contextual : Prop)
variable (given : EvalM Value → EvalM Value → Prop)

/-- Two actions composed alike, of pairs of given ones (module doc). -/
inductive Matched : {α : Type} → EvalM α → EvalM α → (α → Prop) → Prop
  | given {x y : EvalM Value} (h : given x y) : Matched x y (Value.Within D)
  | pure {α : Type} {a : α} {Q : α → Prop} (h : Q a) : Matched (pure a) (pure a) Q
  | throw {α : Type} {e : CalcError} {Q : α → Prop} (h : e.isSignal = false) :
      Matched (throw e : EvalM α) (throw e) Q
  | bind {α β : Type} {x y : EvalM α} {f g : α → EvalM β} {P : α → Prop} {Q : β → Prop}
      (hx : Matched x y P) (hf : ∀ a, P a → Matched (f a) (g a) Q) : Matched (x >>= f) (y >>= g) Q
  | mono {α : Type} {x y : EvalM α} {P Q : α → Prop} (hx : Matched x y P) (h : ∀ a, P a → Q a) :
      Matched x y Q
  | read : Matched read read (· = env)
  | poll (round : Nat) : Matched (poll round) (poll round) fun _ => True
  | nonEmpty {α : Type} {f g : Bool → EvalM α} {Q : α → Prop} (hc : contextual)
      (hf : ∀ b, Matched (f b) (g b) Q) :
      Matched (get >>= fun s => f s.nonEmpty) (get >>= fun s => g s.nonEmpty) Q
  | currentMember {h : Hierarchy} (hc : contextual) (hh : D.hierarchy h) :
      Matched (currentMember h) (currentMember h) D.member
  | currentCell (hc : contextual) : Matched currentCell currentCell (Value.Within D)
  | withRow {α : Type} {r : Row} {x y : EvalM α} {Q : α → Prop} (hc : contextual)
      (hr : RowWithin D r) (hx : Matched x y Q) : Matched (withRow r x) (withRow r y) Q

end

namespace Matched

variable {env : Environment} {D : Domain} {contextual : Prop} {α β : Type}
variable {given : EvalM Value → EvalM Value → Prop}

theorem composed {given' : EvalM Value → Prop} (hgiven : ∀ x y, given x y → given' x) {x y : EvalM α}
    {Q : α → Prop} (h : Matched env D contextual given x y Q) :
    Composed env D contextual given' x Q := by
  induction h with
  | given h => exact .given (hgiven _ _ h)
  | pure h => exact .pure h
  | throw h => exact .throw h
  | bind _ _ ihx ihf => exact .bind ihx ihf
  | mono _ h ih => exact .mono ih h
  | read => exact .read
  | poll round => exact .poll round
  | nonEmpty hc _ ih => exact .nonEmpty hc ih
  | currentMember hc hh => exact .currentMember hc hh
  | currentCell hc => exact .currentCell hc
  | withRow hc hr _ ih => exact .withRow hc hr ih

theorem lift {Q : α → Prop} {r : Except CalcError α} (h : Yields Q r) :
    Matched env D contextual given (EvalM.lift r) (EvalM.lift r) Q := by
  cases r with
  | ok a => exact .pure h
  | error e => exact .throw h

theorem liftCatalog {Q : α → Prop} {r : Except CatalogError α} (h : ∀ a, r = .ok a → Q a) :
    Matched env D contextual given (EvalM.liftCatalog r) (EvalM.liftCatalog r) Q := by
  cases r with
  | ok a => exact .pure (h a rfl)
  | error e => exact .throw (CalcError.ofCatalog_isSignal e)

theorem resultLimit :
    Matched env D contextual given EvalM.resultLimit EvalM.resultLimit fun _ => True :=
  .bind .read fun _ _ => .pure trivial

theorem ite {p : Prop} [Decidable p] {x y x' y' : EvalM α} {Q : α → Prop}
    (hx : p → Matched env D contextual given x x' Q)
    (hy : ¬ p → Matched env D contextual given y y' Q) :
    Matched env D contextual given (if p then x else y) (if p then x' else y') Q := by
  by_cases h : p
  · rw [if_pos h, if_pos h]
    exact hx h
  · rw [if_neg h, if_neg h]
    exact hy h

theorem foldlM {P : α → Prop} {f g : α → β → EvalM α} {l : List β}
    (hf : ∀ a, P a → ∀ b ∈ l, Matched env D contextual given (f a b) (g a b) P) {a : α} (ha : P a) :
    Matched env D contextual given (l.foldlM f a) (l.foldlM g a) P := by
  induction l generalizing a with
  | nil => exact .pure ha
  | cons b l ih =>
    rw [List.foldlM_cons, List.foldlM_cons]
    refine .bind (hf a ha b List.mem_cons_self) fun a' ha' => ih (fun a'' h b' hb => ?_) ha'
    exact hf a'' h b' (List.mem_cons_of_mem b hb)

/-! ## Values of a wanted kind -/

section
variable {x y : EvalM Value} (hx : Matched env D contextual given x y (Value.Within D))
include hx

theorem asBool : Matched env D contextual given (EvalM.asBool x) (EvalM.asBool y) fun _ => True :=
  hx.bind fun v _ => lift v.toBool_yields

theorem asInteger :
    Matched env D contextual given (EvalM.asInteger x) (EvalM.asInteger y) fun _ => True :=
  hx.bind fun v _ => lift v.toInteger_yields

theorem asDouble :
    Matched env D contextual given (EvalM.asDouble x) (EvalM.asDouble y) fun _ => True :=
  hx.bind fun v _ => lift v.toDouble_yields

theorem asText : Matched env D contextual given (EvalM.asText x) (EvalM.asText y) fun _ => True :=
  hx.bind fun v _ => lift v.toText_yields

theorem asLevel : Matched env D contextual given (EvalM.asLevel x) (EvalM.asLevel y) fun _ => True :=
  hx.bind fun v _ => lift v.toLevel_yields

theorem asMember : Matched env D contextual given (EvalM.asMember x) (EvalM.asMember y) D.member :=
  hx.bind fun _ hv => lift (Value.toMember_yields hv)

theorem asTuple :
    Matched env D contextual given (EvalM.asTuple x) (EvalM.asTuple y) (RowWithin D) :=
  hx.bind fun _ hv => lift (Value.toTuple_yields hv)

theorem asList :
    Matched env D contextual given (EvalM.asList x) (EvalM.asList y) (TupleList.Within D) :=
  hx.bind fun _ hv => lift (Value.toList_yields hv)

theorem asSource :
    Matched env D contextual given (EvalM.asSource x) (EvalM.asSource y) (TupleSource.Within D) :=
  hx.bind fun _ hv => lift (Value.toSource_yields hv)

theorem asHierarchy :
    Matched env D contextual given (EvalM.asHierarchy x) (EvalM.asHierarchy y) D.hierarchy :=
  hx.bind fun _ hv => lift (Value.toHierarchy_yields hv)

theorem asDimension :
    Matched env D contextual given (EvalM.asDimension x) (EvalM.asDimension y)
      (Dimension.Within D) :=
  hx.bind fun _ hv => lift (Value.toDimension_yields hv)

end

theorem asMembers {xs ys : List (EvalM Value)}
    (hxs : List.Forall₂ (fun x y => Matched env D contextual given x y (Value.Within D)) xs ys) :
    Matched env D contextual given (EvalM.asMembers xs) (EvalM.asMembers ys) (RowWithin D) := by
  induction hxs with
  | nil => exact .pure .nil
  | cons hx _ ih =>
    refine .bind (asMember hx) fun m hm => .bind ih fun ms hms => ?_
    exact .pure (hms.cons hm)

/-! ## Loops over the tuples of a set -/

theorem forEachRow {s : TupleSource} {f g : Row → EvalM α} {Q : α → Prop} (hc : contextual)
    (hs : s.Within D) (hf : ∀ r ∈ s.rows, Matched env D contextual given (f r) (g r) Q) :
    Matched env D contextual given (EvalM.forEachRow s f) (EvalM.forEachRow s g)
      fun as => ∀ a ∈ as, Q a := by
  rw [EvalM.forEachRow, EvalM.forEachRow, TupleSource.foldM_eq_foldlM_rows,
    TupleSource.foldM_eq_foldlM_rows]
  refine .bind (foldlM (P := fun p => ∀ a ∈ p.2, Q a) (fun p hp r hr => ?_) (by simp)) ?_
  · refine .bind (.poll _) fun _ _ => .bind (.withRow hc (hs r hr) (hf r hr)) fun a ha => ?_
    exact .pure (List.forall_mem_cons.2 ⟨ha, hp⟩)
  · exact fun p hp => .pure fun a ha => hp a (List.mem_reverse.1 ha)

theorem materialize {s : TupleSource} (hs : s.Within D) :
    Matched env D contextual given (EvalM.materialize s) (EvalM.materialize s)
      (TupleList.Within D) := by
  refine .bind resultLimit fun limit _ => ?_
  rw [TupleSource.foldM_eq_foldlM_rows]
  refine .bind (foldlM (P := fun p => p.2.Within D) (fun p hp r hr => ?_) ?_) fun p hp => .pure hp
  · refine .bind (.poll _) fun _ _ => .bind (lift (TupleList.add_yields hp (hs r hr))) fun l hl => ?_
    exact .pure hl
  · exact TupleList.within_empty _ _

theorem select {s : TupleSource} (hs : s.Within D) (keep : List Bool) :
    Matched env D contextual given (EvalM.select s keep) (EvalM.select s keep)
      (TupleList.Within D) := by
  refine .bind resultLimit fun limit _ => ?_
  rw [TupleSource.foldM_eq_foldlM_rows]
  refine .bind (foldlM (P := fun p => p.2.Within D) (fun p hp r hr => ?_) ?_) fun p hp => .pure hp
  · obtain ⟨keep, l⟩ := p
    dsimp only
    split
    · refine .bind (lift (TupleList.add_yields hp (hs r hr))) fun l hl => ?_
      exact .pure hl
    · exact .pure hp
  · exact TupleList.within_empty _ _

theorem memberList {ms : List Member} (hms : RowWithin D ms) :
    Matched env D contextual given (EvalM.memberList ms) (EvalM.memberList ms) (Value.Within D) :=
  .bind resultLimit fun limit _ => .bind (lift (TupleList.ofMembers_yields hms limit)) fun _ hl =>
    .pure hl

theorem isEmptyCell (hc : contextual) :
    Matched env D contextual given EvalM.isEmptyCell EvalM.isEmptyCell fun _ => True :=
  .bind (.currentCell hc) fun _ _ => .pure trivial

theorem joinRow (hc : contextual) (nonEmpty : Bool) {left : Row} (hl : RowWithin D left)
    {rights : List Row} (hr : ∀ r ∈ rights, RowWithin D r) {joined : Nat × TupleList}
    (hj : joined.2.Within D) :
    Matched env D contextual given (EvalM.joinRow nonEmpty left rights joined)
      (EvalM.joinRow nonEmpty left rights joined) fun p => p.2.Within D := by
  induction rights generalizing joined with
  | nil => exact .pure hj
  | cons right rest ih =>
    have hrow := hl.append (hr right List.mem_cons_self)
    have hrest : ∀ r ∈ rest, RowWithin D r := fun r h => hr r (List.mem_cons_of_mem right h)
    have hnext (dropped : Bool) :
        let next := if dropped then EvalM.joinRow nonEmpty left rest (joined.1 + 1, joined.2)
          else EvalM.lift (joined.2.add (left ++ right)) >>= fun l =>
            EvalM.joinRow nonEmpty left rest (joined.1 + 1, l)
        Matched env D contextual given next next fun p => p.2.Within D := by
      refine ite (fun _ => ih hrest hj) fun _ => ?_
      exact .bind (lift (TupleList.add_yields hj hrow)) fun l hl => ih hrest hl
    refine .bind (.poll _) fun _ _ => ite (fun _ => ?_) fun _ => ?_
    · exact .bind (.withRow hc hrow (isEmptyCell hc)) fun dropped _ => hnext dropped
    · exact .bind (P := fun _ => True) (.pure trivial) fun dropped _ => hnext dropped

theorem crossJoin (hc : contextual) {l r : TupleSource} (hl : l.Within D) (hr : r.Within D) :
    Matched env D contextual given (EvalM.crossJoin l r) (EvalM.crossJoin l r)
      (TupleList.Within D) := by
  refine .bind (materialize hr) fun rights hrights => ?_
  let join (b : Bool) : EvalM TupleList := EvalM.resultLimit >>= fun limit =>
    l.foldM (fun joined r => EvalM.joinRow b r rights.rows joined)
      (0, .empty (TupleList.joinedArity l.arity r.arity) limit) >>= fun p => Pure.pure p.2
  refine .nonEmpty (f := join) (g := join) hc fun b => .bind resultLimit fun limit _ => ?_
  rw [TupleSource.foldM_eq_foldlM_rows]
  refine .bind (foldlM (P := fun p => p.2.Within D) (fun p hp q hq => ?_) ?_) fun p hp => .pure hp
  · exact joinRow hc b (hl q hq) (fun r h => TupleList.Within.rows hrights h) hp
  · exact TupleList.within_empty _ _

theorem anyFilled (hc : contextual) {rs : List Row} (hr : ∀ r ∈ rs, RowWithin D r) :
    Matched env D contextual given (EvalM.anyFilled rs) (EvalM.anyFilled rs) fun _ => True := by
  induction rs with
  | nil => exact .pure trivial
  | cons r rs ih =>
    refine .bind (.withRow hc (hr r List.mem_cons_self) (isEmptyCell hc)) fun empty _ => ?_
    refine ite (fun _ => ih fun q hq => hr q (List.mem_cons_of_mem r hq)) fun _ => ?_
    exact .pure trivial

/-! ## Sorting -/

section
variable {key key' : EvalM SortKey}

theorem ancestorKeys (hc : contextual)
    (hk : Matched env D contextual given key key' fun _ => True) {ms : List Member}
    (hms : RowWithin D ms) :
    Matched env D contextual given (EvalM.ancestorKeys key ms) (EvalM.ancestorKeys key' ms)
      fun _ => True := by
  induction ms with
  | nil => exact .pure trivial
  | cons m ms ih =>
    rw [EvalM.ancestorKeys, EvalM.ancestorKeys, restoring_setMember, restoring_setMember]
    refine .bind (.withRow hc (RowWithin.nil.cons (hms m List.mem_cons_self)) hk) fun k _ => ?_
    refine .bind (ih fun n hn => hms n (List.mem_cons_of_mem m hn)) fun path _ => ?_
    exact .pure trivial

theorem sortPath (hc : contextual) (hD : D.Closed env.cube) (mode : SortMode)
    (hk : Matched env D contextual given key key' fun _ => True) {r : Row} (hr : RowWithin D r) :
    Matched env D contextual given (EvalM.sortPath mode key r) (EvalM.sortPath mode key' r)
      fun _ => True := by
  refine .bind hk fun own _ => ?_
  rcases r with _ | ⟨leading, r⟩
  · exact .pure trivial
  · have hlead := hr leading List.mem_cons_self
    refine ite (fun _ => ?_) fun _ => ?_
    · exact .bind (P := fun _ => True) (.pure trivial) fun _ _ => .pure trivial
    · refine .bind (ancestorKeys hc hk fun a ha => ?_) fun _ _ => .pure trivial
      exact hD.ancestors leading hlead a (List.mem_reverse.1 ha)

theorem sort (hc : contextual) (hD : D.Closed env.cube) (mode : SortMode) {l : TupleList}
    (hl : l.Within D) (hk : Matched env D contextual given key key' fun _ => True) :
    Matched env D contextual given (EvalM.sort mode l key) (EvalM.sort mode l key')
      (TupleList.Within D) := by
  have hrows : (TupleSource.list l).Within D := fun r hr => TupleList.Within.rows hl hr
  refine .bind (forEachRow hc hrows fun r hr => sortPath hc hD mode hk (hrows r hr)) fun _ _ => ?_
  exact lift (TupleList.permute_yields hl _)

end

end Matched

namespace Composed

variable {env : Environment} {D : Domain} {contextual : Prop} {given : EvalM Value → Prop}
variable {α : Type} {Q : α → Prop}

/-- An action is matched with itself, of the pairs of each given action with itself. -/
theorem matched {x : EvalM α} (h : Composed env D contextual given x Q) :
    Matched env D contextual (fun y z => given y ∧ y = z) x x Q := by
  induction h with
  | given h => exact .given ⟨h, rfl⟩
  | pure h => exact .pure h
  | throw h => exact .throw h
  | bind _ _ ihx ihf => exact .bind ihx ihf
  | mono _ h ih => exact .mono ih h
  | read => exact .read
  | poll round => exact .poll round
  | nonEmpty hc _ ih => exact .nonEmpty hc ih
  | currentMember hc hh => exact .currentMember hc hh
  | currentCell hc => exact .currentCell hc
  | withRow hc hr _ ih => exact .withRow hc hr ih

theorem of_matched {x y : EvalM α}
    (h : Matched env D contextual (fun y z => given y ∧ y = z) x y Q) :
    Composed env D contextual given x Q :=
  h.composed fun _ _ h => h.1

theorem materialize {s : TupleSource} (hs : s.Within D) :
    Composed env D contextual given (EvalM.materialize s) (TupleList.Within D) :=
  of_matched (.materialize hs)

theorem select {s : TupleSource} (hs : s.Within D) (keep : List Bool) :
    Composed env D contextual given (EvalM.select s keep) (TupleList.Within D) :=
  of_matched (.select hs keep)

section
variable {x : EvalM Value} (hx : Composed env D contextual given x (Value.Within D))
include hx

theorem asBool : Composed env D contextual given (EvalM.asBool x) fun _ => True :=
  of_matched hx.matched.asBool

theorem asDouble : Composed env D contextual given (EvalM.asDouble x) fun _ => True :=
  of_matched hx.matched.asDouble

theorem asText : Composed env D contextual given (EvalM.asText x) fun _ => True :=
  of_matched hx.matched.asText

theorem asHierarchy : Composed env D contextual given (EvalM.asHierarchy x) D.hierarchy :=
  of_matched hx.matched.asHierarchy

end

end Composed

end EvalM

end Olap
