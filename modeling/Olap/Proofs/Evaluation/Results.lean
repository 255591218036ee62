import Olap.Proofs.Evaluation.Dependence

/-!
# Results as functions of the context

A sound action has the same result from any calm state that stands in the same context. So its result
is a function of the context (`Scene.resultAt`), and what is composed of sound actions has the result
that is composed of theirs, without any state: a loop over tuples is a `List.mapM`
(`Scene.Sound.resultAt_forEachRow`), and the sort path of a tuple is read off the contexts in which its
members stand (`Scene.Sound.resultAt_sortPath`).
-/

set_option autoImplicit false

namespace Olap

/-- A context in which the members of a tuple are made current, from left to right. -/
def Row.placedIn (r : Row) (κ : List Member) : List Member :=
  r.foldl (fun κ m => κ.set m.hierarchyOrdinal m) κ

theorem Cube.Coordinate.placed {c : Cube} (hc : c.Regular) {κ : List Member} (hκ : c.Coordinate κ)
    {r : Row} (hr : RowWithin (Domain.ofCube c) r) : c.Coordinate (r.placedIn κ) := by
  induction r generalizing κ with
  | nil => exact hκ
  | cons m r ih =>
    refine ih (hc.coordinate_set hκ (hr m List.mem_cons_self)) fun n hn => ?_
    exact hr n (List.mem_cons_of_mem m hn)

namespace Scene

variable {S : Scene} {α β : Type} {d : Nat} {A : Nat → Prop} {κ : List Member}

/-- The result of an action at depth `d` in a context, from a fresh start. -/
def resultAt (S : Scene) (d : Nat) (x : EvalM α) (κ : List Member) : Except CalcError α :=
  (x.exec S.env (S.fresh κ d)).1

@[simp] theorem resultAt_pure (a : α) : S.resultAt d (pure a) κ = .ok a := rfl

namespace Sound

variable {x : EvalM α} {P : α → Prop}

theorem fst_exec (hx : S.Sound d A x P) {s : EvalState} (hs : S.Calm d s) :
    (x.exec S.env s).1 = S.resultAt d x s.context :=
  hx.agrees s _ hs (calm_fresh hs.coordinate) (.refl A _)

/-- The result is the same in contexts that agree on what the action reads. -/
theorem resultAt_congr (hx : S.Sound d A x P) {μ : List Member} (hκ : S.env.cube.Coordinate κ)
    (hμ : S.env.cube.Coordinate μ) (h : AgreeOn A κ μ) : S.resultAt d x κ = S.resultAt d x μ :=
  hx.agrees _ _ (calm_fresh hκ) (calm_fresh hμ) h

theorem resultAt_bind (hx : S.Sound d A x P) {f : α → EvalM β} {Q : β → Prop}
    (hf : ∀ a, P a → S.Sound d A (f a) Q) (hκ : S.env.cube.Coordinate κ) :
    S.resultAt d (x >>= f) κ = S.resultAt d x κ >>= fun a => S.resultAt d (f a) κ := by
  have hfresh := S.calm_fresh (d := d) hκ
  have hcalm := hx.calm hfresh
  obtain ⟨hframe, -, hres⟩ := hx.ends _ hfresh
  unfold resultAt
  rcases hexec : x.exec S.env (S.fresh κ d) with ⟨e | a, t⟩
  · rw [EvalM.exec_bind_error hexec]
    rfl
  · rw [hexec] at hcalm hframe hres
    rw [EvalM.exec_bind_ok hexec, (hf a (hres a rfl)).fst_exec hcalm, hframe.context]
    rfl

theorem resultAt_poll (round : Nat) (hκ : S.env.cube.Coordinate κ) :
    S.resultAt d (EvalM.poll round) κ = .ok () := by
  have hfresh := S.calm_fresh (d := d) hκ
  rw [resultAt, EvalM.exec_poll, Execution.checkRound_of_running hfresh.running]

theorem resultAt_withRow (hc : S.env.cube.Regular) {r : Row} (hr : RowWithin S.domain r)
    (hx : S.Sound d A x P) (hκ : S.env.cube.Coordinate κ) :
    S.resultAt d (EvalM.withRow r x) κ = S.resultAt d x (r.placedIn κ) := by
  have hcalm := (S.calm_fresh (d := d) hκ).setRow hc hr
  rw [resultAt, EvalM.exec_withRow, hx.fst_exec hcalm, EvalState.context_setRow]
  rfl

/-- What the results of an action satisfy, its result in a context satisfies. -/
theorem produces (hx : S.Sound d A x P) (hκ : S.env.cube.Coordinate κ) :
    Produces P (S.resultAt d x κ) :=
  (hx.ends _ (S.calm_fresh hκ)).result

theorem resultAt_foldlM {f : α → β → EvalM α} {g : α → β → Except CalcError α} {l : List β}
    (hf : ∀ a, P a → ∀ b ∈ l, S.Sound d A (f a b) P) {a : α} (ha : P a)
    (hκ : S.env.cube.Coordinate κ)
    (hg : ∀ a, P a → ∀ b ∈ l, S.resultAt d (f a b) κ = g a b) :
    S.resultAt d (l.foldlM f a) κ = l.foldlM g a := by
  induction l generalizing a with
  | nil => rfl
  | cons b l ih =>
    have hstep := hf a ha b List.mem_cons_self
    have hrest : ∀ a, P a → ∀ b ∈ l, S.Sound d A (f a b) P :=
      fun a ha b hb => hf a ha b (List.mem_cons_of_mem _ hb)
    have hproduces := hstep.produces hκ
    rw [List.foldlM_cons, List.foldlM_cons,
      hstep.resultAt_bind (fun a ha => foldlM hrest ha) hκ, ← hg a ha b List.mem_cons_self]
    rcases hres : S.resultAt d (f a b) κ with e | a'
    · rfl
    · exact ih hrest (hproduces a' hres) fun a ha b hb => hg a ha b (List.mem_cons_of_mem _ hb)

/-! ## Loops over tuples -/

/-- Counting rounds and collecting results in reverse is mapping. -/
theorem foldlM_collecting {ε : Type} (g : β → Except ε α) (l : List β) (n : Nat) (as : List α) :
    l.foldlM (fun p b => do
        let a ← g b
        return (p.1 + 1, a :: p.2)) (n, as) =
      (fun bs => (n + l.length, bs.reverse ++ as)) <$> l.mapM g := by
  induction l generalizing n as with
  | nil => rfl
  | cons b l ih =>
    rw [List.foldlM_cons, List.mapM_cons]
    rcases g b with e | a
    · rfl
    · show l.foldlM _ (n + 1, a :: as) = _
      rw [ih]
      rcases l.mapM g with e | bs
      · rfl
      · refine congrArg Except.ok (Prod.ext ?_ ?_)
        · exact Nat.add_right_comm ..
        · show bs.reverse ++ a :: as = (a :: bs).reverse ++ as
          rw [List.reverse_cons, List.append_assoc]
          rfl

theorem resultAt_forEachRow (hc : S.env.cube.Regular) {src : TupleSource} {f : Row → EvalM α}
    (hs : src.Within S.domain)
    (hf : ∀ r ∈ src.rows, S.Sound d (fun o => A o ∨ Pinned r o) (f r) P)
    (hκ : S.env.cube.Coordinate κ) :
    S.resultAt d (EvalM.forEachRow src f) κ =
      src.rows.mapM fun r => S.resultAt d (f r) (Row.placedIn r κ) := by
  have hround (p : Nat × List α) (r : Row) (hr : r ∈ src.rows) :
      S.Sound d A (EvalM.withRow r (f r) >>= fun a => Pure.pure (p.1 + 1, a :: p.2)) fun _ => True :=
    (withRow hc (hs r hr) (hf r hr)).bind fun _ _ => pure trivial
  have hstep (p : Nat × List α) (_ : True) (r : Row) (hr : r ∈ src.rows) :
      S.Sound d A (EvalM.poll p.1 >>= fun _ =>
        EvalM.withRow r (f r) >>= fun a => Pure.pure (p.1 + 1, a :: p.2)) fun _ => True :=
    (poll _).bind fun _ _ => hround p r hr
  have hresult (p : Nat × List α) (_ : True) (r : Row) (hr : r ∈ src.rows) :
      S.resultAt d (EvalM.poll p.1 >>= fun _ =>
          EvalM.withRow r (f r) >>= fun a => Pure.pure (p.1 + 1, a :: p.2)) κ = do
        let a ← S.resultAt d (f r) (Row.placedIn r κ)
        return (p.1 + 1, a :: p.2) := by
    rw [(poll _).resultAt_bind (fun _ _ => hround p r hr) hκ, resultAt_poll _ hκ]
    show S.resultAt d _ κ = _
    rw [(withRow hc (hs r hr) (hf r hr)).resultAt_bind (Q := fun _ => True)
        (fun _ _ => pure trivial) hκ,
      resultAt_withRow hc (hs r hr) (hf r hr) hκ]
    rfl
  rw [EvalM.forEachRow, TupleSource.foldM_eq_foldlM_rows,
    (foldlM hstep trivial).resultAt_bind (Q := fun _ => True) (fun _ _ => pure trivial) hκ,
    resultAt_foldlM hstep trivial hκ hresult, foldlM_collecting]
  rcases src.rows.mapM fun r => S.resultAt d (f r) (Row.placedIn r κ) with e | as
  · rfl
  · show Except.ok (as.reverse ++ []).reverse = _
    rw [List.append_nil, List.reverse_reverse]

/-! ## Sort paths -/

section
variable {key : EvalM SortKey} (hc : S.env.cube.Regular) (hk : S.Sound d A key fun _ => True)
include hc hk

/-- The keys of several members are those in the contexts in which they stand. -/
theorem resultAt_ancestorKeys {ms : List Member} (hms : RowWithin S.domain ms)
    (hκ : S.env.cube.Coordinate κ) :
    S.resultAt d (EvalM.ancestorKeys key ms) κ =
      ms.mapM fun m => do return (m.ordinal, ← S.resultAt d key (Row.placedIn [m] κ)) := by
  induction ms with
  | nil => rfl
  | cons m ms ih =>
    have hm : RowWithin S.domain [m] := RowWithin.nil.cons (hms m List.mem_cons_self)
    have hrest : RowWithin S.domain ms := fun n hn => hms n (List.mem_cons_of_mem m hn)
    have hone : S.Sound d A (EvalM.withRow [m] key) fun _ => True :=
      withRow hc hm (hk.weaken fun _ => .inl)
    have hpath (k : SortKey) : S.Sound d A (EvalM.ancestorKeys key ms >>= fun path =>
        Pure.pure ((m.ordinal, k) :: path)) fun _ => True :=
      (ancestorKeys hc hk hrest).bind fun _ _ => pure trivial
    rw [EvalM.ancestorKeys, EvalM.restoring_setMember,
      hone.resultAt_bind (fun k _ => hpath k) hκ, resultAt_withRow hc hm hk hκ, List.mapM_cons]
    rcases S.resultAt d key (Row.placedIn [m] κ) with e | k
    · rfl
    · show S.resultAt d _ κ = _
      rw [(ancestorKeys hc hk hrest).resultAt_bind (Q := fun _ => True) (fun _ _ => pure trivial) hκ,
        ih hrest]
      rfl

/-- The sort path of a tuple along its hierarchy: the keys of the ancestors of the leading member, the
root first, each in the context in which it stands, and the tuple's own key. -/
theorem resultAt_sortPath {mode : SortMode} (hmode : mode.breaksHierarchy = false) {m : Member}
    {r : Row} (hr : RowWithin S.domain (m :: r)) (hκ : S.env.cube.Coordinate κ) :
    S.resultAt d (EvalM.sortPath mode key (m :: r)) κ = do
      let own ← S.resultAt d key κ
      let above ← m.ancestors.reverse.mapM fun a => do
        return (a.ordinal, ← S.resultAt d key (Row.placedIn [a] κ))
      return above ++ [(m.ordinal, own)] := by
  have hancestors : RowWithin S.domain m.ancestors.reverse := fun a ha =>
    hc.closed.ancestors m (hr m List.mem_cons_self) a (List.mem_reverse.1 ha)
  have habove := ancestorKeys hc hk hancestors
  have hpath (own : SortKey) : S.Sound d A (EvalM.ancestorKeys key m.ancestors.reverse >>=
      fun above => Pure.pure (above ++ [(m.ordinal, own)])) fun _ => True :=
    habove.bind fun _ _ => pure trivial
  simp only [EvalM.sortPath, hmode, Bool.false_eq_true, if_false]
  rw [hk.resultAt_bind (fun own _ => hpath own) hκ]
  rcases S.resultAt d key κ with e | own
  · rfl
  · show S.resultAt d _ κ = _
    rw [habove.resultAt_bind (Q := fun _ => True) (fun _ _ => pure trivial) hκ,
      resultAt_ancestorKeys hc hk hancestors hκ]
    rfl

end

end Sound

end Scene

end Olap
