import Olap.Proofs.Evaluation.Holding

/-!
# Loops over the tuples of a set

If each round of a loop has a result of its own, which the rounds before it do not change, then the loop
collects these results from left to right, and fails with the first of them that is a failure
(`EvalM.exec_forEachRow`). The tuples that are marked in such a loop are then added to a list in order
(`EvalM.exec_select`).
-/

set_option autoImplicit false

namespace Olap

/-! ## Results in sequence -/

/-- What is made of a result is one only if there is a result. -/
theorem exists_of_bind_ok {ε α β : Type} {x : Except ε α} {f : α → Except ε β} {b : β}
    (h : x >>= f = .ok b) : ∃ a, x = .ok a ∧ f a = .ok b := by
  rcases x with e | a
  · cases h
  · exact ⟨a, rfl, h⟩

/-- There is a result of which another one is made. -/
theorem bind_pure_ok_iff {ε α β : Type} {x : Except ε α} {f : α → β} {b : β} :
    (x >>= fun a => .ok (f a)) = .ok b ↔ ∃ a, x = .ok a ∧ b = f a := by
  constructor
  · intro h
    obtain ⟨a, hx, hb⟩ := exists_of_bind_ok h
    exact ⟨a, hx, (Except.ok.inj hb).symm⟩
  · rintro ⟨a, rfl, rfl⟩
    rfl

/-- Two results are put together. -/
theorem bind_pair_ok_iff {ε α β γ : Type} {x : Except ε α} {y : Except ε β} {f : α → β → γ} {c : γ} :
    (do
      let a ← x
      let b ← y
      return f a b) = .ok c ↔ ∃ a b, x = .ok a ∧ y = .ok b ∧ c = f a b := by
  constructor
  · intro h
    obtain ⟨a, hx, hrest⟩ := exists_of_bind_ok h
    obtain ⟨b, hy, hc⟩ := bind_pure_ok_iff.1 hrest
    exact ⟨a, b, hx, hy, hc⟩
  · rintro ⟨a, b, rfl, rfl, rfl⟩
    rfl

/-- The tuples that are marked with `true`; where the marks end, no more tuples are. -/
def Row.marked : List Bool → List Row → List Row
  | true :: keep, r :: rows => r :: marked keep rows
  | false :: keep, _ :: rows => marked keep rows
  | _, _ => []

theorem Row.marked_nil (keep : List Bool) : marked keep [] = [] := by
  rcases keep with _ | ⟨_ | _, keep⟩ <;> rfl

theorem Row.nil_marked (rows : List Row) : marked [] rows = [] := by
  cases rows <;> rfl

theorem Row.marked_map (k : Row → Bool) (rows : List Row) :
    marked (rows.map k) rows = rows.filter k := by
  induction rows with
  | nil => rfl
  | cons r rows ih =>
    rw [List.map_cons, List.filter_cons]
    cases hk : k r with
    | true => rw [marked, ih, if_pos rfl]
    | false => rw [marked, ih, if_neg Bool.false_ne_true]

/-- Filtering by a condition that may fail is marking first. -/
theorem Row.filterM_eq {ε : Type} (truth : Row → Except ε Bool) (rows : List Row) :
    rows.filterM truth = (fun keep => marked keep rows) <$> rows.mapM truth := by
  have haux (rows kept : List Row) : rows.filterAuxM truth kept =
      (fun keep => (marked keep rows).reverse ++ kept) <$> rows.mapM truth := by
    induction rows generalizing kept with
    | nil => rfl
    | cons r rows ih =>
      rw [List.filterAuxM, List.mapM_cons]
      rcases truth r with e | b
      · rfl
      · cases b with
        | true =>
          show rows.filterAuxM truth (r :: kept) = _
          rw [ih]
          rcases rows.mapM truth with e | keep
          · rfl
          · show Except.ok _ = Except.ok ((r :: marked keep rows).reverse ++ kept)
            rw [List.reverse_cons, List.append_assoc, List.singleton_append]
        | false =>
          show rows.filterAuxM truth kept = _
          rw [ih]
          rcases rows.mapM truth with e | keep <;> rfl
  rw [List.filterM, haux]
  rcases rows.mapM truth with e | keep
  · rfl
  · show Except.ok ((marked keep rows).reverse ++ []).reverse = _
    rw [List.append_nil, List.reverse_reverse]
    rfl

theorem Row.filterM_cons {ε : Type} (truth : Row → Except ε Bool) (r : Row) (rows : List Row) :
    (r :: rows).filterM truth = do
      let keep ← truth r
      let kept ← rows.filterM truth
      return if keep then r :: kept else kept := by
  rw [filterM_eq, filterM_eq, List.mapM_cons]
  rcases truth r with e | keep
  · rfl
  · rcases rows.mapM truth with e | rest
    · rfl
    · cases keep <;> rfl

/-- Tuples that are filtered by two conditions one after the other are those for which both hold, if the
second one is left out where the first does not hold. If both together may fail in one more way, they
do so or give the same. -/
theorem Row.filterM_both {ε : Type} {first second both : Row → Except ε Bool} {e : ε}
    {rows some kept : List Row}
    (hboth : ∀ r ∈ rows, both r = .error e ∨
      both r = (do if ← first r then second r else return false))
    (hfirst : rows.filterM first = .ok some) (hsecond : some.filterM second = .ok kept) :
    rows.filterM both = .error e ∨ rows.filterM both = .ok kept := by
  induction rows generalizing some kept with
  | nil =>
    cases hfirst
    exact .inr hsecond
  | cons r rows ih =>
    obtain ⟨hr, hrows⟩ := List.forall_mem_cons.1 hboth
    rw [filterM_cons] at hfirst ⊢
    obtain ⟨keep, hkeep, hfirst⟩ := bind_eq_ok.1 hfirst
    obtain ⟨rest, hrest, hfirst⟩ := bind_eq_ok.1 hfirst
    cases hfirst
    rw [hkeep] at hr
    rcases hr with hr | hr
    all_goals rw [hr]
    · exact .inl rfl
    cases keep with
    | false =>
      rcases ih hrows hrest hsecond with h | h
      all_goals rw [h]
      · exact .inl rfl
      · exact .inr rfl
    | true =>
      rw [if_pos rfl, filterM_cons] at hsecond
      obtain ⟨last, hlast, hsecond⟩ := bind_eq_ok.1 hsecond
      obtain ⟨others, hothers, hsecond⟩ := bind_eq_ok.1 hsecond
      cases hsecond
      change second r >>= _ = _ ∨ second r >>= _ = _
      rw [hlast]
      rcases ih hrows hrest hothers with h | h
      all_goals rw [h]
      · exact .inl rfl
      · exact .inr rfl

/-- A condition that holds or not, but does not fail, selects tuples as usual. -/
theorem Row.filterM_of_ok {ε : Type} {truth : Row → Except ε Bool} {k : Row → Bool}
    {rows : List Row} (h : ∀ r ∈ rows, truth r = .ok (k r)) : rows.filterM truth = .ok (rows.filter k) := by
  have hmarks : rows.mapM truth = .ok (rows.map k) := by
    induction rows with
    | nil => rfl
    | cons r rows ih =>
      obtain ⟨hr, hrows⟩ := List.forall_mem_cons.1 h
      rw [List.mapM_cons, hr, ih hrows]
      rfl
  rw [filterM_eq, hmarks]
  exact congrArg Except.ok (marked_map k rows)

namespace EvalM

variable {env : Environment} {s : EvalState} {α : Type}

/-- Adding the marked tuples to a list. -/
theorem exec_select (p : TupleSource) (keep : List Bool) :
    (select p keep).exec env s =
      ((Row.marked keep p.rows).foldlM TupleList.add (.empty p.arity env.config.resultLimit), s) := by
  -- each round takes one mark from the list
  obtain ⟨step, hselect, hend, hdropped, hadded⟩ :
      ∃ step : List Bool × TupleList → Row → EvalM (List Bool × TupleList),
        (select p keep = resultLimit >>= fun limit =>
          p.foldM step (keep, .empty p.arity limit) >>= fun joined => pure joined.2) ∧
        (∀ l r, step ([], l) r = pure ([], l)) ∧
        (∀ keep l r, step (false :: keep, l) r = pure (keep, l)) ∧
        ∀ keep l r, step (true :: keep, l) r = lift (l.add r) >>= fun l' => pure (keep, l') :=
    ⟨_, rfl, fun _ _ => rfl, fun _ _ _ => rfl, fun _ _ _ => rfl⟩
  have hloop (rows : List Row) (keep : List Bool) (l : TupleList) : ∃ rest,
      (rows.foldlM step (keep, l)).exec env s =
        (Prod.mk rest <$> (Row.marked keep rows).foldlM TupleList.add l, s) := by
    induction rows generalizing keep l with
    | nil => exact ⟨keep, by rw [Row.marked_nil]; rfl⟩
    | cons r rows ih =>
      rw [List.foldlM_cons]
      rcases keep with _ | ⟨_ | _, keep⟩
      · obtain ⟨rest, hrest⟩ := ih [] l
        rw [Row.nil_marked] at hrest ⊢
        rw [hend]
        exact ⟨rest, hrest⟩
      · rw [hdropped]
        exact ih keep l
      · rw [Row.marked, List.foldlM_cons]
        have hstep : (step (true :: keep, l) r).exec env s = (Prod.mk keep <$> l.add r, s) := by
          rw [hadded, exec_bind_pure, exec_lift]
        rcases hadd : l.add r with e | l'
        all_goals rw [hadd] at hstep
        · exact ⟨keep, exec_bind_error hstep⟩
        · obtain ⟨rest, hrest⟩ := ih keep l'
          exact ⟨rest, (exec_bind_ok hstep).trans hrest⟩
  obtain ⟨rest, hrest⟩ := hloop p.rows keep (.empty p.arity env.config.resultLimit)
  have hlimit : resultLimit.exec env s = (.ok env.config.resultLimit, s) := rfl
  rw [hselect, exec_bind_ok hlimit, TupleSource.foldM_eq_foldlM_rows, exec_bind_pure, hrest]
  exact Prod.ext ((comp_map _ _ _).symm.trans (id_map _)) rfl

/-- A loop whose rounds have results of their own in all states of a kind, which the rounds keep to,
collects these results. -/
theorem exec_forEachRow {P : EvalState → Prop} {p : TupleSource} {f : Row → EvalM α}
    {result : Row → Except CalcError α}
    (hpoll : ∀ round u, P u → ∃ v, (poll round).exec env u = (.ok (), v) ∧ P v)
    (hround : ∀ r ∈ p.rows, ∀ u, P u → ∃ v, (withRow r (f r)).exec env u = (result r, v) ∧ P v)
    (hs : P s) : ∃ t, (forEachRow p f).exec env s = (p.rows.mapM result, t) ∧ P t := by
  let step (joined : Nat × List α) (r : Row) : EvalM (Nat × List α) := do
    poll joined.1
    let a ← withRow r (f r)
    return (joined.1 + 1, a :: joined.2)
  have hloop (rows : List Row) (hrows : ∀ r ∈ rows, r ∈ p.rows) (s : EvalState) (hs : P s)
      (round : Nat) (done : List α) : ∃ next t, P t ∧
      (rows.foldlM step (round, done)).exec env s =
        ((fun more => (next, more.reverse ++ done)) <$> rows.mapM result, t) := by
    induction rows generalizing s round done with
    | nil => exact ⟨round, s, hs, rfl⟩
    | cons r rows ih =>
      obtain ⟨hr, hrows⟩ := List.forall_mem_cons.1 hrows
      obtain ⟨u, hpolled, hu⟩ := hpoll round s hs
      obtain ⟨v, hresult, hv⟩ := hround r hr u hu
      have hstep : (step (round, done) r).exec env s =
          ((fun a => (round + 1, a :: done)) <$> result r, v) := by
        show (poll round >>= fun _ => withRow r (f r) >>= fun a => pure (round + 1, a :: done)).exec
          env s = _
        rw [exec_bind_ok hpolled, exec_bind_pure, hresult]
      rw [List.foldlM_cons, List.mapM_cons]
      rcases hfirst : result r with e | a
      all_goals rw [hfirst] at hstep
      · exact ⟨round, v, hv, exec_bind_error hstep⟩
      · obtain ⟨next, t, ht, hrest⟩ := ih hrows v hv (round + 1) (a :: done)
        refine ⟨next, t, ht, (exec_bind_ok hstep).trans (hrest.trans ?_)⟩
        rcases rows.mapM result with e | more
        · rfl
        · show (Except.ok (next, more.reverse ++ a :: done), t) =
            (Except.ok (next, (a :: more).reverse ++ done), t)
          rw [List.reverse_cons, List.append_assoc, List.singleton_append]
  obtain ⟨next, t, ht, hrest⟩ := hloop p.rows (fun _ h => h) s hs 0 []
  refine ⟨t, ?_, ht⟩
  have hforEach : forEachRow p f = p.foldM step (0, []) >>= fun joined => pure joined.2.reverse := rfl
  rw [hforEach, TupleSource.foldM_eq_foldlM_rows, exec_bind_pure, hrest]
  rcases p.rows.mapM result with e | as
  · rfl
  · show (Except.ok (as.reverse ++ []).reverse, t) = _
    rw [List.append_nil, List.reverse_reverse]

end EvalM

end Olap
