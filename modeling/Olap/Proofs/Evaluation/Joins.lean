import Olap.Proofs.Evaluation.Laziness
import Olap.Proofs.Evaluation.Locality
import Olap.Proofs.Evaluation.Results

/-!
# Joins that leave out empty cells

With the flag for cells that are not empty, every join of an expression looks at the cells of its own
tuples, in the context that the whole expression is evaluated in: the members of the columns that are
joined later are not current then. So a tuple is kept if the cell of its part is filled at every join
that the part comes out of (`JoinTree.survives`), which says more than that the cell of the tuple
itself is filled (`Expr.JoinsIn.filled`).
-/

set_option autoImplicit false

namespace Olap

/-! ## Nested joins of sets -/

/-- The source has columns, and its tuples have all of them. -/
structure TupleSource.Even (p : TupleSource) : Prop where
  columns : 0 < p.arity
  rows : ∀ row ∈ p.rows, row.length = p.arity

/-- Sets that are joined, nested in any way. -/
inductive JoinTree where
  | base (set : TupleSource)
  | join (left right : JoinTree)

/-- Without a limit, an even source can be held in full. -/
theorem TupleSource.Even.exists_collect {p : TupleSource} (hp : p.Even) {limit : Nat}
    (hlimit : limit = 0) : ∃ held, p.collect limit = .ok held := by
  refine exists_collect_iff.2 ⟨fun row hrow => ?_, by omega⟩
  rw [hp.rows row hrow, Nat.max_eq_left hp.columns]

theorem TupleSource.length_of_mem_pairs {m n : Nat} {ps qs : List Row} {row : Row}
    (hps : ∀ p ∈ ps, p.length = m) (hqs : ∀ q ∈ qs, q.length = n) (h : row ∈ pairs ps qs) :
    row.length = m + n := by
  obtain ⟨p, hp, hjoined⟩ := List.mem_flatMap.1 h
  obtain ⟨q, hq, rfl⟩ := List.mem_map.1 hjoined
  rw [List.length_append, hps p hp, hqs q hq]

namespace JoinTree

/-- The number of columns. -/
def columns : JoinTree → Nat
  | base p => p.arity
  | join l r => l.columns + r.columns

/-- All tuples of the joins. -/
def rows : JoinTree → List Row
  | base p => p.rows
  | join l r => TupleSource.pairs l.rows r.rows

/-- The tuples that are left where every join keeps those of its tuples that are filled. -/
def filledRows (filled : Row → Bool) : JoinTree → List Row
  | base p => p.rows
  | join l r => (TupleSource.pairs (l.filledRows filled) (r.filledRows filled)).filter filled

/-- A tuple is filled, and at every join inside so is the part of it that comes out of the join. -/
def survives (filled : Row → Bool) : JoinTree → Row → Bool
  | base _, _ => true
  | join l r, row =>
    filled row && l.survives filled (row.take l.columns) && r.survives filled (row.drop l.columns)

/-- All sets that are joined are even. -/
def Even : JoinTree → Prop
  | base p => p.Even
  | join l r => l.Even ∧ r.Even

variable {filled : Row → Bool} {t : JoinTree} {row : Row}

theorem length_of_mem_rows (ht : t.Even) (h : row ∈ t.rows) : row.length = t.columns := by
  induction t generalizing row with
  | base p => exact TupleSource.Even.rows ht row h
  | join l r ihl ihr =>
    exact TupleSource.length_of_mem_pairs (fun p hp => ihl ht.1 hp) (fun q hq => ihr ht.2 hq) h

/-- Pairs of selected tuples are the pairs whose two parts are selected. -/
theorem pairs_filter {n : Nat} {ps : List Row} (hps : ∀ p ∈ ps, p.length = n) (qs : List Row)
    (f g : Row → Bool) : TupleSource.pairs (ps.filter f) (qs.filter g) =
      (TupleSource.pairs ps qs).filter fun row => f (row.take n) && g (row.drop n) := by
  have hpart (p : Row) (hp : p.length = n) (q : Row) :
      (f ((p ++ q).take n) && g ((p ++ q).drop n)) = (f p && g q) := by
    rw [List.take_left' hp, List.drop_left' hp]
  induction ps with
  | nil => rfl
  | cons p ps ih =>
    obtain ⟨hp, hps⟩ := List.forall_mem_cons.1 hps
    have ih := ih hps
    unfold TupleSource.pairs at ih ⊢
    have hblock : (qs.map (p ++ ·)).filter (fun row => f (row.take n) && g (row.drop n)) =
        (qs.filter fun q => f p && g q).map (p ++ ·) := by
      rw [List.filter_map]
      exact congrArg _ (List.filter_congr fun q _ => hpart p hp q)
    rw [List.flatMap_cons, List.filter_append, ← ih, hblock, List.filter_cons]
    cases hf : f p with
    | true => simp
    | false => simp

/-- The tuples that are left are those that survive, in order. -/
theorem filledRows_eq (ht : t.Even) : t.filledRows filled = t.rows.filter (t.survives filled) := by
  induction t with
  | base p => exact (List.filter_eq_self.2 fun _ _ => rfl).symm
  | join l r ihl ihr =>
    rw [filledRows, ihl ht.1, ihr ht.2,
      pairs_filter (fun p hp => length_of_mem_rows ht.1 hp), List.filter_filter, rows]
    refine List.filter_congr fun row _ => ?_
    rw [survives, Bool.and_assoc]

theorem filled_of_survives {l r : JoinTree} (h : (join l r).survives filled row = true) :
    filled row = true := by
  rw [survives, Bool.and_assoc] at h
  exact (Bool.and_eq_true _ _ ▸ h).1

theorem survives_of_forall (h : ∀ row, filled row = true) (t : JoinTree) (row : Row) :
    t.survives filled row = true := by
  induction t generalizing row with
  | base p => rfl
  | join l r ihl ihr => rw [survives, h row, ihl, ihr]; rfl

/-- Where all cells are filled, all tuples are left. -/
theorem filledRows_of_forall (ht : t.Even) (h : ∀ row, filled row = true) :
    t.filledRows filled = t.rows := by
  rw [filledRows_eq ht]
  exact List.filter_eq_self.2 fun row _ => t.survives_of_forall h row

/-- The tuples that survive are all that are filled, if and only if no part of these is empty. -/
theorem filter_survives_eq_iff {l r : JoinTree} {rows : List Row} :
    rows.filter ((join l r).survives filled) = rows.filter filled ↔
      ∀ row ∈ rows, filled row = true → (join l r).survives filled row = true := by
  refine ⟨fun heq row hrow hfilled => ?_, fun h => List.filter_congr fun row hrow => ?_⟩
  · have hmem : row ∈ rows.filter filled := List.mem_filter.2 ⟨hrow, hfilled⟩
    rw [← heq] at hmem
    exact (List.mem_filter.1 hmem).2
  · exact Bool.eq_iff_iff.2 ⟨filled_of_survives, h row hrow⟩

end JoinTree

/-! ## Joining with the flag -/

/-- The cell of a tuple whose members are made current in a context is not empty. -/
def Row.filledIn (facts : List Fact) (κ : List Member) (r : Row) : Bool :=
  (totalAt facts (r.placedIn κ)).isSome

namespace EvalM

variable {env : Environment} {facts : List Fact} {s : EvalState}

theorem exec_isEmptyCell (hfacts : s.reader = .memory facts) :
    isEmptyCell.exec env s = (.ok (totalAt facts s.context).isNone, s) := by
  have hget : s.reader.get s.context = (.ready (totalAt facts s.context), s.reader) := by
    rw [hfacts]
    rfl
  rw [isEmptyCell, exec_bind_ok (exec_currentCell_ready hget)]
  cases totalAt facts s.context <;> rfl

/-- Looking at the cell of a tuple leaves no trace over the facts. -/
theorem exec_withRow_isEmptyCell (hfacts : s.reader = .memory facts) (r : Row) :
    (withRow r isEmptyCell).exec env s = (.ok !(r.filledIn facts s.context), s) := by
  have hreader : (s.setRow r).reader = .memory facts := (s.reader_setRow r).trans hfacts
  rw [exec_withRow, exec_isEmptyCell hreader, EvalState.context_setRow, EvalState.restore_setRow,
    Row.filledIn, Row.placedIn]
  cases totalAt facts _ <;> rfl

/-- What an action on a counter and a list does: it adds tuples to the list and asks whether to go on. -/
def AddsRows (env : Environment) (s : EvalState) (x : EvalM (Nat × TupleList)) (l : TupleList)
    (rows : List Row) : Prop :=
  ∃ round checks, x.exec env s = (Prod.mk round <$> rows.foldlM TupleList.add l, s.asked checks)

theorem addsRows_joinRow (hfacts : s.reader = .memory facts) (hrunning : s.execution.stopped? = none)
    (p : Row) (rights : List Row) (round : Nat) (l : TupleList) :
    AddsRows env s (joinRow true p rights (round, l)) l
      ((rights.map (p ++ ·)).filter (Row.filledIn facts s.context)) := by
  induction rights generalizing s round l with
  | nil => exact ⟨round, s.execution.checks, rfl⟩
  | cons q rights ih =>
    obtain ⟨checks, hpoll⟩ : ∃ checks, (poll round).exec env s = (.ok (), s.asked checks) :=
      Yields.poll round s hrunning
    have hcell : (withRow (p ++ q) isEmptyCell).exec env (s.asked checks) =
        (.ok !(Row.filledIn facts s.context (p ++ q)), s.asked checks) :=
      exec_withRow_isEmptyCell (s := s.asked checks) hfacts (p ++ q)
    have hrest (l' : TupleList) := ih (s := s.asked checks) hfacts hrunning (round + 1) l'
    have hstep : (joinRow true p (q :: rights) (round, l)).exec env s =
        ((if !(Row.filledIn facts s.context (p ++ q)) then joinRow true p rights (round + 1, l)
          else do
            let l' ← EvalM.lift (l.add (p ++ q))
            joinRow true p rights (round + 1, l')).exec env (s.asked checks)) := by
      rw [joinRow, exec_bind_ok hpoll, if_pos rfl, exec_bind_ok hcell]
    unfold AddsRows
    rw [hstep, List.map_cons, List.filter_cons]
    cases Row.filledIn facts s.context (p ++ q) with
    | false => exact hrest l
    | true =>
      simp only [Bool.not_true, Bool.false_eq_true, if_false, if_true, List.foldlM_cons]
      rcases hadd : l.add (p ++ q) with e | l'
      · exact ⟨round, checks, rfl⟩
      · exact hrest l'

theorem addsRows_joinRows (hfacts : s.reader = .memory facts) (hrunning : s.execution.stopped? = none)
    (lefts rights : List Row) (round : Nat) (l : TupleList) :
    AddsRows env s (lefts.foldlM (fun joined p => joinRow true p rights joined) (round, l)) l
      ((TupleSource.pairs lefts rights).filter (Row.filledIn facts s.context)) := by
  induction lefts generalizing s round l with
  | nil => exact ⟨round, s.execution.checks, rfl⟩
  | cons p lefts ih =>
    obtain ⟨round', checks, hrow⟩ : AddsRows env s (joinRow true p rights (round, l)) l _ :=
      addsRows_joinRow hfacts hrunning p rights round l
    unfold AddsRows
    rw [TupleSource.pairs, List.flatMap_cons, List.filter_append, List.foldlM_append,
      List.foldlM_cons]
    rcases hadd : List.foldlM TupleList.add l _ with e | l'
    all_goals rw [hadd] at hrow
    · exact ⟨round', checks, exec_bind_error hrow⟩
    · rw [exec_bind_ok hrow]
      exact ih (s := s.asked checks) hfacts hrunning round' l'

/-- A join adds the pairs that the flag does not leave out. -/
theorem exec_crossJoin_filled (p : TupleSource) {q : TupleSource} (hfacts : s.reader = .memory facts)
    (hrunning : s.execution.stopped? = none) {held : TupleList}
    (hq : q.collect env.config.resultLimit = .ok held) :
    ((crossJoin p q).exec env s).1 =
      ((TupleSource.pairs p.rows q.rows).filter
        fun row => !s.nonEmpty || row.filledIn facts s.context).foldlM TupleList.add
          (.empty (TupleList.joinedArity p.arity q.arity) env.config.resultLimit) := by
  cases hflag : s.nonEmpty with
  | false =>
    rw [exec_crossJoin p q hrunning hflag, TupleSource.collectPairs, hq]
    have hall : (TupleSource.pairs p.rows q.rows).filter
        (fun row => !false || row.filledIn facts s.context) = TupleSource.pairs p.rows q.rows :=
      List.filter_eq_self.2 fun _ _ => rfl
    rw [hall]
    rfl
  | true =>
    obtain ⟨checks, hright⟩ : ∃ checks, (materialize q).exec env s = (_, s.asked checks) :=
      Yields.materialize q s hrunning
    obtain ⟨-, -, hrows⟩ := TupleSource.collect_ok hq
    have hnonEmpty : (s.asked checks).nonEmpty = true := hflag
    let start := TupleList.empty (TupleList.joinedArity p.arity q.arity) env.config.resultLimit
    obtain ⟨round, checks', hloop⟩ : AddsRows env (s.asked checks) _ start _ :=
      addsRows_joinRows (s := s.asked checks) hfacts hrunning p.rows q.rows 0 start
    rw [hq] at hright
    rw [crossJoin, exec_bind_ok hright, exec_bind_ok exec_get, hrows, hnonEmpty]
    simp only [TupleSource.foldM_eq_foldlM_rows]
    have hlimit : EvalM.resultLimit.exec env (s.asked checks) =
      (.ok env.config.resultLimit, s.asked checks) := rfl
    rw [exec_bind_ok hlimit]
    refine (congrArg Prod.fst (exec_bind_pure _ Prod.snd)).trans ?_
    rw [hloop]
    exact (comp_map _ _ _).symm.trans (id_map _)

end EvalM

/-! ## Trees of joins -/

/-- The state under a flag of its own. -/
def EvalState.flagged (s : EvalState) (flag : Bool) : EvalState := { s with nonEmpty := flag }

namespace Calc

variable {env : Environment} {facts : List Fact} {s : EvalState} {a : Address} {l r : Calc}

/-- In the state the tree gives an even set, with the columns and tuples given. -/
def Gives (c : Calc) (env : Environment) (a : Address) (s : EvalState) (columns : Nat)
    (rows : List Row) : Prop :=
  ∃ v p, c.valueAt env a s = .ok v ∧ v.toSource = .ok p ∧ p.Even ∧ p.arity = columns ∧ p.rows = rows

theorem Gives.held {c : Calc} {columns : Nat} {rows : List Row} (h : c.Gives env a s columns rows)
    (hlimit : env.config.resultLimit = 0) (hrunning : s.execution.stopped? = none) :
    ∃ held, c.heldAt env a s = .ok held ∧ held.rows = rows := by
  obtain ⟨v, p, hv, hp, heven, rfl, rfl⟩ := h
  obtain ⟨held, hheld⟩ := heven.exists_collect hlimit
  refine ⟨held, ?_, (TupleSource.collect_ok hheld).2.2⟩
  rw [heldAt_eq c a hrunning, hv]
  show v.toSource >>= TupleSource.collect env.config.resultLimit = _
  rw [hp]
  exact hheld

theorem exec_asSource {c : Calc} {v : Value} {p : TupleSource} (hv : c.valueAt env a s = .ok v)
    (hp : v.toSource = .ok p) : (EvalM.asSource (c.evaluate a)).exec env s =
      (.ok p, ((c.evaluate a).exec env s).2) := by
  have hexec : (EvalM.asSource (c.evaluate a)).exec env s =
      (c.valueAt env a s >>= Value.toSource, _) := EvalM.exec_bind_lift _ _
  rw [hexec, hv]
  exact congrArg (·, _) hp

/-- The two sets of a join are given where the join starts. -/
theorem exec_operands (hfacts : s.reader = .memory facts) {v w : Value} {p q : TupleSource}
    (hl : l.valueAt env (0 :: a) s = .ok v) (hp : v.toSource = .ok p)
    (hr : r.valueAt env (1 :: a) s = .ok w) (hq : w.toSource = .ok q) :
    ∃ u, s.Frame u ∧ ∀ f : TupleSource → TupleSource → EvalM Value,
      (EvalM.asSource (l.evaluate (0 :: a)) >>= fun p =>
        EvalM.asSource (r.evaluate (1 :: a)) >>= fun q => f p q).exec env s = (f p q).exec env u := by
  generalize ht : ((l.evaluate (0 :: a)).exec env s).2 = t
  have hframe : s.Frame t := ht ▸ l.evaluate_frame (0 :: a) env s
  have hleft : (EvalM.asSource (l.evaluate (0 :: a))).exec env s = (.ok p, t) := by
    rw [exec_asSource hl hp, ht]
  -- the right tree stands elsewhere, so nothing that the left one keeps matters to it
  have hkept (k : CacheKey) (hk : (1 :: a) <:+ k.1) : t.cache[k]? = s.cache[k]? := by
    rw [← ht]
    exact (l.evaluate_local env (0 :: a)).below s k (Address.not_below (by decide) hk)
  have hsame : r.valueAt env (1 :: a) t = .ok w := (r.evaluate_after hframe hfacts hkept).trans hr
  exact ⟨_, hframe.trans (r.evaluate_frame (1 :: a) env t), fun f =>
    (EvalM.exec_bind_ok hleft).trans (EvalM.exec_bind_ok (exec_asSource hsame hq))⟩

/-- The pairs that a join of even sets keeps are an even set, if their columns can be counted. -/
theorem exists_keptPairs {p q : TupleSource} (hp : p.Even) (hq : q.Even)
    (hcolumns : p.arity + q.arity < UInt64.size) (keep : Row → Bool) {limit : Nat}
    (hlimit : limit = 0) :
    ∃ held : TupleList, ((TupleSource.pairs p.rows q.rows).filter keep).foldlM TupleList.add
        (.empty (TupleList.joinedArity p.arity q.arity) limit) = .ok held ∧
      held.arity = p.arity + q.arity ∧
      held.rows = (TupleSource.pairs p.rows q.rows).filter keep := by
  have harity : max (TupleList.joinedArity p.arity q.arity) 1 = p.arity + q.arity := by
    rw [TupleList.joinedArity_eq_add hcolumns]
    exact Nat.max_eq_left (Nat.le_trans hp.columns (Nat.le_add_right _ _))
  obtain ⟨held, hheld⟩ : ∃ held, ((TupleSource.pairs p.rows q.rows).filter keep).foldlM
      TupleList.add (.empty (TupleList.joinedArity p.arity q.arity) limit) = .ok held := by
    refine TupleList.exists_foldlM_add_empty_iff.2 ⟨fun row hrow => ?_, by omega⟩
    rw [harity]
    exact TupleSource.length_of_mem_pairs hp.rows hq.rows (List.mem_of_mem_filter hrow)
  obtain ⟨-, harity', hrows⟩ := TupleList.foldlM_add_empty hheld
  exact ⟨held, hheld, harity'.trans harity, hrows⟩

/-- A join of two trees gives the pairs that the flag does not leave out. -/
theorem Gives.joined (type : ExprType) (onDemand : Bool) {m n : Nat} {lefts rights : List Row}
    (hlimit : env.config.resultLimit = 0) (hfacts : s.reader = .memory facts)
    (hrunning : s.execution.stopped? = none) (hdepth : s.depth < env.config.maxEvalDepth)
    (hl : l.Gives env (0 :: a) (EvalM.entered s) m lefts)
    (hr : r.Gives env (1 :: a) (EvalM.entered s) n rights) (hcolumns : m + n < UInt64.size) :
    (Calc.joined type onDemand l r).Gives env a s (m + n)
      ((TupleSource.pairs lefts rights).filter
        fun row => !s.nonEmpty || row.filledIn facts s.context) := by
  obtain ⟨v, p, hv, hp, hpeven, rfl, rfl⟩ := hl
  obtain ⟨w, q, hw, hq, hqeven, rfl, rfl⟩ := hr
  have hentered : (EvalM.entered s).reader = .memory facts := hfacts
  obtain ⟨u, hframe, hboth⟩ := exec_operands hentered hv hp hw hq
  have hvalue : (Calc.joined type onDemand l r).valueAt env a s =
      ((joinSets onDemand p q).exec env u).1 := by
    rw [valueAt, evaluate_joined, EvalM.exec_calculation a _ hdepth, hboth]
  have hflag : u.nonEmpty = s.nonEmpty := hframe.nonEmpty
  have hcontext : u.context = s.context := hframe.context
  rw [joinSets, EvalM.exec_bind_ok EvalM.exec_get, hflag] at hvalue
  cases hlazy : onDemand && !s.nonEmpty with
  | true =>
    rw [hlazy] at hvalue
    obtain ⟨-, hoff⟩ := Bool.and_eq_true _ _ ▸ hlazy
    have harity : (TupleSource.cross p q).arity = p.arity + q.arity :=
      TupleList.joinedArity_eq_add hcolumns
    refine ⟨_, _, hvalue, rfl, ⟨?_, fun row hrow => ?_⟩, harity, ?_⟩
    · rw [harity]
      exact Nat.add_pos_left hpeven.columns _
    · rw [harity]
      exact TupleSource.length_of_mem_pairs hpeven.rows hqeven.rows hrow
    · rw [hoff]
      exact (List.filter_eq_self.2 fun _ _ => rfl).symm
  | false =>
    rw [hlazy] at hvalue
    obtain ⟨held, hheld⟩ := hqeven.exists_collect hlimit
    have hjoin := EvalM.exec_crossJoin_filled p (hframe.reader_memory hentered)
      (hframe.stopped?.trans hrunning) hheld
    obtain ⟨kept, hkept, harity, hrows⟩ := exists_keptPairs hpeven hqeven hcolumns
      (fun row => !s.nonEmpty || row.filledIn facts s.context) hlimit
    rw [hflag, hcontext, hkept] at hjoin
    have hlist : (Calc.joined type onDemand l r).valueAt env a s = .ok (.list kept) := by
      rw [hvalue, if_neg Bool.false_ne_true]
      exact (congrArg Prod.fst (EvalM.exec_bind_pure _ Value.list)).trans
        (congrArg (Value.list <$> ·) hjoin)
    refine ⟨_, _, hlist, rfl, ⟨kept.arity_pos, fun row hrow => ?_⟩, harity, hrows⟩
    exact TupleList.length_of_mem_rows hrow

end Calc

/-! ## Expressions of joins -/

namespace Expr

variable {env : Environment} {facts : List Fact} {s : EvalState} {a : Address} {e : Expr}
  {t : JoinTree} {styles : List ResultStyle}

/-- The expression is made of joins, nested as in the tree, over sets that have the same value in the
state under both flags, if their trees stand where the compiled expression has them. -/
inductive JoinsIn (env : Environment) : EvalState → Address → Expr → JoinTree → Prop
  | base {s : EvalState} {a : Address} {e : Expr} {c : Calc} {v : Value} {p : TupleSource}
      (hc : ∀ styles, (e.toOperand env.cube).iterable styles = .ok c)
      (hv : ∀ flag, c.valueAt env a (s.flagged flag) = .ok v)
      (hp : v.toSource = .ok p) (heven : p.Even) : JoinsIn env s a e (.base p)
  | join {s : EvalState} {a : Address} {d : Definition} {type : ExprType} {e₁ e₂ : Expr}
      {l r : JoinTree} (hd : d.body = .crossJoin) (hset : type.isSet = true)
      (hdepth : s.depth < env.config.maxEvalDepth) (hl : JoinsIn env (EvalM.entered s) (0 :: a) e₁ l)
      (hr : JoinsIn env (EvalM.entered s) (1 :: a) e₂ r)
      (hcolumns : l.columns + r.columns < UInt64.size) :
      JoinsIn env s a (.bound d type [e₁, e₂]) (.join l r)

theorem JoinsIn.even (h : e.JoinsIn env s a t) : t.Even := by
  induction h with
  | base _ _ _ heven => exact heven
  | join _ _ _ _ _ _ ihl ihr => exact ⟨ihl, ihr⟩

/-- A join compiles to a join of the trees of its operands, on demand where that is accepted. -/
theorem compile_join {d : Definition} {type : ExprType} {e₁ e₂ : Expr} {l r : Calc} {cube : Cube}
    (hd : d.body = .crossJoin) (hl : ∀ styles, (e₁.toOperand cube).iterable styles = .ok l)
    (hr : ∀ styles, (e₂.toOperand cube).iterable styles = .ok r) (styles : List ResultStyle) :
    (Expr.bound d type [e₁, e₂]).compile cube styles =
      .ok (.joined type (styles.contains .iterable || styles.contains .any) l r) := by
  let call : BoundCall := ⟨d, type, [e₁.toOperand cube, e₂.toOperand cube]⟩
  have hcompile : (Expr.bound d type [e₁, e₂]).compile cube styles = call.crossJoin styles := by
    show call.compile cube styles = _
    rw [BoundCall.compile, hd]
  have hleft : call.operand 0 >>= (fun o => o.iterable styles) = .ok l := hl styles
  have hright : call.operand 1 >>= (fun o => o.iterable styles) = .ok r := hr styles
  rw [hcompile, BoundCall.crossJoin]
  simp only [← bind_assoc, hleft, hright]
  rfl

/-- The trees of a join for callers who want it on demand or in full. -/
theorem renderings_join {d : Definition} {type : ExprType} {e₁ e₂ : Expr} {l r : Calc} {cube : Cube}
    (hd : d.body = .crossJoin) (hset : type.isSet = true)
    (hl : ∀ styles, (e₁.toOperand cube).iterable styles = .ok l)
    (hr : ∀ styles, (e₂.toOperand cube).iterable styles = .ok r) (styles : List ResultStyle) :
    ((Expr.bound d type [e₁, e₂]).toOperand cube).iterable styles = .ok (.joined type true l r) ∧
      ((Expr.bound d type [e₁, e₂]).toOperand cube).list styles =
        .ok (.joined type false l r) := by
  obtain ⟨u, hu⟩ := ExprType.eq_set_of_isSet hset
  have htype : ((Expr.bound d type [e₁, e₂]).toOperand cube).type = .set u := hu
  have hcompile (styles : List ResultStyle) :
      (Expr.bound d type [e₁, e₂]).compile cube styles = _ := compile_join hd hl hr styles
  simp only [Operand.iterable, Operand.list, htype, Operand.compileAs]
  refine ⟨?_, ?_⟩
  · show (Expr.bound d type [e₁, e₂]).compile cube _ >>= _ = _
    rw [hcompile]
    rfl
  · show (Expr.bound d type [e₁, e₂]).compile cube _ >>= _ = _
    rw [hcompile]
    rfl

/-- A set that ignores the context has the same value under both flags. -/
theorem JoinsIn.of_ignoresContext {c : Calc} {l : TupleList} (he : e.Bound)
    (hc : (e.toOperand env.cube).iterable styles = .ok c) (hignores : c.IgnoresContext)
    (hv : c.valueAt env a s = .ok (.list l)) : e.JoinsIn env s a (.base (.list l)) := by
  have hstyles (others : List ResultStyle) : (e.toOperand env.cube).iterable others = .ok c :=
    ((settled he.fixed_or_joins).iterable others styles).trans hc
  have hflags (flag : Bool) : c.valueAt env a (s.flagged flag) = .ok (.list l) :=
    (hignores.evaluate_withFocus env a s (s.flagged flag)).trans hv
  exact .base hstyles hflags rfl ⟨l.arity_pos, fun row hrow => TupleList.length_of_mem_rows hrow⟩

/-- Under either flag the trees of joins give the tuples that the flag does not leave out. -/
theorem JoinsIn.gives (h : e.JoinsIn env s a t) (hlimit : env.config.resultLimit = 0)
    (hfacts : s.reader = .memory facts) (hrunning : s.execution.stopped? = none) :
    ∃ c, (∀ styles, (e.toOperand env.cube).iterable styles = .ok c) ∧
      ∀ flag, c.Gives env a (s.flagged flag) t.columns
        (t.filledRows fun row => !flag || row.filledIn facts s.context) := by
  induction h with
  | base hc hv hp heven => exact ⟨_, hc, fun flag => ⟨_, _, hv flag, hp, heven, rfl, rfl⟩⟩
  | @join s a d type e₁ e₂ l r hd hset hdepth _ _ hcolumns ihl ihr =>
    obtain ⟨cl, hcl, hl⟩ := ihl hfacts hrunning
    obtain ⟨cr, hcr, hr⟩ := ihr hfacts hrunning
    refine ⟨_, fun styles => (renderings_join hd hset hcl hcr styles).1, fun flag => ?_⟩
    exact .joined type true hlimit hfacts hrunning hdepth (hl flag) (hr flag) hcolumns

/-- Joins nested in any way, over sets whose values do not depend on the flag, leave out with the flag
all tuples but those whose parts are filled at every join. So all tuples with filled cells are kept if
and only if these survive, as they do in a join of two such sets. -/
theorem JoinsIn.filled {l r : JoinTree} (h : e.JoinsIn env s a (.join l r))
    (hlimit : env.config.resultLimit = 0) (hfacts : s.reader = .memory facts)
    (hrunning : s.execution.stopped? = none) (styles : List ResultStyle) :
    ∃ onDemand inFull : Calc, (e.toOperand env.cube).iterable styles = .ok onDemand ∧
      (e.toOperand env.cube).list styles = .ok inFull ∧
      ∀ c ∈ [onDemand, inFull], ∃ all kept : TupleList,
        c.heldAt env a (s.flagged false) = .ok all ∧ c.heldAt env a (s.flagged true) = .ok kept ∧
        let filled : Row → Bool := Row.filledIn facts s.context
        let survives : Row → Bool := (JoinTree.join l r).survives filled
        kept.rows = all.rows.filter survives ∧
        (kept.rows = all.rows.filter filled ↔
          ∀ row ∈ all.rows, filled row = true → survives row = true) ∧
        (∀ p q, l = .base p → r = .base q → kept.rows = all.rows.filter filled) := by
  have heven := h.even
  cases h with
  | @join _ _ d type e₁ e₂ _ _ hd hset hdepth hl hr hcolumns =>
    obtain ⟨cl, hcl, hleft⟩ := hl.gives hlimit hfacts hrunning
    obtain ⟨cr, hcr, hright⟩ := hr.gives hlimit hfacts hrunning
    obtain ⟨honDemand, hinFull⟩ :
        ((Expr.bound d type [e₁, e₂]).toOperand env.cube).iterable styles = _ ∧ _ :=
      renderings_join hd hset hcl hcr styles
    refine ⟨_, _, honDemand, hinFull, fun c hc => ?_⟩
    obtain ⟨onDemand, rfl⟩ : ∃ onDemand, c = .joined type onDemand cl cr := by
      rcases List.mem_pair.1 hc with rfl | rfl <;> exact ⟨_, rfl⟩
    have hgives (flag : Bool) : Calc.Gives (.joined type onDemand cl cr) env a (s.flagged flag) _
        ((JoinTree.join l r).filledRows fun row => !flag || row.filledIn facts s.context) :=
      .joined type onDemand hlimit hfacts hrunning hdepth (hleft flag) (hright flag) hcolumns
    obtain ⟨all, hall, hallRows⟩ := (hgives false).held hlimit hrunning
    obtain ⟨kept, hkept, hkeptRows⟩ := (hgives true).held hlimit hrunning
    have hrows : all.rows = (JoinTree.join l r).rows :=
      hallRows.trans (JoinTree.filledRows_of_forall heven fun _ => rfl)
    have hsurvive : kept.rows =
        all.rows.filter ((JoinTree.join l r).survives (Row.filledIn facts s.context)) := by
      rw [hrows]
      exact hkeptRows.trans (JoinTree.filledRows_eq heven)
    refine ⟨all, kept, hall, hkept, hsurvive, ?_, ?_⟩
    · rw [hsurvive]
      exact JoinTree.filter_survives_eq_iff
    · rintro p q rfl rfl
      rw [hsurvive]
      refine List.filter_congr fun row _ => ?_
      simp only [JoinTree.survives, Bool.and_true]

end Expr

/-! ## Joins of measures -/

namespace Sample

/-- All triples of measures, joined as pairs with a third one. -/
def triples : Expr := .call "CrossJoin" .function [pairs, bothMeasures]

/-- The operands of a join of sets. -/
def joined? : Expr → Option (Expr × Expr)
  | .bound d type [l, r] => if d.body == .crossJoin && type.isSet then some (l, r) else none
  | _ => none

theorem eq_bound_of_joined? {e l r : Expr} (h : joined? e = some (l, r)) :
    ∃ d type, e = .bound d type [l, r] ∧ d.body = .crossJoin ∧ type.isSet = true := by
  unfold joined? at h
  split at h
  · rename_i d type l' r'
    split at h
    · rename_i hjoin
      obtain ⟨hbody, hset⟩ := Bool.and_eq_true _ _ ▸ hjoin
      cases h
      exact ⟨d, type, rfl, eq_of_beq hbody, hset⟩
    · cases h
  · cases h

/-- The set of two members, written down. -/
def isPair : Calc → Bool
  | .node _ (.set _) [.node _ (.constant _) [], .node _ (.constant _) []] => true
  | _ => false

theorem ignoresContext_of_isPair {c : Calc} (h : isPair c = true) : c.IgnoresContext := by
  unfold isPair at h
  split at h
  · refine .node ⟨rfl, rfl⟩ fun c hc => ?_
    rcases List.mem_pair.1 hc with rfl | rfl <;> exact .node ⟨rfl, rfl⟩ (List.forall_mem_nil _)
  · cases h

def listOf? : Except CalcError Value → Option TupleList
  | .ok (.list l) => some l
  | _ => none

theorem eq_list_of_listOf? {r : Except CalcError Value} {l : TupleList} (h : listOf? r = some l) :
    r = .ok (.list l) := by
  unfold listOf? at h
  split at h
  · cases h
    rfl
  · cases h

/-- The list that the pair of members is. -/
def pair? (s : EvalState) (a : Address) (e : Expr) : Option TupleList :=
  match (e.toOperand cube).iterable [] with
  | .ok c => if isPair c then listOf? (c.valueAt environment a s) else none
  | .error _ => none

theorem joinsIn_of_pair? {s : EvalState} {a : Address} {e : Expr} {l : TupleList} (he : e.Bound)
    (h : pair? s a e = some l) : e.JoinsIn environment s a (.base (.list l)) := by
  unfold pair? at h
  split at h
  · rename_i c hc
    split at h
    · rename_i hpair
      exact .of_ignoresContext he hc (ignoresContext_of_isPair hpair) (eq_list_of_listOf? h)
    · cases h
  · cases h

open EvalM in
/-- The three sets of measures that are joined to triples, if each has one column. -/
def tripleSets? : Option (TupleList × TupleList × TupleList) := do
  let (inner, third) ← joined? (bindings triples)
  let (first, second) ← joined? inner
  let p ← pair? (entered (entered fresh)) [0, 0, 0] first
  let q ← pair? (entered (entered fresh)) [1, 0, 0] second
  let r ← pair? (entered fresh) [1, 0] third
  if p.arity = 1 ∧ q.arity = 1 ∧ r.arity = 1 then some (p, q, r) else none

theorem bound_operands {d : Definition} {type : ExprType} {l r : Expr}
    (h : (Expr.bound d type [l, r]).Bound) : l.Bound ∧ r.Bound := by
  cases h with
  | call _ _ _ hargs =>
    exact ⟨hargs l List.mem_cons_self, hargs r (List.mem_cons_of_mem _ List.mem_cons_self)⟩

theorem joinsIn_of_tripleSets? {p q r : TupleList} (hbound : (bindings triples).Bound)
    (h : tripleSets? = some (p, q, r)) : (bindings triples).JoinsIn environment fresh [0]
      (.join (.join (.base (.list p)) (.base (.list q))) (.base (.list r))) := by
  unfold tripleSets? at h
  simp only [Option.bind_eq_bind, Option.bind_eq_some_iff, Prod.exists] at h
  obtain ⟨inner, third, houter, first, second, hinner, p', hp, q', hq, r', hr, h⟩ := h
  split at h
  · rename_i harity
    cases h
    obtain ⟨d, type, heq, hd, hset⟩ := eq_bound_of_joined? houter
    obtain ⟨d', type', rfl, hd', hset'⟩ := eq_bound_of_joined? hinner
    rw [heq] at hbound ⊢
    obtain ⟨hbound, hthird⟩ := bound_operands hbound
    obtain ⟨hfirst, hsecond⟩ := bound_operands hbound
    have hcolumns : p.arity + q.arity < UInt64.size ∧ p.arity + q.arity + r.arity < UInt64.size := by
      rw [harity.1, harity.2.1, harity.2.2]
      decide
    exact .join hd hset (by decide)
      (.join hd' hset' (by decide) (joinsIn_of_pair? hfirst hp) (joinsIn_of_pair? hsecond hq)
        hcolumns.1)
      (joinsIn_of_pair? hthird hr) hcolumns.2
  · cases h

/-- How many triples are given without the flag and with it, and how many have filled cells. -/
def tripleSizes : Option (Nat × Nat × Nat) :=
  match ((bindings triples).toOperand cube).iterable [] with
  | .ok c =>
    match c.heldAt environment [0] (fresh.flagged false),
      c.heldAt environment [0] (fresh.flagged true) with
    | .ok all, .ok kept =>
      some (all.rows.length, kept.rows.length,
        (all.rows.filter (Row.filledIn [⟨[amount], 5⟩] fresh.context)).length)
    | _, _ => none
  | .error _ => none

/-- Of four triples with filled cells two are lost, as the pairs that they start with are empty. -/
theorem filled_triples : ∃ p q r all kept : TupleList, ∃ c : Calc,
    let t : JoinTree := .join (.base (.list p)) (.base (.list q))
    let filled : Row → Bool := Row.filledIn [⟨[amount], 5⟩] fresh.context
    (bindings triples).JoinsIn environment fresh [0] (.join t (.base (.list r))) ∧
      environment.config.resultLimit = 0 ∧ fresh.reader = .memory [⟨[amount], 5⟩] ∧
      fresh.execution.stopped? = none ∧
      ((bindings triples).toOperand cube).iterable [] = .ok c ∧
      c.heldAt environment [0] (fresh.flagged false) = .ok all ∧
      c.heldAt environment [0] (fresh.flagged true) = .ok kept ∧
      kept.rows = all.rows.filter ((JoinTree.join t (.base (.list r))).survives filled) ∧
      all.rows.length = 8 ∧ kept.rows.length = 2 ∧ (all.rows.filter filled).length = 4 := by
  have hchecks : isValidSet triples = true ∧ tripleSets?.isSome = true ∧
      tripleSizes = some (8, 2, 4) := by decide +kernel
  obtain ⟨hvalid, hsets, hsizes⟩ := hchecks
  obtain ⟨⟨p, q, r⟩, hsets⟩ := Option.isSome_iff_exists.1 hsets
  have hjoins := joinsIn_of_tripleSets? (Expr.validate_bound rfl (validate_bindings hvalid).1) hsets
  obtain ⟨c, _, hc, -, hall⟩ := hjoins.filled rfl rfl rfl []
  obtain ⟨all, kept, hoff, hon, hkept, -⟩ := hall c List.mem_cons_self
  have hsizes : some (all.rows.length, kept.rows.length,
      (all.rows.filter (Row.filledIn [⟨[amount], 5⟩] fresh.context)).length) = some (8, 2, 4) := by
    unfold tripleSizes at hsizes
    change ((bindings triples).toOperand cube).iterable [] = .ok c at hc
    rw [hc] at hsizes
    simp only [hoff, hon] at hsizes
    exact hsizes
  simp only [Option.some.injEq, Prod.mk.injEq] at hsizes
  exact ⟨p, q, r, all, kept, c, hjoins, rfl, rfl, rfl, hc, hoff, hon, hkept, hsizes⟩

end Sample

end Olap
