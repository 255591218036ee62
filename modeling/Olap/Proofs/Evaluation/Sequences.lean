import Olap.Proofs.Evaluation.Holding
import Olap.Proofs.Catalog.Regular
import Olap.Proofs.Tuple.Cursors

/-!
# A source means one sequence of tuples

However a source is read, it gives the tuples `TupleSource.rows`: a cursor visits them, an iterator
hands them out, a list holds them if the limit allows it, equal sources have equal ones, and joining
two sources at once gives those of the join on demand (`TupleSource.reads_rows`). The sources are all
that can be built of lists, joins and columns that exist (`TupleSource.Built`).
-/

set_option autoImplicit false

namespace Olap

namespace TupleSource

/-- Every column that is taken is one of its source. -/
def Built : TupleSource → Prop
  | list _ => True
  | cross s t => s.Built ∧ t.Built
  | slice s c => s.Built ∧ c < s.arity

variable {s t u : TupleSource} {limit : Nat}

/-! ## Columns -/

theorem built_sliced (hs : s.Built) {c : Nat} (h : s.sliced c = .ok u) : u.Built := by
  unfold sliced at h
  split at h <;> cases h
  exact ⟨hs, by assumption⟩

theorem built_project (hs : s.Built) {c : Nat} (h : s.project c = .ok u) : u.Built := by
  cases s with
  | list l =>
    obtain ⟨m, -, rfl⟩ := map_eq_ok.1 h
    trivial
  | cross s t => exact built_sliced hs h
  | slice s k =>
    rw [project] at h
    split at h <;> cases h
    exact hs

/-- The tuples have at least as many columns as their source; the number of columns of a join may have
wrapped around. -/
theorem Built.arity_le (hs : s.Built) {r : Row} (hr : r ∈ s.rows) : s.arity ≤ r.length := by
  induction s generalizing r with
  | list l => exact Nat.le_of_eq (TupleList.length_of_mem_rows hr).symm
  | cross s t ihs iht =>
    obtain ⟨p, hp, hr⟩ := List.mem_flatMap.1 hr
    obtain ⟨q, hq, rfl⟩ := List.mem_map.1 hr
    have hleft := ihs hs.1 hp
    have hright := iht hs.2 hq
    have hwrap : (cross s t).arity ≤ s.arity + t.arity := Nat.mod_le _ _
    rw [List.length_append]
    omega
  | slice s c ih =>
    obtain ⟨hs, hc⟩ := hs
    obtain ⟨p, hp, rfl⟩ := List.mem_map.1 hr
    have hlt : c < p.length := Nat.lt_of_lt_of_le hc (ih hs hp)
    rw [List.getElem?_eq_getElem hlt]
    exact Nat.le_refl 1

/-- Tuples whose columns can be counted have exactly as many as their source, and at least one. -/
theorem Built.length_eq (hs : s.Built) {r : Row} (hr : r ∈ s.rows) (hlen : r.length < UInt64.size) :
    r.length = s.arity ∧ 0 < s.arity := by
  induction s generalizing r with
  | list l => exact ⟨TupleList.length_of_mem_rows hr, l.arity_pos⟩
  | cross s t ihs iht =>
    obtain ⟨p, hp, hr⟩ := List.mem_flatMap.1 hr
    obtain ⟨q, hq, rfl⟩ := List.mem_map.1 hr
    rw [List.length_append] at hlen ⊢
    obtain ⟨hleft, hpos⟩ := ihs hs.1 hp (by omega)
    obtain ⟨hright, -⟩ := iht hs.2 hq (by omega)
    have harity : (cross s t).arity = s.arity + t.arity :=
      TupleList.joinedArity_eq_add (by omega)
    omega
  | slice s c _ =>
    have hle := hs.arity_le hr
    obtain ⟨p, -, rfl⟩ := List.mem_map.1 hr
    have hone : p[c]?.toList.length ≤ 1 := by
      cases p[c]? <;> simp
    have harity : (slice s c).arity = 1 := rfl
    omega

/-- The columns of the tuples can be counted in a machine word. -/
def Countable (s : TupleSource) : Prop := ∀ r ∈ s.rows, r.length < UInt64.size

theorem Built.columns (hs : s.Built) (hw : s.Countable) : ∀ r ∈ s.rows, r.length = max s.arity 1 := by
  intro r hr
  obtain ⟨hlength, hpos⟩ := hs.length_eq hr (hw r hr)
  omega

/-! ## Holding -/

/-- The first tuple beyond the limit is refused. -/
theorem foldlM_add_beyond {l : TupleList} (hl : l.Legal limit) {rs : List Row}
    (hrs : ∀ r ∈ rs, r.length = l.arity) (hpos : 0 < limit) (hbeyond : limit < l.size + rs.length) :
    rs.foldlM TupleList.add l = .error (.resourceLimitExceeded (limit + 1) limit) := by
  induction rs generalizing l with
  | nil =>
    have := hl.size_le hpos
    rw [List.length_nil] at hbeyond
    omega
  | cons r rs ih =>
    obtain ⟨hr, hrs⟩ := List.forall_mem_cons.1 hrs
    rw [List.length_cons] at hbeyond
    rw [List.foldlM_cons]
    rcases Nat.lt_or_ge l.size limit with hroom | hfull
    · obtain ⟨k, hk⟩ := TupleList.exists_add_iff.2 ⟨hr, fun _ => hl.limit_eq.symm ▸ hroom⟩
      obtain ⟨hlegal, harity, hrows⟩ := hl.add hk
      have hsize : k.size = l.size + 1 := by
        rw [← TupleList.length_rows, hrows, List.length_append, TupleList.length_rows]
        rfl
      rw [hk]
      exact ih hlegal (fun q hq => (hrs q hq).trans harity.symm) (by omega)
    · have hsize : l.size = limit := Nat.le_antisymm (hl.size_le hpos) hfull
      have hadd : l.add r = .error (.resourceLimitExceeded (limit + 1) limit) := by
        have hcheck : TupleList.checkLimit (l.size + 1) l.limit =
            .error (.resourceLimitExceeded (limit + 1) limit) := by
          rw [hsize, hl.limit_eq, TupleList.checkLimit, if_pos ⟨hpos, Nat.lt_succ_self _⟩]
        rw [TupleList.add, if_neg (Decidable.not_not.2 hr), hcheck]
        rfl
      rw [hadd]
      rfl

/-- All tuples are held if the limit allows them. -/
theorem Built.collect (hs : s.Built) (hw : s.Countable) (hlimit : limit = 0 ∨ s.rows.length ≤ limit) :
    ∃ l, s.collect limit = .ok l ∧ l.arity = max s.arity 1 ∧ l.limit = limit ∧ l.rows = s.rows := by
  have hholdable : s.Holdable limit := by
    refine ⟨hs.columns hw, fun hpos => ?_⟩
    rw [← length_rows]
    omega
  obtain ⟨l, hl⟩ := exists_collect_iff.2 hholdable
  obtain ⟨hlegal, harity, hrows⟩ := collect_ok hl
  exact ⟨l, hl, harity, hlegal.limit_eq, hrows⟩

/-- Holding more tuples than the limit allows fails at the first one beyond it. -/
theorem Built.collect_beyond (hs : s.Built) (hw : s.Countable) (hpos : 0 < limit)
    (hbeyond : limit < s.rows.length) :
    s.collect limit = .error (.resourceLimitExceeded (limit + 1) limit) := by
  refine foldlM_add_beyond (TupleList.legal_empty s.arity limit) (hs.columns hw) hpos ?_
  rwa [TupleList.size_empty, Nat.zero_add]

/-- Without a limit two sources are joined at once to the tuples of their join. -/
theorem Built.collectPairs (hs : s.Built) (ht : t.Built) (hwt : t.Countable)
    (hw : (cross s t).Countable) :
    ∃ l, s.collectPairs 0 t = .ok l ∧ l.rows = (cross s t).rows := by
  obtain ⟨rights, hrights, -⟩ := ht.collect hwt (.inl rfl)
  have hcross : (cross s t).Built := ⟨hs, ht⟩
  obtain ⟨l, hl, -, -, hrows⟩ := hcross.collect hw (.inl rfl)
  refine ⟨l, ?_, hrows⟩
  rw [TupleSource.collectPairs, hrights]
  exact hl

/-! ## All readings -/

/-- However a source is read, it gives its tuples in order. -/
theorem reads_rows (hs : s.Built) (hw : s.Countable) :
    ((TupleCursor.ofSource s).current = [] ∧ ∀ n,
        ((TupleCursor.ofSource s).after n).forward.1 = decide (n < s.rows.length) ∧
          ((TupleCursor.ofSource s).after n).forward.2.current = s.rows[n]?.getD []) ∧
      (∀ calls, (TupleIterator.ofSource s).answers calls = answersOf s.rows calls) ∧
      (∀ (env : Environment) (state : EvalState), state.execution.stopped? = none →
        let held := ((EvalM.materialize s).exec env state).1
        let limit := env.config.resultLimit
        (limit = 0 ∨ s.rows.length ≤ limit →
            ∃ l, held = .ok l ∧ l.arity = max s.arity 1 ∧ l.limit = limit ∧ l.rows = s.rows) ∧
          (0 < limit → limit < s.rows.length →
            held = .error (.resourceLimitExceeded (limit + 1) limit))) ∧
      (∀ t : TupleSource, s.sameRows t = true ↔ s.arity = t.arity ∧ (s.rows == t.rows) = true) ∧
      (∀ t : TupleSource, t.Built → t.Countable → (cross s t).Countable →
        ∀ (env : Environment) (state : EvalState), env.config.resultLimit = 0 →
          state.execution.stopped? = none → state.nonEmpty = false →
          ∃ l, ((EvalM.crossJoin s t).exec env state).1 = .ok l ∧
            l.rows = (cross s t).rows) := by
  refine ⟨⟨TupleCursor.current_after s 0, fun n => ?_⟩, TupleIterator.answers_ofSource s, ?_,
    fun t => sameRows_iff, ?_⟩
  · exact ⟨TupleCursor.forward_after s n, TupleCursor.current_after s (n + 1)⟩
  · intro env state hstate held limit
    have hheld : held = s.collect limit := EvalM.exec_materialize s hstate
    rw [hheld]
    exact ⟨hs.collect hw, hs.collect_beyond hw⟩
  · intro t ht hwt hwpairs env state hlimit hstate hflag
    rw [EvalM.exec_crossJoin s t hstate hflag, hlimit]
    exact hs.collectPairs ht hwt hwpairs

end TupleSource

namespace Sample

/-- The two measures as a list of one column. -/
def measureList : TupleList := ⟨1, 0, #[amount, cost], Nat.one_pos⟩

/-- The second column of the pairs of measures. -/
def seconds : TupleSource := .slice (.cross (.list measureList) (.list measureList)) 1

/-- Its cursor stands on the second measure after four moves, and does not move on then. -/
theorem reads_rows_seconds :
    seconds.Built ∧ seconds.Countable ∧
      ((TupleCursor.ofSource seconds).after 4).current = [cost] ∧
      ((TupleCursor.ofSource seconds).after 4).forward.1 = false := by
  have hrows : seconds.rows = [[amount], [cost], [amount], [cost]] := by rfl
  have hbuilt : seconds.Built := ⟨⟨trivial, trivial⟩, by decide⟩
  have hcountable : seconds.Countable := by
    intro r hr
    rw [hrows] at hr
    have hone : r.length = 1 := by
      simp only [List.mem_cons, List.not_mem_nil, or_false] at hr
      rcases hr with rfl | rfl | rfl | rfl <;> rfl
    rw [hone]
    decide
  obtain ⟨⟨-, hcursor⟩, -⟩ := TupleSource.reads_rows hbuilt hcountable
  obtain ⟨-, hlast⟩ := hcursor 3
  obtain ⟨hend, -⟩ := hcursor 4
  rw [hrows] at hlast hend
  exact ⟨hbuilt, hcountable, hlast, hend⟩

end Sample

end Olap
