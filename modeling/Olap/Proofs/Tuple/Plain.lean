import Olap.Proofs.Catalog.Regular
import Olap.Proofs.Tuple.Collect
import Olap.Proofs.Tuple.Cursors

/-!
# Lists of tuples as plain lists

A `PlainList` holds its tuples one by one, next to the number of columns and the limit that it is kept
to. `TupleList.plain` forgets the buffer of a list. However a list comes about from an empty one, it
stands for the plain list that comes about in the same way, and answers like that one
(`TupleList.refines_plain`): each call does to the buffer what it does to the plain list
(`TupleList.Legal.call`).

One call can go wrong. The length that `truncate` cuts the buffer to is a machine word; where the
product does not fit (`TupleList.CutFits`), tuples are lost that should be kept
(`TupleList.Legal.truncate_iff`).
-/

set_option autoImplicit false

namespace Olap

/-- Tuples one by one, with the number of columns and the limit that they are kept to. -/
structure PlainList where
  arity : Nat
  /-- The largest number of tuples; zero means any number. -/
  limit : Nat
  rows : List Row

/-- A call that leads from one list of tuples to another. -/
inductive ListCall where
  | add (r : Row)
  | extend (m : TupleList)
  | truncate (count : Nat)
  | clear
  | subList (start stop : Nat)
  | column (c : Nat)
  | permute (places : List Nat)

namespace PlainList

/-- Adds a tuple at the end, if it has the columns of the list and there is room for it. -/
def add (p : PlainList) (r : Row) : Except CalcError PlainList :=
  if r.length ≠ p.arity then .error (.arityMismatch p.arity r.length)
  else if 0 < p.limit ∧ p.limit ≤ p.rows.length then
    .error (.resourceLimitExceeded (p.rows.length + 1) p.limit)
  else .ok { p with rows := p.rows ++ [r] }

/-- Adds tuples one after the other until one is refused. -/
def extend (p : PlainList) : List Row → PlainList
  | [] => p
  | r :: rs =>
    match p.add r with
    | .ok p => p.extend rs
    | .error _ => p

/-- The members in one column; none if there is no such column. -/
def column? (p : PlainList) (c : Nat) : Option PlainList :=
  if c < p.arity then some ⟨1, p.limit, p.rows.map fun r => r[c]?.toList⟩ else none

/-- The tuples at the given places; none if a place is out of range, or there are more places than the
limit allows tuples. -/
def permute? (p : PlainList) (places : List Nat) : Option PlainList :=
  if (∀ i ∈ places, i < p.rows.length) ∧ (0 < p.limit → places.length ≤ p.limit) then
    some { p with rows := places.filterMap fun i => p.rows[i]? }
  else none

/-- The list after a call; a call that is refused leaves it as it was. -/
def call (p : PlainList) : ListCall → PlainList
  | .add r => (p.add r).toOption.getD p
  | .extend m => p.extend m.rows
  | .truncate count => { p with rows := p.rows.take count }
  | .clear => { p with rows := [] }
  | .subList start stop => { p with rows := (p.rows.take stop).drop start }
  | .column c => (p.column? c).getD p
  | .permute places => (p.permute? places).getD p

end PlainList

namespace TupleList

/-- The plain list that a list of tuples stands for. -/
def plain (l : TupleList) : PlainList := ⟨l.arity, l.limit, l.rows⟩

/-- The list after a call; a call that is refused leaves it as it was, but for the tuples that were
added before the refusal. -/
def call (l : TupleList) : ListCall → TupleList
  | .add r => (l.add r).toOption.getD l
  | .extend m => (l.addAll m.rows).1
  | .truncate count => l.truncate count
  | .clear => l.clear
  | .subList start stop => l.subList start stop
  | .column c => (l.column c).toOption.getD l
  | .permute places => (l.permute places).toOption.getD l

/-- The call does not go wrong for want of room in a machine word. -/
def Fits (l : TupleList) : ListCall → Prop
  | .truncate count => l.CutFits count
  | _ => True

instance (l : TupleList) : (call : ListCall) → Decidable (l.Fits call)
  | .truncate count => inferInstanceAs (Decidable (l.CutFits count))
  | .add _ | .extend _ | .clear | .subList .. | .column _ | .permute _ => .isTrue trivial

/-- No call of several, made one after the other, goes wrong. -/
def AllFit : TupleList → List ListCall → Prop
  | _, [] => True
  | l, call :: calls => l.Fits call ∧ (l.call call).AllFit calls

instance AllFit.decidable : (l : TupleList) → (calls : List ListCall) → Decidable (l.AllFit calls)
  | _, [] => .isTrue trivial
  | l, call :: calls =>
    have := decidable (l.call call) calls
    inferInstanceAs (Decidable (_ ∧ _))

variable {limit : Nat} {l l' : TupleList}

/-! ## One call -/

theorem row?_eq (l : TupleList) (i : Nat) : l.row? i = l.rows[i]? := by
  have hiff : i * l.arity + l.arity ≤ l.members.size ↔ i < l.size := by
    rw [← Nat.add_one_mul]
    exact (Nat.le_div_iff_mul_le l.arity_pos).symm
  rw [row?, rows, List.getElem?_map]
  by_cases hi : i < l.size
  · rw [if_pos (hiff.2 hi), List.getElem?_range hi]
    rfl
  · rw [if_neg fun h => hi (hiff.1 h), List.getElem?_eq_none (by simpa using hi)]
    rfl

/-- A tuple is added as to a plain list. -/
theorem Legal.plain_add (hl : l.Legal limit) (r : Row) : (l.add r).map plain = l.plain.add r := by
  have hrows : l.plain.rows.length = l.size := length_rows l
  rw [PlainList.add, hrows]
  by_cases hr : r.length = l.arity
  · rw [if_neg (show ¬ r.length ≠ l.plain.arity from Decidable.not_not.2 hr)]
    by_cases hfull : 0 < l.limit ∧ l.limit ≤ l.size
    · rw [add_eq_error hr hfull.1 hfull.2]
      exact (if_pos hfull).symm
    · obtain ⟨l', hl'⟩ : ∃ l', l.add r = .ok l' :=
        exists_add_iff.2 ⟨hr, fun hpos => Nat.not_le.1 fun hle => hfull ⟨hpos, hle⟩⟩
      obtain ⟨-, harity, hadded⟩ := hl.add hl'
      obtain ⟨-, rfl⟩ := add_eq_ok hl'
      rw [hl']
      refine (congrArg Except.ok ?_).trans (if_neg hfull).symm
      rw [plain, hadded]
      rfl
  · rw [add_eq_mismatch hr]
    exact (if_pos hr).symm

theorem Legal.plain_addAll (hl : l.Legal limit) (rs : List Row) :
    (l.addAll rs).1.plain = l.plain.extend rs := by
  induction rs generalizing l with
  | nil => rfl
  | cons r rs ih =>
    rw [TupleList.addAll, PlainList.extend, ← hl.plain_add]
    rcases hadd : l.add r with e | l'
    · rfl
    · exact ih (hl.add hadd).1

theorem map_singleton_filterMap {c : Nat} {rs : List Row} (h : ∀ r ∈ rs, c < r.length) :
    (rs.filterMap (·[c]?)).map (fun m => [m]) = rs.map fun r => r[c]?.toList := by
  induction rs with
  | nil => rfl
  | cons r rs ih =>
    obtain ⟨hr, hrs⟩ := List.forall_mem_cons.1 h
    have hat : r[c]? = some r[c] := List.getElem?_eq_getElem hr
    rw [List.map_cons, List.filterMap_cons, hat, ← ih hrs]
    rfl

theorem Legal.column (hl : l.Legal limit) (c : Nat) :
    (∀ l', l.column c = .ok l' → l'.Legal limit) ∧
      (l.column c).toOption.map plain = l.plain.column? c := by
  rw [TupleList.column, PlainList.column?]
  by_cases hc : c < l.arity
  · rw [if_pos hc]
    let l' : TupleList := ⟨1, l.limit, (l.rows.filterMap (·[c]?)).toArray, by decide⟩
    have hcolumn : ∀ r ∈ l.rows, c < r.length := fun r hr => (length_of_mem_rows hr).symm ▸ hc
    have hrows : l'.rows = l.rows.map fun r => r[c]?.toList := by
      rw [rows_of_arity_one rfl, ← map_singleton_filterMap hcolumn]
    have hsize : l'.size = l.size := by
      rw [← length_rows, hrows, List.length_map, length_rows]
    refine ⟨fun m hm => ?_, ?_⟩
    · cases hm
      refine ⟨?_, hl.limit_eq, fun hpos => ?_⟩
      · rw [Whole, size, Nat.div_one, Nat.mul_one]
      · exact hsize ▸ hl.size_le hpos
    · refine Eq.trans ?_ (if_pos hc).symm
      exact congrArg (fun rows => some (PlainList.mk 1 l.limit rows)) hrows
  · rw [if_neg hc]
    refine ⟨fun l' hl' => ?_, (if_neg hc).symm⟩
    cases hl'

/-- Where all places are in range, their tuples are added to an empty list. -/
theorem permute_eq {places : List Nat} (h : ∀ i ∈ places, i < l.size) :
    l.permute places =
      (places.filterMap fun i => l.rows[i]?).foldlM add (empty l.arity l.limit) := by
  unfold TupleList.permute
  generalize empty l.arity l.limit = out
  induction places generalizing out with
  | nil => rfl
  | cons i places ih =>
    obtain ⟨hi, hplaces⟩ := List.forall_mem_cons.1 h
    obtain ⟨r, hrow⟩ : ∃ r, l.rows[i]? = some r :=
      ⟨_, List.getElem?_eq_getElem (by rwa [length_rows])⟩
    rw [List.foldlM_cons, List.filterMap_cons, row?_eq, hrow, List.foldlM_cons]
    exact bind_congr fun out => ih hplaces out

theorem permute_out_of_range {places : List Nat} (h : ∃ i ∈ places, l.size ≤ i) :
    ∃ e, l.permute places = .error e := by
  unfold TupleList.permute
  generalize empty l.arity l.limit = out
  induction places generalizing out with
  | nil =>
    obtain ⟨i, hi, -⟩ := h
    cases hi
  | cons j places ih =>
    obtain ⟨i, hi, hsize⟩ := h
    rw [List.foldlM_cons, row?_eq]
    rcases hrow : l.rows[j]? with _ | r
    · exact ⟨_, rfl⟩
    · rcases hadd : out.add r with e | out'
      · exact ⟨e, by simp only [hadd]; rfl⟩
      · have hplaces : i ∈ places := by
          rcases List.mem_cons.1 hi with rfl | hi
          · rw [List.getElem?_eq_none (by rwa [length_rows])] at hrow
            cases hrow
          · exact hi
        obtain ⟨e, he⟩ := ih ⟨i, hplaces, hsize⟩ out'
        exact ⟨e, by simp only [hadd]; exact he⟩

theorem plain_permute (l : TupleList) (places : List Nat) :
    (l.permute places).toOption.map plain = l.plain.permute? places := by
  have hrows : l.plain.rows.length = l.size := length_rows l
  rw [PlainList.permute?, hrows]
  by_cases hrange : ∀ i ∈ places, i < l.size
  · have hlength : (places.filterMap fun i => l.rows[i]?).length = places.length := by
      rw [List.filterMap_length_eq_length]
      intro i hi
      rw [List.getElem?_eq_getElem (by rw [length_rows]; exact hrange i hi)]
      rfl
    have hcolumns : ∀ r ∈ places.filterMap fun i => l.rows[i]?, r.length = l.arity := by
      intro r hr
      obtain ⟨i, -, hi⟩ := List.mem_filterMap.1 hr
      exact length_of_mem_rows (List.mem_of_getElem? hi)
    have harity : max l.arity 1 = l.arity := Nat.max_eq_left l.arity_pos
    have hiff : (∃ l', (places.filterMap fun i => l.rows[i]?).foldlM add
        (empty l.arity l.limit) = .ok l') ↔ _ := exists_foldlM_add_empty_iff
    rw [← permute_eq hrange, harity, hlength] at hiff
    by_cases hroom : 0 < l.limit → places.length ≤ l.limit
    · obtain ⟨l', hl'⟩ := hiff.2 ⟨hcolumns, hroom⟩
      obtain ⟨hlegal, harity', hrows'⟩ := foldlM_add_empty ((permute_eq hrange).symm.trans hl')
      rw [hl']
      refine (congrArg some ?_).trans (if_pos ⟨hrange, hroom⟩).symm
      rw [plain, hlegal.limit_eq, harity', harity, hrows']
      rfl
    · rcases hperm : l.permute places with e | l'
      · exact (if_neg fun h => hroom h.2).symm
      · exact absurd (hiff.1 ⟨l', hperm⟩).2 hroom
  · obtain ⟨e, he⟩ : ∃ e, l.permute places = .error e := by
      refine permute_out_of_range ?_
      simpa using hrange
    rw [he]
    exact (if_neg fun h => hrange h.1).symm

/-- A call does to a legal list what it does to the plain list. -/
theorem Legal.call (hl : l.Legal limit) {call : ListCall} (hfits : l.Fits call) :
    (l.call call).Legal limit ∧ (l.call call).plain = l.plain.call call := by
  have hlimit := hl.limit_eq
  cases call with
  | add r =>
    have hplain := hl.plain_add r
    rw [TupleList.call, PlainList.call, ← hplain]
    rcases hadd : l.add r with e | l'
    · exact ⟨hl, rfl⟩
    · exact ⟨(hl.add hadd).1, rfl⟩
  | extend m => exact ⟨(hl.addAll m.rows).1, hl.plain_addAll m.rows⟩
  | truncate count =>
    obtain ⟨hlegal, hrows⟩ := hl.truncate hfits
    refine ⟨hlegal, ?_⟩
    rw [TupleList.call, plain, hrows]
    rfl
  | clear =>
    have hnone : l.CutFits 0 := .inl (by rw [Nat.zero_mul]; decide)
    obtain ⟨hlegal, hrows⟩ := hl.truncate hnone
    refine ⟨hlegal, ?_⟩
    rw [TupleList.call, clear, plain, hrows]
    rfl
  | subList start stop =>
    obtain ⟨hlegal, hrows⟩ := hl.subList start stop
    refine ⟨hlegal, ?_⟩
    rw [TupleList.call, plain, hrows]
    rfl
  | column c =>
    obtain ⟨hlegal, hplain⟩ := hl.column c
    rw [TupleList.call, PlainList.call, ← hplain]
    rcases hcolumn : l.column c with e | l'
    · exact ⟨hl, rfl⟩
    · exact ⟨hlegal l' hcolumn, rfl⟩
  | permute places =>
    rw [TupleList.call, PlainList.call, ← plain_permute]
    rcases hperm : l.permute places with e | l'
    · exact ⟨hl, rfl⟩
    · exact ⟨hlimit ▸ (permute_ok hperm).1, rfl⟩

/-! ## Any calls -/

/-- The list after calls that are made one after the other. -/
def after (l : TupleList) (calls : List ListCall) : TupleList := calls.foldl TupleList.call l

/-- Calls do to a legal list what they do to the plain list. -/
theorem Legal.after (hl : l.Legal limit) {calls : List ListCall} (hfit : l.AllFit calls) :
    (l.after calls).Legal limit ∧ (l.after calls).plain = calls.foldl PlainList.call l.plain := by
  induction calls generalizing l with
  | nil => exact ⟨hl, rfl⟩
  | cons call calls ih =>
    obtain ⟨hfits, hrest⟩ := hfit
    obtain ⟨hlegal, hplain⟩ := hl.call hfits
    rw [List.foldl_cons, ← hplain]
    exact ih hlegal hrest

/-- A list that comes about from an empty one stands for the plain list that comes about in the same way
(module doc). The buffer holds the tuples of that list and nothing else, not more than the limit allows,
and the operations do what they do there. -/
theorem refines_plain {arity limit : Nat} (harity : 0 < arity) {calls : List ListCall}
    (hcalls : (empty arity limit).AllFit calls) :
    let l := (empty arity limit).after calls
    let p := calls.foldl PlainList.call ⟨arity, limit, []⟩
    (l.plain = p ∧ l.limit = limit ∧ l.size = p.rows.length ∧
        l.members.toList = p.rows.flatten ∧ l.members.size = l.arity * l.size ∧
        (0 < limit → l.size ≤ limit)) ∧
      (∀ r, (l.add r).map plain = p.add r) ∧
      (∀ i, l.row? i = p.rows[i]?) ∧
      (∀ count, (l.truncate count).rows = p.rows.take count ↔ l.CutFits count) ∧
      (∀ start stop, (l.subList start stop).rows = (p.rows.take stop).drop start) ∧
      (∀ c, (l.column c).toOption.map plain = p.column? c) ∧
      (∀ places, (l.permute places).toOption.map plain = p.permute? places) ∧
      (∀ n, ((TupleCursor.ofSource (.list l)).after n).current = ([] :: p.rows)[n]?.getD [] ∧
        ((TupleCursor.ofSource (.list l)).after n).forward.1 = decide (n < p.rows.length)) ∧
      ∀ asked, (TupleIterator.ofSource (.list l)).answers asked = answersOf p.rows asked := by
  intro l p
  have hstart : (empty arity limit).plain = ⟨arity, limit, []⟩ := by
    rw [plain, rows_empty]
    exact congrArg (fun arity => PlainList.mk arity limit []) (Nat.max_eq_left harity)
  obtain ⟨hlegal, hplain⟩ := (legal_empty arity limit).after hcalls
  have hp : l.plain = p := by
    rw [hplain, hstart]
  have hrows : l.rows = p.rows := congrArg PlainList.rows hp
  have hsize : l.size = p.rows.length := by rw [← hrows, length_rows]
  refine ⟨⟨hp, hlegal.limit_eq, hsize, ?_, ?_, hlegal.size_le⟩, ?_⟩
  · rw [← hrows, flatten_rows hlegal.whole]
  · rw [Nat.mul_comm]
    exact hlegal.whole
  · rw [← hp]
    refine ⟨hlegal.plain_add, row?_eq l, fun _ => hlegal.truncate_iff, ?_, ?_, plain_permute l, ?_, ?_⟩
    · exact fun start stop => (hlegal.subList start stop).2
    · exact fun c => (hlegal.column c).2
    · intro n
      exact ⟨TupleCursor.current_after (.list l) n, TupleCursor.forward_after (.list l) n⟩
    · exact TupleIterator.answers_ofSource (.list l)

end TupleList

namespace Sample

/-- Two pairs of measures are added, the longest possible list is asked for, and the pairs change
places. -/
def swap : List ListCall :=
  [.add [amount, cost], .add [cost, amount], .truncate 18446744073709551615, .permute [1, 0]]

theorem refines_plain_swap : 0 < 2 ∧ (TupleList.empty 2 3).AllFit swap ∧
    ((TupleList.empty 2 3).after swap).rows = [[cost, amount], [amount, cost]] := by
  have hfit : (TupleList.empty 2 3).AllFit swap := by decide
  obtain ⟨⟨hplain, -⟩, -⟩ := TupleList.refines_plain (by decide) hfit
  exact ⟨by decide, hfit, congrArg PlainList.rows hplain⟩

/-- Half of the longest possible list is as good as none. -/
example : ((TupleList.empty 2 0).after [.add [amount, cost], .truncate (2 ^ 63)]).rows = [] := by
  rfl

end Sample

end Olap
