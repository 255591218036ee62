import Olap.Proofs.Tuple.Rows
import Olap.Tuple.Cursor

/-!
# Cursors and iterators go through the rows

A fresh cursor visits the tuples of its source one after the other and stands on none before and behind
them (`TupleCursor.current_after`, `TupleCursor.forward_after`). However it is asked, an iterator answers
like the list of the tuples (`TupleIterator.answers_ofSource`). Two sources are found to hold the same
tuples if and only if they do (`TupleSource.sameRows_iff`).
-/

set_option autoImplicit false

namespace Olap

/-! ## Cursors -/

namespace TupleCursor

/-- The cursor after several moves. -/
def after (c : TupleCursor) : Nat → TupleCursor
  | 0 => c
  | n + 1 => (c.after n).forward.2

variable (s : TupleSource)

@[simp] theorem source_after (c : TupleCursor) (n : Nat) : (c.after n).source = c.source := by
  induction n with
  | zero => rfl
  | succ n ih => exact ih

theorem stands_after (n : Nat) :
    s.Stands ((ofSource s).after n).state (([] :: s.rows)[n]?.getD []) (s.rows.drop n) := by
  induction n with
  | zero => exact s.stands_fresh
  | succ n ih =>
    have hmoved := ih.forward
    have hstate : ((ofSource s).after (n + 1)).state =
        (s.forward ((ofSource s).after n).state).2 := by
      show (((ofSource s).after n).source.forward _).2 = _
      rw [source_after]
      rfl
    rw [hstate, List.getElem?_cons_succ]
    rcases Nat.lt_or_ge n s.rows.length with hn | hn
    · rw [List.drop_eq_getElem_cons hn] at hmoved
      rw [List.getElem?_eq_getElem hn]
      exact hmoved.2
    · rw [List.drop_eq_nil_of_le hn] at hmoved
      rw [List.getElem?_eq_none hn, List.drop_eq_nil_of_le (Nat.le_succ_of_le hn)]
      exact hmoved.2

/-- Before the first move and behind the last tuple a cursor stands on none. -/
theorem current_after (n : Nat) :
    ((ofSource s).after n).current = ([] :: s.rows)[n]?.getD [] := by
  rw [current, source_after]
  exact (stands_after s n).current

/-- A cursor moves on as long as there are tuples. -/
theorem forward_after (n : Nat) :
    ((ofSource s).after n).forward.1 = decide (n < s.rows.length) := by
  have hmoved := (stands_after s n).forward
  have hfound : ((ofSource s).after n).forward.1 =
      (s.forward ((ofSource s).after n).state).1 := by
    show (((ofSource s).after n).source.forward _).1 = _
    rw [source_after]
    rfl
  rw [hfound]
  rcases Nat.lt_or_ge n s.rows.length with hn | hn
  · rw [List.drop_eq_getElem_cons hn] at hmoved
    rw [decide_eq_true hn]
    exact hmoved.1
  · rw [List.drop_eq_nil_of_le hn] at hmoved
    rw [decide_eq_false (Nat.not_lt.2 hn)]
    exact hmoved.1

end TupleCursor

/-! ## Iterators -/

/-- What an iterator is asked. -/
inductive IteratorCall where
  | hasNext
  | next

inductive IteratorAnswer where
  | found (another : Bool)
  | tuple (row : Option Row)
  deriving Repr

/-- What a list of tuples answers to calls: whether there are more, and the first of them, which it
hands out. -/
def answersOf : List Row → List IteratorCall → List IteratorAnswer
  | _, [] => []
  | rows, .hasNext :: calls => .found (!rows.isEmpty) :: answersOf rows calls
  | rows, .next :: calls => .tuple rows.head? :: answersOf rows.tail calls

namespace TupleIterator

def answer (i : TupleIterator) : IteratorCall → IteratorAnswer × TupleIterator
  | .hasNext => (.found i.hasNext.1, i.hasNext.2)
  | .next => (.tuple i.next.1, i.next.2)

def answers (i : TupleIterator) : List IteratorCall → List IteratorAnswer
  | [] => []
  | call :: calls => (i.answer call).1 :: (i.answer call).2.answers calls

/-- The iterator has the tuples `rest` of its source still to hand out: its cursor has them ahead, or
has been moved to the first of them. -/
def Ready (i : TupleIterator) (rest : List Row) : Prop :=
  match i.peeked with
  | none => ∃ r, i.cursor.source.Stands i.cursor.state r rest
  | some found => i.cursor.source.Moved (found, i.cursor.state) rest

variable {i : TupleIterator} {rest : List Row}

/-- After it was asked whether there is another tuple the cursor has been moved. -/
theorem Ready.hasNext (h : i.Ready rest) :
    i.hasNext.2.peeked = some i.hasNext.1 ∧ i.hasNext.2.Ready rest := by
  obtain ⟨⟨s, state⟩, _ | found⟩ := i
  · obtain ⟨r, hr⟩ := h
    exact ⟨rfl, hr.forward⟩
  · exact ⟨rfl, h⟩

theorem Ready.found (h : i.Ready rest) : i.hasNext.1 = !rest.isEmpty := by
  obtain ⟨hpeeked, hready⟩ := h.hasNext
  rw [Ready, hpeeked] at hready
  cases rest with
  | nil => exact hready.1
  | cons r rest => exact hready.1

theorem Ready.next (h : i.Ready rest) : i.next.1 = rest.head? ∧ i.next.2.Ready rest.tail := by
  have hfound := h.found
  obtain ⟨hpeeked, hready⟩ := h.hasNext
  rw [Ready, hpeeked] at hready
  have hrow : i.next.1 = if i.hasNext.1 then some i.hasNext.2.cursor.current else none := rfl
  cases rest with
  | nil =>
    rw [hrow, hfound]
    exact ⟨rfl, [], hready.2⟩
  | cons r rest =>
    rw [hrow, hfound]
    exact ⟨congrArg some hready.2.current, r, hready.2⟩

theorem Ready.answers (h : i.Ready rest) (calls : List IteratorCall) :
    i.answers calls = answersOf rest calls := by
  induction calls generalizing i rest with
  | nil => rfl
  | cons call calls ih =>
    cases call with
    | hasNext =>
      rw [TupleIterator.answers, answersOf, answer, h.found, ih h.hasNext.2]
    | next =>
      obtain ⟨hrow, hnext⟩ := h.next
      rw [TupleIterator.answers, answersOf, answer, hrow, ih hnext]

/-- However it is asked, an iterator answers like the list of the tuples. -/
theorem answers_ofSource (s : TupleSource) (calls : List IteratorCall) :
    (ofSource s).answers calls = answersOf s.rows calls := by
  have hready : (ofSource s).Ready s.rows := ⟨[], s.stands_fresh⟩
  exact hready.answers calls

end TupleIterator

/-! ## Equal sequences -/

namespace TupleSource

variable {s t : TupleSource}

theorem Stands.sameAhead {c d : CursorState} {r q : Row} {rest others : List Row} {moves : Nat}
    (hs : s.Stands c r rest) (ht : t.Stands d q others) (hmoves : rest.length < moves) :
    s.sameAhead t moves c d = (rest == others) := by
  induction moves generalizing c d r q rest others with
  | zero => omega
  | succ moves ih =>
    have hleft := hs.forward
    have hright := ht.forward
    rw [TupleSource.sameAhead]
    rcases hc : s.forward c with ⟨found, c'⟩
    rcases hd : t.forward d with ⟨found', d'⟩
    rw [hc] at hleft
    rw [hd] at hright
    rcases rest with _ | ⟨p, rest⟩ <;> rcases others with _ | ⟨p', others⟩
    all_goals
      obtain ⟨rfl, hleft⟩ := hleft
      obtain ⟨rfl, hright⟩ := hright
    · rfl
    · rfl
    · rfl
    · rw [List.length_cons] at hmoves
      dsimp only
      rw [hleft.current, hright.current, ih hleft hright (by omega)]
      rfl

/-- Sources are found to hold the same tuples if they have the same number of columns and equal
tuples in the same order. -/
theorem sameRows_iff : s.sameRows t = true ↔ s.arity = t.arity ∧ (s.rows == t.rows) = true := by
  have hmoves : s.rows.length < s.size + 1 := by
    rw [length_rows]
    exact Nat.lt_succ_self _
  rw [sameRows, s.stands_fresh.sameAhead t.stands_fresh hmoves, Bool.and_eq_true, beq_iff_eq]

end TupleSource

end Olap
