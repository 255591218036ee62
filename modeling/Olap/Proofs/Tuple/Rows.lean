import Olap.Tuple.Source

/-!
# Walks visit all tuples

`TupleSource.Stands s c r rest`: a walk along the source `s` that has come as far as `c` stands on the
tuple `r` and has the tuples `rest` ahead of it. A fresh walk has all of `TupleSource.rows` ahead
(`TupleSource.stands_fresh`), and a move leads on to the first tuple that is ahead, or stays behind the
last one (`TupleSource.Stands.forward`). So a fold over a source is a fold over its list of tuples
(`TupleSource.foldM_eq_foldlM_rows`).
-/

set_option autoImplicit false

namespace Olap

namespace TupleSource

theorem length_rows (s : TupleSource) : s.rows.length = s.size := by
  induction s with
  | list l => simp [rows, size]
  | cross s t hs ht =>
    rw [rows, size, List.length_flatMap]
    simp only [List.length_map, ht, List.map_const', List.sum_replicate_nat, hs]
  | slice s c hs => simpa [rows, size] using hs

/-! ## What a walk has ahead of it -/

/-- Every tuple on the left followed by every tuple on the right. -/
def pairs (ps qs : List Row) : List Row := ps.flatMap fun p => qs.map (p ++ ·)

theorem pairs_nil_right (ps : List Row) : pairs ps [] = [] := by
  simp [pairs]

theorem length_pairs (ps qs : List Row) : (pairs ps qs).length = ps.length * qs.length := by
  rw [pairs, List.length_flatMap]
  simp only [List.length_map, List.map_const', List.sum_replicate_nat]

/-- Where a walk stands, and what it has ahead of it (module doc). -/
inductive Stands : TupleSource → CursorState → Row → List Row → Prop
  | list {l : TupleList} {next : Nat} {place : Option Nat} :
      Stands (list l) (.list next place) (place.elim [] l.row) (l.rows.drop next)
  /-- The right source is started anew after the next move on the left. -/
  | between {s t : TupleSource} {left : CursorState} {p row : Row} {ps : List Row}
      (hl : Stands s left p ps) : Stands (cross s t) (.cross left none row) row (pairs ps t.rows)
  | along {s t : TupleSource} {left right : CursorState} {p q row : Row} {ps qs : List Row}
      (hl : Stands s left p ps) (hps : ps.length < s.size) (hr : Stands t right q qs) :
      Stands (cross s t) (.cross left (some right) row) row (qs.map (p ++ ·) ++ pairs ps t.rows)
  | slice {s : TupleSource} {inner : CursorState} {p : Row} {ps : List Row} {c : Nat}
      (h : Stands s inner p ps) :
      Stands (slice s c) (.slice inner) p[c]?.toList (ps.map fun p => p[c]?.toList)

theorem stands_fresh (s : TupleSource) : s.Stands s.fresh [] s.rows := by
  induction s with
  | list l => exact .list
  | cross s t hs _ => exact .between hs
  | slice s c hs => exact .slice hs

namespace Stands

variable {s t : TupleSource} {c : CursorState} {r : Row} {rest : List Row}

theorem current (h : s.Stands c r rest) : s.current c = r := by
  induction h with
  | list => rfl
  | between => rfl
  | along => rfl
  | slice _ ih => rw [TupleSource.current, ih]

theorem length_le (h : s.Stands c r rest) : rest.length ≤ s.size := by
  induction h with
  | @list l next place =>
    rw [List.length_drop, TupleList.length_rows]
    exact Nat.sub_le _ _
  | @between s t left p row ps _ ih =>
    rw [length_pairs, length_rows]
    exact Nat.mul_le_mul_right _ ih
  | @along s t left right p q row ps qs _ hps _ _ ihr =>
    rw [List.length_append, List.length_map, length_pairs, length_rows]
    calc qs.length + ps.length * t.size
        ≤ t.size + ps.length * t.size := Nat.add_le_add_right ihr _
      _ = (ps.length + 1) * t.size := by rw [Nat.succ_mul, Nat.add_comm]
      _ ≤ s.size * t.size := Nat.mul_le_mul_right _ hps
  | slice _ ih =>
    rw [List.length_map]
    exact ih

theorem joined {left right : CursorState} {p q : Row} {ps qs : List Row} (hl : s.Stands left p ps)
    (hps : ps.length < s.size) (hr : t.Stands right q qs) :
    (cross s t).Stands (.cross left (some right) (s.current left ++ t.current right)) (p ++ q)
      (qs.map (p ++ ·) ++ pairs ps t.rows) := by
  rw [hl.current, hr.current]
  exact .along hl hps hr

end Stands

/-! ## Moves -/

/-- What a move gives with these tuples ahead: the first of them becomes the current one, if there is
one. -/
def Moved (s : TupleSource) (o : Bool × CursorState) : List Row → Prop
  | [] => o.1 = false ∧ s.Stands o.2 [] []
  | r :: rest => o.1 = true ∧ s.Stands o.2 r rest

section
variable {s t : TupleSource}

theorem Moved.slice {c : Nat} {inner : CursorState} {ps : List Row}
    (h : s.Moved (s.forward inner) ps) :
    (slice s c).Moved ((slice s c).forward (.slice inner)) (ps.map fun p => p[c]?.toList) := by
  cases ps with
  | nil => exact ⟨h.1, .slice h.2⟩
  | cons p ps => exact ⟨h.1, .slice h.2⟩

theorem moved_list {l : TupleList} (next : Nat) (place : Option Nat) :
    (list l).Moved ((list l).forward (.list next place)) (l.rows.drop next) := by
  rw [forward]
  by_cases h : next < l.size
  · have hlength : next < l.rows.length := by rwa [TupleList.length_rows]
    have hrow : l.rows[next] = l.row next := by simp [TupleList.rows]
    rw [if_pos h, List.drop_eq_getElem_cons hlength, hrow]
    exact ⟨rfl, .list⟩
  · have hend : l.rows.drop next = [] := by
      rw [List.drop_eq_nil_iff, TupleList.length_rows]
      exact Nat.not_lt.1 h
    have hstands : (list l).Stands (.list next none) [] (l.rows.drop next) := .list
    rw [if_neg h, hend]
    rw [hend] at hstands
    exact ⟨rfl, hstands⟩

/-- With enough moves on the left, the walk along a join finds the next pair if there is one. -/
theorem moved_advance {left : CursorState} {p : Row} {ps : List Row} {moves : Nat}
    (hs : ∀ c r rest, s.Stands c r rest → s.Moved (s.forward c) rest)
    (ht : t.Moved (t.forward t.fresh) t.rows) (hl : s.Stands left p ps) (hmoves : ps.length < moves) :
    (cross s t).Moved
      (advance s.forward (t.forward t.fresh) (fun left right => s.current left ++ t.current right)
        moves left)
      (pairs ps t.rows) := by
  induction moves generalizing left p ps with
  | zero => omega
  | succ moves ih =>
    have hmoved := hs left p ps hl
    have hle := hl.length_le
    rw [advance]
    rcases hleft : s.forward left with ⟨found, left'⟩
    rw [hleft] at hmoved
    rcases ps with _ | ⟨p', ps⟩
    · -- the left source is at its end
      obtain ⟨rfl, hstands⟩ := hmoved
      exact ⟨rfl, .between hstands⟩
    · obtain ⟨rfl, hstands⟩ := hmoved
      rw [List.length_cons] at hle hmoves
      rcases hanew : t.forward t.fresh with ⟨started, right⟩
      rw [hanew] at ht ih
      rcases hrows : t.rows with _ | ⟨q, qs⟩
      · -- nothing on the right: on to the next tuple on the left
        rw [hrows] at ht
        obtain ⟨rfl, -⟩ := ht
        have hrest := ih hstands (by omega)
        rw [hrows, pairs_nil_right] at hrest
        rw [pairs_nil_right]
        exact hrest
      · rw [hrows] at ht
        obtain ⟨rfl, hright⟩ := ht
        have hjoined := hstands.joined hle hright
        rw [hrows] at hjoined
        exact ⟨rfl, hjoined⟩

end

/-- A move leads on to the first tuple that is ahead, or stays behind the last one. -/
theorem Stands.forward {s : TupleSource} {c : CursorState} {r : Row} {rest : List Row}
    (h : s.Stands c r rest) : s.Moved (s.forward c) rest := by
  induction s generalizing c r rest with
  | list l =>
    cases h with
    | list => exact moved_list _ _
  | slice s k ih =>
    cases h with
    | slice h => exact (ih h).slice
  | cross s t hs ht =>
    have hanew := ht t.stands_fresh
    cases h with
    | @between _ _ left p _ ps hl =>
      rw [TupleSource.forward]
      exact moved_advance (fun _ _ _ => hs) hanew hl (Nat.lt_succ_of_le hl.length_le)
    | @along _ _ left right p q _ ps qs hl hps hr =>
      have hmoved := ht hr
      rw [TupleSource.forward, Option.map_some]
      rcases hright : t.forward right with ⟨found, right'⟩
      rw [hright] at hmoved
      rcases qs with _ | ⟨q', qs⟩
      · obtain ⟨rfl, -⟩ := hmoved
        exact moved_advance (fun _ _ _ => hs) hanew hl (Nat.lt_succ_of_le hl.length_le)
      · obtain ⟨rfl, hstands⟩ := hmoved
        exact ⟨rfl, hl.joined hps hstands⟩

/-! ## Folds -/

section
variable {m : Type → Type} [Monad m] {β : Type}

theorem Stands.foldFrom {s : TupleSource} {c : CursorState} {r : Row} {rest : List Row}
    (h : s.Stands c r rest) (f : β → Row → m β) {n : Nat} (hn : rest.length ≤ n) (b : β) :
    s.foldFrom f n c b = rest.foldlM f b := by
  induction n generalizing c r rest b with
  | zero =>
    rw [List.length_eq_zero_iff.1 (Nat.le_zero.1 hn)]
    rfl
  | succ n ih =>
    have hmoved := h.forward
    rw [TupleSource.foldFrom]
    rcases hc : s.forward c with ⟨found, c'⟩
    rw [hc] at hmoved
    rcases rest with _ | ⟨q, rest⟩
    · obtain ⟨rfl, -⟩ := hmoved
      rfl
    · obtain ⟨rfl, hstands⟩ := hmoved
      rw [List.foldlM_cons]
      dsimp only
      rw [hstands.current]
      congr 1
      funext b
      exact ih hstands (by simpa using hn) b

/-- A fold over a source is a fold over the list of its tuples. -/
theorem foldM_eq_foldlM_rows (s : TupleSource) (f : β → Row → m β) (b : β) :
    s.foldM f b = s.rows.foldlM f b := by
  rw [foldM]
  exact s.stands_fresh.foldFrom f (Nat.le_of_eq s.length_rows) b

end

end TupleSource

end Olap
