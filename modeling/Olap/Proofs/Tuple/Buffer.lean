import Olap.Proofs.Outcomes
import Olap.Tuple.List

/-!
# Tuples side by side

A buffer that holds whole tuples only stays one when a tuple is added, and its tuples are then those
from before and the new one (`TupleList.rows_add`). It is made up of its tuples
(`TupleList.flatten_rows`), and a buffer that is made up of tuples holds these
(`TupleList.whole_of_flatten`); so cutting it between two tuples is cutting the list of the tuples.
-/

set_option autoImplicit false

namespace Olap

namespace TupleList

variable {l l' : TupleList} {r : Row}

def Whole (l : TupleList) : Prop := l.members.size = l.size * l.arity

theorem whole_empty (arity limit : Nat) : (empty arity limit).Whole := by
  simp [Whole, size, empty]

theorem row_eq (l : TupleList) (i : Nat) :
    l.row i = (l.members.toList.drop (i * l.arity)).take l.arity := by
  rw [row, Array.toList_extract, List.extract_eq_take_drop, Nat.add_sub_cancel_left]

theorem add_eq_ok (h : l.add r = .ok l') :
    r.length = l.arity ∧ l' = { l with members := l.members.appendList r } := by
  unfold add at h
  split at h
  · cases h
  · rename_i hlen
    obtain ⟨⟨⟩, -, h⟩ := bind_eq_ok.1 h
    cases h
    exact ⟨Decidable.not_not.1 hlen, rfl⟩

theorem rows_add (hl : l.Whole) (h : l.add r = .ok l') : l'.Whole ∧ l'.rows = l.rows ++ [r] := by
  obtain ⟨hr, rfl⟩ := add_eq_ok h
  have hpos := l.arity_pos
  have hlength : l.members.toList.length = l.size * l.arity := by
    rw [Array.length_toList]
    exact hl
  have hsize : (l.members.appendList r).size = (l.size + 1) * l.arity := by
    rw [Array.appendList_eq_append, ← Array.length_toList, Array.toList_appendList, List.length_append,
      hlength, hr, Nat.add_one_mul]
  have hcount : size { l with members := l.members.appendList r } = l.size + 1 := by
    rw [size, hsize, Nat.mul_div_cancel _ hpos]
  refine ⟨?_, ?_⟩
  · rw [Whole, hcount]
    exact hsize
  · rw [rows, hcount, List.range_succ, List.map_append, List.map_singleton, rows]
    congr 1
    · refine List.map_congr_left fun i hi => ?_
      have hlt : i < l.size := List.mem_range.1 hi
      have hend : (i + 1) * l.arity ≤ l.size * l.arity := Nat.mul_le_mul_right _ hlt
      rw [Nat.add_one_mul] at hend
      rw [row_eq, row_eq, Array.appendList_eq_append, Array.toList_appendList]
      dsimp only
      rw [List.drop_append_of_le_length (by omega),
        List.take_append_of_le_length (by rw [List.length_drop]; omega)]
    · rw [row_eq, Array.appendList_eq_append, Array.toList_appendList, ← hlength, List.drop_left, ← hr,
        List.take_length]

/-! ## The buffer and its tuples -/

/-- The buffer is made up of the tuples of the list. -/
theorem flatten_rows (hl : l.Whole) : l.rows.flatten = l.members.toList := by
  have hlength : l.members.toList.length = l.size * l.arity := by
    rw [Array.length_toList]
    exact hl
  have hpart (n : Nat) :
      ((List.range n).map l.row).flatten = l.members.toList.take (n * l.arity) := by
    induction n with
    | zero => simp
    | succ n ih =>
      rw [List.range_succ, List.map_append, List.flatten_append, ih, List.map_singleton,
        List.flatten_singleton, row_eq, Nat.add_one_mul, List.take_add]
  rw [rows, hpart, ← hlength, List.take_length]

section
variable {arity : Nat} {rs : List Row} (hrs : ∀ r ∈ rs, r.length = arity)
include hrs

theorem length_flatten : rs.flatten.length = rs.length * arity := by
  induction rs with
  | nil => simp
  | cons r rs ih =>
    obtain ⟨hr, hrs⟩ := List.forall_mem_cons.1 hrs
    rw [List.flatten_cons, List.length_append, hr, ih hrs, List.length_cons, Nat.add_one_mul,
      Nat.add_comm]

theorem take_flatten (n : Nat) : rs.flatten.take (n * arity) = (rs.take n).flatten := by
  induction rs generalizing n with
  | nil => simp
  | cons r rs ih =>
    obtain ⟨hr, hrs⟩ := List.forall_mem_cons.1 hrs
    cases n with
    | zero => simp
    | succ n =>
      rw [List.flatten_cons, List.take_succ_cons, List.flatten_cons, ← ih hrs n, Nat.add_one_mul,
        Nat.add_comm, ← hr, List.take_length_add_append]

theorem drop_flatten (n : Nat) : rs.flatten.drop (n * arity) = (rs.drop n).flatten := by
  induction rs generalizing n with
  | nil => simp
  | cons r rs ih =>
    obtain ⟨hr, hrs⟩ := List.forall_mem_cons.1 hrs
    cases n with
    | zero => simp
    | succ n =>
      rw [List.flatten_cons, List.drop_succ_cons, ← ih hrs n, Nat.add_one_mul, Nat.add_comm, ← hr,
        List.drop_length_add_append]

end

/-- A buffer that is made up of tuples with the columns of the list holds just these. -/
theorem whole_of_flatten {rs : List Row} (hrs : ∀ r ∈ rs, r.length = l.arity)
    (h : l.members.toList = rs.flatten) : l.Whole ∧ l.rows = rs := by
  have hlength : l.members.size = rs.length * l.arity := by
    rw [← Array.length_toList, h, length_flatten hrs]
  have hsize : l.size = rs.length := by
    rw [size, hlength, Nat.mul_div_cancel _ l.arity_pos]
  refine ⟨by rw [Whole, hsize, hlength], ?_⟩
  refine List.ext_getElem (by rw [length_rows, hsize]) fun i hi hi' => ?_
  have hrest : ∀ r ∈ rs.drop i, r.length = l.arity := fun r hr => hrs r (List.mem_of_mem_drop hr)
  have hrow := take_flatten hrest 1
  rw [Nat.one_mul] at hrow
  simp only [rows, List.getElem_map, List.getElem_range]
  rw [row_eq, h, drop_flatten hrs, hrow, List.drop_eq_getElem_cons hi', List.take_succ_cons,
    List.take_zero, List.flatten_singleton]

end TupleList

end Olap
