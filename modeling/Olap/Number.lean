/-!
# Whole numbers

Whole numbers are exact or refused: an operation on 64-bit integers gives the mathematical result,
or nothing where that result does not fit.
-/

set_option autoImplicit false

namespace Olap

/-- The 64-bit integer of a given value, if there is one. -/
def int64? (n : Int) : Option Int64 :=
  if Int64.minValue.toInt ≤ n ∧ n ≤ Int64.maxValue.toInt then some (Int64.ofInt n) else none

theorem toInt_of_int64? {n : Int} {i : Int64} (h : int64? n = some i) : i.toInt = n := by
  unfold int64? at h
  split at h
  case isTrue inRange =>
    rw [Int64.toInt_minValue, Int64.toInt_maxValue] at inRange
    obtain rfl := Option.some.inj h
    exact Int64.toInt_ofInt_of_le inRange.1 (by omega)
  case isFalse => simp at h

end Olap
