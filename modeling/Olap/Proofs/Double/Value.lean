import Mathlib.Algebra.Order.Ring.Rat
import Mathlib.Tactic.Linarith
import Mathlib.Tactic.NormNum
import Olap.Double

/-!
# Doubles as numbers

The value of a finite double is a multiple of the least positive one, so doubles are compared as whole
numbers of such units (`Double.signedUnits`). The units grow strictly with the bits of the magnitude
(`Double.units_strictMono`), across the border between subnormal and normal numbers and from one
exponent to the next. Hence the total order of doubles is that of their values, apart from zeros of
different sign (`Double.compareTotal_eq`), of which the negative one comes first (`Double.below_iff`).
-/

set_option autoImplicit false

namespace Olap

namespace Double

/-! ## Values -/

/-- The double stands for a number. -/
def IsFinite (x : Double) : Prop := x.isNaN = false ∧ x.isInfinite = false

/-- The number of units of a magnitude, given by its bits: 52 bits of fraction below 11 bits of
exponent. An exponent of zero stands for subnormal numbers, which have no leading digit. -/
def units (m : Nat) : Nat :=
  if m / 2 ^ 52 = 0 then m % 2 ^ 52 else (2 ^ 52 + m % 2 ^ 52) * 2 ^ (m / 2 ^ 52 - 1)

def signedUnits (x : Double) : Int :=
  if x.isNegative then -units x.magnitude.toNat else units x.magnitude.toNat

/-- The least positive double is two to the power of minus 1074. -/
def unitExponent : Nat := 1074

def unitsPerOne : Nat := 2 ^ unitExponent

/-- The number that a finite double stands for. -/
def value (x : Double) : ℚ := x.signedUnits / unitsPerOne

theorem unitsPerOne_pos : 0 < unitsPerOne := Nat.two_pow_pos unitExponent

/-! ## Units -/

theorem units_lt_succ (m : Nat) : units m < units (m + 1) := by
  unfold units
  by_cases hcarry : m % 2 ^ 52 = 2 ^ 52 - 1
  · -- the fraction is full, so the exponent grows by one and the fraction starts again
    have hexponent : (m + 1) / 2 ^ 52 = m / 2 ^ 52 + 1 := by omega
    have hfraction : (m + 1) % 2 ^ 52 = 0 := by omega
    rw [hexponent, hfraction, if_neg (Nat.succ_ne_zero _), Nat.add_sub_cancel, hcarry]
    by_cases hzero : m / 2 ^ 52 = 0
    · rw [if_pos hzero, hzero]
      omega
    · rw [if_neg hzero]
      have hdouble : 2 ^ (m / 2 ^ 52) = 2 * 2 ^ (m / 2 ^ 52 - 1) := by
        rw [← Nat.pow_succ', Nat.succ_eq_add_one, Nat.sub_add_cancel (Nat.pos_of_ne_zero hzero)]
      have hpos := Nat.two_pow_pos (m / 2 ^ 52 - 1)
      rw [hdouble]
      omega
  · have hexponent : (m + 1) / 2 ^ 52 = m / 2 ^ 52 := by omega
    have hfraction : (m + 1) % 2 ^ 52 = m % 2 ^ 52 + 1 := by omega
    rw [hexponent, hfraction]
    by_cases hzero : m / 2 ^ 52 = 0
    · rw [if_pos hzero, if_pos hzero]
      omega
    · rw [if_neg hzero, if_neg hzero]
      exact Nat.mul_lt_mul_of_pos_right (by omega) (Nat.two_pow_pos _)

theorem units_strictMono : StrictMono units := strictMono_nat_of_lt_succ units_lt_succ

@[simp] theorem units_eq_zero {m : Nat} : units m = 0 ↔ m = 0 := by
  have hzero : units 0 = 0 := rfl
  constructor
  · exact fun h => units_strictMono.injective (h.trans hzero.symm)
  · rintro rfl
    exact hzero

/-! ## Bits -/

theorem magnitude_toNat (x : Double) : x.magnitude.toNat = x.bits.toNat % 2 ^ 63 := by
  rw [magnitude, UInt64.toNat_and]
  exact Nat.and_two_pow_sub_one_eq_mod x.bits.toNat 63

theorem isNegative_iff (x : Double) : x.isNegative = true ↔ 2 ^ 63 ≤ x.bits.toNat := by
  rw [isNegative, bne_iff_ne, Ne, ← UInt64.toNat_inj, magnitude_toNat]
  omega

theorem isFinite_iff (x : Double) : x.IsFinite ↔ x.magnitude.toNat < 2047 * 2 ^ 52 := by
  have hinfinity : infinity.bits.toNat = 2047 * 2 ^ 52 := rfl
  rw [IsFinite, isNaN, isInfinite, decide_eq_false_iff_not, beq_eq_false_iff_ne, Ne,
    ← UInt64.toNat_inj, UInt64.lt_iff_toNat_lt, hinfinity]
  omega

/-- A double is its sign and its magnitude. -/
theorem ext_magnitude {x y : Double} (hsign : x.isNegative = y.isNegative)
    (h : x.magnitude.toNat = y.magnitude.toNat) : x = y := by
  have hsigns : 2 ^ 63 ≤ x.bits.toNat ↔ 2 ^ 63 ≤ y.bits.toNat := by
    rw [← isNegative_iff, ← isNegative_iff, hsign]
  have hxlt := x.bits.toNat_lt
  have hylt := y.bits.toNat_lt
  rw [magnitude_toNat, magnitude_toNat] at h
  have hbits : x.bits = y.bits := by
    rw [← UInt64.toNat_inj]
    omega
  cases x
  cases y
  exact congrArg Double.mk hbits

/-! ## Order -/

/-- The place in the total order, by sign and magnitude. -/
theorem totalKey_eq (x : Double) :
    x.totalKey = if x.isNegative then -1 - (x.magnitude.toNat : Int) else x.magnitude.toNat := by
  have hsign : signBit.toNat = 2 ^ 63 := rfl
  have hlt := x.bits.toNat_lt
  rw [totalKey, hsign, magnitude_toNat]
  by_cases h : x.isNegative = true
  · have hbits := x.isNegative_iff.1 h
    rw [if_pos h, if_neg (by omega)]
    omega
  · have hbits := mt x.isNegative_iff.2 h
    rw [if_neg h, if_pos (by omega)]
    omega

/-- Both are zero, and they differ in sign. -/
def OppositeZeros (x y : Double) : Prop :=
  x.value = 0 ∧ y.value = 0 ∧ x.isNegative ≠ y.isNegative

theorem signedUnits_eq_zero {x : Double} : x.signedUnits = 0 ↔ x.magnitude.toNat = 0 := by
  unfold signedUnits
  split
  · rw [Int.neg_eq_zero, Int.natCast_eq_zero, units_eq_zero]
  · rw [Int.natCast_eq_zero, units_eq_zero]

theorem value_lt_iff {x y : Double} : x.value < y.value ↔ x.signedUnits < y.signedUnits := by
  have hpos : (0 : ℚ) < unitsPerOne := Nat.cast_pos.2 unitsPerOne_pos
  rw [value, value, div_lt_div_iff_of_pos_right hpos, Int.cast_lt]

theorem value_eq_zero {x : Double} : x.value = 0 ↔ x.signedUnits = 0 := by
  have hne : (unitsPerOne : ℚ) ≠ 0 := Nat.cast_ne_zero.2 unitsPerOne_pos.ne'
  rw [value, div_eq_zero_iff, Int.cast_eq_zero, or_iff_left hne]

theorem signedUnits_lt_of_totalKey_lt {x y : Double} (hzeros : ¬ OppositeZeros x y)
    (h : x.totalKey < y.totalKey) : x.signedUnits < y.signedUnits := by
  rw [OppositeZeros, value_eq_zero, value_eq_zero, signedUnits_eq_zero, signedUnits_eq_zero] at hzeros
  rw [totalKey_eq, totalKey_eq] at h
  unfold signedUnits
  have hx : units x.magnitude.toNat = 0 ↔ x.magnitude.toNat = 0 := units_eq_zero
  have hy : units y.magnitude.toNat = 0 ↔ y.magnitude.toNat = 0 := units_eq_zero
  cases hxsign : x.isNegative <;> cases hysign : y.isNegative <;>
    simp only [hxsign, hysign, Bool.false_eq_true, if_true, if_false] at h hzeros ⊢
  · have := units_strictMono (show x.magnitude.toNat < y.magnitude.toNat by omega)
    omega
  · omega
  · simp only [ne_eq, reduceCtorEq, not_false_eq_true, and_true] at hzeros
    omega
  · have := units_strictMono (show y.magnitude.toNat < x.magnitude.toNat by omega)
    omega

theorem eq_of_totalKey_eq {x y : Double} (h : x.totalKey = y.totalKey) : x = y := by
  rw [totalKey_eq, totalKey_eq] at h
  cases hx : x.isNegative <;> cases hy : y.isNegative <;>
    simp only [hx, hy, Bool.false_eq_true, if_true, if_false] at h
  · exact ext_magnitude (hx.trans hy.symm) (by omega)
  · omega
  · omega
  · exact ext_magnitude (hx.trans hy.symm) (by omega)

/-- Doubles are in the total order as their values are, unless they are zeros of different sign. -/
theorem compareTotal_eq {x y : Double} (hzeros : ¬ OppositeZeros x y) :
    compareTotal x y = compare x.value y.value := by
  unfold compareTotal
  rcases lt_trichotomy x.totalKey y.totalKey with h | h | h
  · rw [compare_lt_iff_lt.2 h, compare_lt_iff_lt.2 (value_lt_iff.2
      (signedUnits_lt_of_totalKey_lt hzeros h))]
  · rw [eq_of_totalKey_eq h, compare_eq_iff_eq.2 rfl, compare_eq_iff_eq.2 rfl]
  · have hzeros' : ¬ OppositeZeros y x := fun ⟨hy, hx, hsign⟩ => hzeros ⟨hx, hy, hsign.symm⟩
    rw [compare_gt_iff_gt.2 h, compare_gt_iff_gt.2 (value_lt_iff.2
      (signedUnits_lt_of_totalKey_lt hzeros' h))]

/-- The smaller of two numbers, or the negative one of two zeros. An infinity counts as the number that
would follow the largest one, and what is no number as a number beyond. -/
def Below (x y : Double) : Prop :=
  x.value < y.value ∨ x.value = y.value ∧ x.isNegative = true ∧ y.isNegative = false

/-- The total order is that of the numbers, with negative zero just before zero. -/
theorem below_iff {x y : Double} : x.Below y ↔ compareTotal x y = .lt := by
  by_cases hzeros : OppositeZeros x y
  · obtain ⟨hx, hy, hsign⟩ := hzeros
    have hxzero := signedUnits_eq_zero.1 (value_eq_zero.1 hx)
    have hyzero := signedUnits_eq_zero.1 (value_eq_zero.1 hy)
    rw [Below, hx, hy, compareTotal, compare_lt_iff_lt, totalKey_eq, totalKey_eq, hxzero, hyzero]
    cases hxsign : x.isNegative <;> cases hysign : y.isNegative <;> simp_all
  · rw [Below, compareTotal_eq hzeros, compare_lt_iff_lt]
    refine or_iff_left fun ⟨hvalue, hx, hy⟩ => ?_
    have hkeys : compareTotal x y = .eq := by
      rw [compareTotal_eq hzeros]
      exact compare_eq_iff_eq.2 hvalue
    have hsame : x = y := eq_of_totalKey_eq (compare_eq_iff_eq.1 hkeys)
    rw [hsame, hy] at hx
    cases hx

end Double

end Olap
