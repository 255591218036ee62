import Mathlib.Algebra.Order.Ring.Abs
import Olap.Proofs.Double.Value

/-!
# The nearest double

A 64-bit integer is widened to the double nearest to it, and half-way between two doubles to the one
with even bits (`Double.ofInt64_nearest`). The doubles from a power of two on are multiples of the unit
in which the significand is rounded (`Double.dvd_units`), and those below are further away than the
power itself. Rounding keeps order (`Double.Nearest.le_of_lt`) and numbers that are doubles
(`Double.ofInt64_exact`).
-/

set_option autoImplicit false

namespace Olap

namespace Double

/-- How far two whole numbers are apart. -/
def gap (a b : Int) : Nat := (a - b).natAbs

theorem gap_mul (a b c : Nat) : gap (a * c : Nat) (b * c : Nat) = gap a b * c := by
  rw [gap, gap, Int.natCast_mul, Int.natCast_mul, ← Int.sub_mul, Int.natAbs_mul, Int.natAbs_natCast]

theorem gap_lt_of_lt_le {a b c : Nat} (h : a < b) (h' : b ≤ c) : gap b c < gap a c := by
  unfold gap
  omega

theorem gap_le_add (a b : Nat) : gap a b ≤ a + b := by
  unfold gap
  omega

theorem gap_lt_add {a b : Nat} (ha : 0 < a) (hb : 0 < b) : gap a b < a + b := by
  unfold gap
  omega

/-! ## Rounding to multiples of a power of two -/

theorem roundedShift_cases (n k : Nat) :
    roundedShift n k = n / 2 ^ k ∧
        (2 * (n % 2 ^ k) < 2 ^ k ∨ 2 * (n % 2 ^ k) = 2 ^ k ∧ n / 2 ^ k % 2 = 0) ∨
      roundedShift n k = n / 2 ^ k + 1 ∧
        (2 ^ k < 2 * (n % 2 ^ k) ∨ 2 * (n % 2 ^ k) = 2 ^ k ∧ n / 2 ^ k % 2 = 1) := by
  unfold roundedShift
  dsimp only [Nat.pow_eq]
  split <;> rename_i h <;>
    simp only [Bool.or_eq_true, Bool.and_eq_true, decide_eq_true_eq, beq_iff_eq] at h
  · exact .inl ⟨rfl, h⟩
  · exact .inr ⟨rfl, by omega⟩

/-- The rounded quotient is nearer than any other number, or as near and even. -/
theorem roundedShift_nearest (n k j : Nat) :
    j = roundedShift n k ∨
      gap (roundedShift n k * 2 ^ k : Nat) n < gap (j * 2 ^ k : Nat) n ∨
      gap (roundedShift n k * 2 ^ k : Nat) n = gap (j * 2 ^ k : Nat) n ∧ roundedShift n k % 2 = 0 := by
  have hsplit := Nat.div_add_mod' n (2 ^ k)
  have hrest := Nat.mod_lt n (Nat.two_pow_pos k)
  have hcases := roundedShift_cases n k
  unfold gap
  generalize roundedShift n k = rounded at *
  generalize n / 2 ^ k = q at *
  generalize n % 2 ^ k = r at *
  generalize 2 ^ k = p at *
  have hnext : (q + 1) * p = q * p + p := Nat.succ_mul q p
  rcases Nat.lt_trichotomy j q with hj | rfl | hj
  · have hle : (j + 1) * p ≤ q * p := Nat.mul_le_mul_right p hj
    rw [Nat.succ_mul] at hle
    rcases hcases with ⟨rfl, hround⟩ | ⟨rfl, hround⟩ <;> omega
  · rcases hcases with ⟨rfl, hround⟩ | ⟨rfl, hround⟩ <;> omega
  · by_cases hj' : j = q + 1
    · subst hj'
      rcases hcases with ⟨rfl, hround⟩ | ⟨rfl, hround⟩ <;> omega
    · have hle : (q + 2) * p ≤ j * p := Nat.mul_le_mul_right p (by omega)
      rw [Nat.succ_mul] at hle
      rcases hcases with ⟨rfl, hround⟩ | ⟨rfl, hround⟩ <;> omega

/-! ## Natural numbers -/

section
variable {n : Nat} (hn : n ≠ 0)
include hn

theorem significand_bounds : 2 ^ 52 ≤ significand n ∧ significand n ≤ 2 ^ 53 := by
  have hlow := Nat.log2_self_le hn
  have hhigh := Nat.lt_log2_self (n := n)
  unfold significand
  dsimp only [Nat.pow_eq]
  by_cases htop : n.log2 ≤ 52
  · have hpow : 2 ^ n.log2 * 2 ^ (52 - n.log2) = 2 ^ 52 := by
      rw [← Nat.pow_add, Nat.add_sub_cancel' htop]
    have hpow' : 2 ^ (n.log2 + 1) * 2 ^ (52 - n.log2) = 2 ^ 53 := by
      rw [← Nat.pow_add]
      congr 1
      omega
    rw [if_pos htop, ← hpow, ← hpow']
    exact ⟨Nat.mul_le_mul_right _ hlow, Nat.mul_le_mul_right _ hhigh.le⟩
  · obtain ⟨k, hk⟩ : ∃ k, n.log2 = 52 + k := ⟨n.log2 - 52, by omega⟩
    rw [if_neg htop, hk, Nat.add_sub_cancel_left]
    rw [hk, Nat.pow_add] at hlow
    rw [hk, show 52 + k + 1 = 53 + k by omega, Nat.pow_add] at hhigh
    have hle : 2 ^ 52 ≤ n / 2 ^ k := (Nat.le_div_iff_mul_le (Nat.two_pow_pos k)).2 hlow
    have hlt : n / 2 ^ k < 2 ^ 53 := (Nat.div_lt_iff_lt_mul (Nat.two_pow_pos k)).2 hhigh
    have := roundedShift_cases n k
    omega

theorem natBits_eq : natBits n = (n.log2 + 1022) * 2 ^ 52 + significand n := by
  rw [natBits, if_neg hn, Nat.pow_eq]

/-- The significand is counted in units of the place of its last digit. -/
theorem units_natBits : units (natBits n) = significand n * 2 ^ (n.log2 + 1022) := by
  obtain ⟨hlow, hhigh⟩ := significand_bounds hn
  rw [natBits_eq hn, units]
  generalize significand n = c at *
  generalize n.log2 = top at *
  by_cases hcarry : c = 2 ^ 53
  · have hexponent : ((top + 1022) * 2 ^ 52 + c) / 2 ^ 52 = top + 1022 + 2 := by omega
    have hfraction : ((top + 1022) * 2 ^ 52 + c) % 2 ^ 52 = 0 := by omega
    rw [hexponent, hfraction, if_neg (by omega), hcarry, show top + 1022 + 2 - 1 = top + 1022 + 1 by omega,
      Nat.pow_succ _ (top + 1022)]
    omega
  · have hexponent : ((top + 1022) * 2 ^ 52 + c) / 2 ^ 52 = top + 1022 + 1 := by omega
    have hfraction : ((top + 1022) * 2 ^ 52 + c) % 2 ^ 52 = c - 2 ^ 52 := by omega
    rw [hexponent, hfraction, if_neg (by omega), Nat.add_sub_cancel' hlow, Nat.add_sub_cancel]

end

theorem pow_mul_pow {a b k : Nat} (h : a + b = unitExponent + k) :
    2 ^ a * 2 ^ b = 2 ^ k * unitsPerOne := by
  rw [← Nat.pow_add, h, Nat.pow_add, Nat.mul_comm, unitsPerOne]

/-- From two to the power of `e + 52` on, units are multiples of two to the power of `e`. -/
theorem dvd_units {m e : Nat} (h : 2 ^ (e + 52) ≤ units m) : 2 ^ e ∣ units m := by
  unfold units at h ⊢
  by_cases hzero : m / 2 ^ 52 = 0
  · rw [if_pos hzero] at h
    have hlt := Nat.mod_lt m (Nat.two_pow_pos 52)
    have hle : 2 ^ 52 ≤ 2 ^ (e + 52) := Nat.pow_le_pow_right (by omega) (by omega)
    omega
  · rw [if_neg hzero] at h ⊢
    have hlt : (2 ^ 52 + m % 2 ^ 52) * 2 ^ (m / 2 ^ 52 - 1) < 2 ^ (m / 2 ^ 52 - 1 + 53) := by
      rw [Nat.pow_add, Nat.mul_comm]
      exact Nat.mul_lt_mul_of_pos_left (by omega) (Nat.two_pow_pos _)
    have hexponent := (Nat.pow_lt_pow_iff_right (by omega)).1 (Nat.lt_of_le_of_lt h hlt)
    exact Nat.dvd_mul_left_of_dvd (Nat.pow_dvd_pow 2 (by omega)) _

/-- With at most 53 digits a number is kept as it is. -/
theorem units_natBits_exact {n : Nat} (hn : n ≠ 0) (htop : n.log2 ≤ 52) :
    units (natBits n) = n * unitsPerOne := by
  have hexponent : unitExponent = 1074 := rfl
  have hpow : 2 ^ (52 - n.log2) * 2 ^ (n.log2 + 1022) = 2 ^ 0 * unitsPerOne :=
    pow_mul_pow (by omega)
  rw [units_natBits hn, significand, if_pos htop, Nat.pow_eq, Nat.mul_assoc, hpow, Nat.pow_zero,
    Nat.one_mul]

/-- With more digits it is rounded to a multiple of the place of the last digit that is kept. -/
theorem units_natBits_rounded {n k : Nat} (hn : n ≠ 0) (hk : n.log2 = 52 + k) (hpos : 0 < k) :
    significand n = roundedShift n k ∧
      units (natBits n) = roundedShift n k * 2 ^ k * unitsPerOne := by
  have hexponent : unitExponent = 1074 := rfl
  have hsignificand : significand n = roundedShift n k := by
    rw [significand, if_neg (by omega), hk, Nat.add_sub_cancel_left]
  have hpow : 2 ^ 0 * 2 ^ (n.log2 + 1022) = 2 ^ k * unitsPerOne := pow_mul_pow (by omega)
  rw [Nat.pow_zero, Nat.one_mul] at hpow
  exact ⟨hsignificand, by rw [units_natBits hn, hsignificand, hpow, Nat.mul_assoc]⟩

/-- What is below the highest power of two in the number is further away than the rounded number, since
that power is a multiple of the place, too. -/
theorem gap_rounded_lt {n k m : Nat} (hn : n ≠ 0) (hk : n.log2 = 52 + k)
    (hm : units m < 2 ^ (n.log2 + 1022 + 52)) :
    gap (roundedShift n k * 2 ^ k : Nat) n * unitsPerOne < gap (units m) (n * unitsPerOne : Nat) := by
  have hexponent : unitExponent = 1074 := rfl
  have hlow := Nat.log2_self_le hn
  rw [hk, Nat.pow_add] at hlow
  have hpow : 2 ^ (n.log2 + 1022) * 2 ^ 52 = 2 ^ (52 + k) * unitsPerOne :=
    pow_mul_pow (by omega)
  rw [Nat.pow_add, hpow, Nat.pow_add] at hm
  have hle : 2 ^ 52 * 2 ^ k * unitsPerOne ≤ n * unitsPerOne := Nat.mul_le_mul_right _ hlow
  have hpower : gap (roundedShift n k * 2 ^ k : Nat) n ≤ gap (2 ^ 52 * 2 ^ k : Nat) n := by
    rcases roundedShift_nearest n k (2 ^ 52) with h | h | ⟨h, -⟩
    · rw [h]
    · exact h.le
    · exact h.le
  calc gap (roundedShift n k * 2 ^ k : Nat) n * unitsPerOne
      ≤ gap (2 ^ 52 * 2 ^ k : Nat) n * unitsPerOne := Nat.mul_le_mul_right _ hpower
    _ = gap (2 ^ 52 * 2 ^ k * unitsPerOne : Nat) (n * unitsPerOne : Nat) := (gap_mul ..).symm
    _ < gap (units m) (n * unitsPerOne : Nat) := gap_lt_of_lt_le hm hle

/-- The bits of a natural number are those of the nearest magnitude, or of one as near and even. -/
theorem natBits_nearest {n : Nat} (hn : n ≠ 0) (m : Nat) :
    m = natBits n ∨
      gap (units (natBits n)) (n * unitsPerOne : Nat) < gap (units m) (n * unitsPerOne : Nat) ∨
      gap (units (natBits n)) (n * unitsPerOne : Nat) = gap (units m) (n * unitsPerOne : Nat) ∧
        natBits n % 2 = 0 := by
  have hsame (h : units m = units (natBits n)) : m = natBits n := units_strictMono.injective h
  by_cases htop : n.log2 ≤ 52
  · rw [units_natBits_exact hn htop] at hsame ⊢
    unfold gap
    omega
  obtain ⟨k, hk⟩ : ∃ k, n.log2 = 52 + k := ⟨n.log2 - 52, by omega⟩
  obtain ⟨hsignificand, hrounded⟩ := units_natBits_rounded hn hk (by omega)
  have hparity : natBits n % 2 = roundedShift n k % 2 := by
    rw [natBits_eq hn, ← hsignificand]
    omega
  rw [hrounded] at hsame
  rw [hparity, hrounded, gap_mul]
  by_cases hm : 2 ^ (n.log2 + 1022 + 52) ≤ units m
  · -- the magnitude is a multiple of the place of the last digit that is kept
    obtain ⟨j, hj⟩ := dvd_units hm
    have hexponent : unitExponent = 1074 := rfl
    have hpow : 2 ^ (n.log2 + 1022) * 2 ^ 0 = 2 ^ k * unitsPerOne := pow_mul_pow (by omega)
    rw [Nat.pow_zero, Nat.mul_one] at hpow
    rw [hpow, Nat.mul_comm, ← Nat.mul_assoc] at hj
    rw [hj] at hsame
    rw [hj, gap_mul]
    rcases roundedShift_nearest n k j with rfl | hnearer | ⟨hequal, heven⟩
    · exact .inl (hsame rfl)
    · exact .inr (.inl (Nat.mul_lt_mul_of_pos_right hnearer unitsPerOne_pos))
    · exact .inr (.inr ⟨by rw [hequal], heven⟩)
  · exact .inr (.inl (gap_rounded_lt hn hk (Nat.lt_of_not_le hm)))

/-! ## Signs -/

/-- How far a double is from a whole number, in units: the difference of the magnitudes if they have
the same sign, else the sum. -/
theorem gap_signedUnits (x : Double) (i : Int) :
    gap x.signedUnits (i * unitsPerOne) =
      if x.isNegative = decide (i < 0) then
        gap (units x.magnitude.toNat) (i.natAbs * unitsPerOne : Nat)
      else units x.magnitude.toNat + i.natAbs * unitsPerOne := by
  have hmul : ((i.natAbs * unitsPerOne : Nat) : Int) =
      if i < 0 then -(i * unitsPerOne) else i * unitsPerOne := by
    rw [Int.natCast_mul]
    split
    · rw [Int.ofNat_natAbs_of_nonpos (by omega), Int.neg_mul]
    · rw [Int.natAbs_of_nonneg (by omega)]
  unfold gap signedUnits
  generalize i.natAbs * unitsPerOne = n at *
  generalize i * (unitsPerOne : Int) = j at *
  generalize units x.magnitude.toNat = m
  by_cases hi : i < 0 <;> cases hx : x.isNegative <;>
    simp only [hi, decide_true, decide_false, Bool.false_eq_true, Bool.true_eq_false, if_true,
      if_false] at hmul ⊢ <;> omega

/-- The distance of a double from a whole number. -/
theorem abs_value_sub (x : Double) (i : Int) :
    |x.value - i| = gap x.signedUnits (i * unitsPerOne) / unitsPerOne := by
  have hpos : (0 : ℚ) < unitsPerOne := Nat.cast_pos.2 unitsPerOne_pos
  have hunits : (x.value - i) * unitsPerOne = ((x.signedUnits - i * unitsPerOne : Int) : ℚ) := by
    rw [value, sub_mul, div_mul_cancel₀ _ hpos.ne']
    push_cast
    rfl
  rw [gap, Nat.cast_natAbs, Int.cast_abs, ← hunits, abs_mul, abs_of_pos hpos,
    mul_div_cancel_right₀ _ hpos.ne']

/-! ## 64-bit integers -/

theorem natBits_lt {n : Nat} (h : n ≤ 2 ^ 63) : natBits n < 2047 * 2 ^ 52 := by
  by_cases hn : n = 0
  · rw [natBits, if_pos hn]
    decide
  · have htop : n.log2 < 64 := (Nat.log2_lt hn).2 (by omega)
    have := significand_bounds hn
    rw [natBits_eq hn]
    omega

theorem natAbs_toInt_le (i : Int64) : i.toInt.natAbs ≤ 2 ^ 63 := by
  have hlow := i.le_toInt
  have hhigh := i.toInt_lt
  omega

theorem bits_ofInt64 (i : Int64) :
    (ofInt64 i).bits.toNat = (if i.toInt < 0 then 2 ^ 63 else 0) + natBits i.toInt.natAbs := by
  have hsign : signBit.toNat = 2 ^ 63 := rfl
  have hlt := natBits_lt (natAbs_toInt_le i)
  rw [ofInt64, hsign]
  dsimp only
  rw [UInt64.toNat_ofNat']
  split <;> omega

theorem magnitude_ofInt64 (i : Int64) : (ofInt64 i).magnitude.toNat = natBits i.toInt.natAbs := by
  have hlt := natBits_lt (natAbs_toInt_le i)
  rw [magnitude_toNat, bits_ofInt64]
  split <;> omega

theorem isNegative_ofInt64 (i : Int64) : (ofInt64 i).isNegative = decide (i.toInt < 0) := by
  have hlt := natBits_lt (natAbs_toInt_le i)
  rw [Bool.eq_iff_iff, isNegative_iff, bits_ofInt64, decide_eq_true_iff]
  split <;> omega

theorem isFinite_ofInt64 (i : Int64) : (ofInt64 i).IsFinite := by
  rw [isFinite_iff, magnitude_ofInt64]
  exact natBits_lt (natAbs_toInt_le i)

/-- In units, the widened integer is nearer than any other double, or as near with even bits. -/
theorem gap_ofInt64 (i : Int64) (y : Double) :
    y = ofInt64 i ∨
      gap (ofInt64 i).signedUnits (i.toInt * unitsPerOne) < gap y.signedUnits (i.toInt * unitsPerOne) ∨
      gap (ofInt64 i).signedUnits (i.toInt * unitsPerOne) = gap y.signedUnits (i.toInt * unitsPerOne) ∧
        (ofInt64 i).bits.toNat % 2 = 0 := by
  have hparity : (ofInt64 i).bits.toNat % 2 = natBits i.toInt.natAbs % 2 := by
    rw [bits_ofInt64]
    split <;> omega
  rw [gap_signedUnits, gap_signedUnits, if_pos (isNegative_ofInt64 i), magnitude_ofInt64, hparity]
  by_cases hzero : i.toInt.natAbs = 0
  · have hself : gap (units (natBits i.toInt.natAbs)) (i.toInt.natAbs * unitsPerOne : Nat) = 0 := by
      rw [hzero, Nat.zero_mul]
      rfl
    have heven : natBits i.toInt.natAbs % 2 = 0 := by
      rw [hzero]
      rfl
    rw [hself, heven]
    omega
  · have hunits : 0 < i.toInt.natAbs * unitsPerOne :=
      Nat.mul_pos (Nat.pos_of_ne_zero hzero) unitsPerOne_pos
    have hnearest := natBits_nearest hzero y.magnitude.toNat
    by_cases hsign : y.isNegative = decide (i.toInt < 0)
    · rw [if_pos hsign]
      refine hnearest.imp_left fun hsame => ext_magnitude (hsign.trans (isNegative_ofInt64 i).symm) ?_
      rw [hsame, magnitude_ofInt64]
    · -- with the other sign the double lies beyond zero
      rw [if_neg hsign]
      have hbeyond := gap_le_add (units y.magnitude.toNat) (i.toInt.natAbs * unitsPerOne)
      rcases hnearest with hsame | hnearer | ⟨hequal, heven⟩
      · have hpos : units (natBits i.toInt.natAbs) ≠ 0 := by
          rw [Ne, units_eq_zero, natBits_eq hzero]
          omega
        rw [hsame]
        exact .inr (.inl (gap_lt_add (Nat.pos_of_ne_zero hpos) hunits))
      · omega
      · omega

/-- The double is nearest to a number: no finite double is nearer, and where another one is as near,
its own bits are even. -/
structure Nearest (x : Double) (q : ℚ) : Prop where
  finite : x.IsFinite
  least : ∀ y : Double, y.IsFinite → |x.value - q| ≤ |y.value - q|
  even : ∀ y : Double, y.IsFinite → y ≠ x → |y.value - q| = |x.value - q| → x.bits.toNat % 2 = 0

theorem ofInt64_nearest (i : Int64) : (ofInt64 i).Nearest i.toInt := by
  have hpos : (0 : ℚ) < unitsPerOne := Nat.cast_pos.2 unitsPerOne_pos
  refine ⟨isFinite_ofInt64 i, fun y _ => ?_, fun y _ hne hequal => ?_⟩
  · rw [abs_value_sub, abs_value_sub, div_le_div_iff_of_pos_right hpos, Nat.cast_le]
    rcases gap_ofInt64 i y with rfl | hlt | ⟨heq, -⟩
    · exact le_rfl
    · exact hlt.le
    · exact heq.le
  · rw [abs_value_sub, abs_value_sub, div_left_inj' hpos.ne', Nat.cast_inj] at hequal
    rcases gap_ofInt64 i y with hsame | hlt | ⟨-, heven⟩
    · exact absurd hsame hne
    · omega
    · exact heven

/-- A finite double is nearest to its own value. -/
theorem nearest_self {x : Double} (hx : x.IsFinite) : x.Nearest x.value := by
  refine ⟨hx, fun y _ => ?_, fun y _ hne hequal => ?_⟩
  · rw [sub_self, abs_zero]
    exact abs_nonneg _
  · rw [sub_self, abs_zero, abs_eq_zero, sub_eq_zero] at hequal
    -- only zeros share their value, and both have even bits
    have hzeros : OppositeZeros x y := by
      by_contra hzeros
      have hcompare := compareTotal_eq hzeros
      rw [hequal, compare_eq_iff_eq.2 rfl] at hcompare
      exact hne (eq_of_totalKey_eq (compare_eq_iff_eq.1 hcompare)).symm
    have hmagnitude := signedUnits_eq_zero.1 (value_eq_zero.1 hzeros.1)
    rw [magnitude_toNat] at hmagnitude
    omega

/-- Whole numbers up to two to the power of 53 are doubles. -/
theorem units_natBits_of_le {n : Nat} (h : n ≤ 2 ^ 53) : units (natBits n) = n * unitsPerOne := by
  by_cases hn : n = 0
  · rw [hn, Nat.zero_mul]
    rfl
  by_cases hlast : n = 2 ^ 53
  · have htop : n.log2 = 52 + 1 := by
      rw [hlast, Nat.log2_two_pow]
    have hround : roundedShift (2 ^ 53) 1 = 2 ^ 52 := by decide
    rw [(units_natBits_rounded hn htop Nat.one_pos).2, hlast, hround, ← Nat.pow_add]
  · exact units_natBits_exact hn (Nat.lt_succ_iff.1 ((Nat.log2_lt hn).2 (by omega)))

theorem ofInt64_exact {i : Int64} (h : i.toInt.natAbs ≤ 2 ^ 53) : (ofInt64 i).value = i.toInt := by
  have hzero : |(ofInt64 i).value - i.toInt| = 0 := by
    rw [abs_value_sub, gap_signedUnits, if_pos (isNegative_ofInt64 i), magnitude_ofInt64,
      units_natBits_of_le h, gap, Int.sub_self, Int.natAbs_zero, Nat.cast_zero, zero_div]
  exact sub_eq_zero.1 (abs_eq_zero.1 hzero)

namespace Nearest

variable {x y : Double} {p q : ℚ}

/-- What is nearest to the value of a double has that value. -/
theorem value_eq (hx : x.Nearest y.value) (hy : y.IsFinite) : x.value = y.value := by
  have h := hx.least y hy
  rw [sub_self, abs_zero] at h
  exact sub_eq_zero.1 (abs_nonpos_iff.1 h)

/-- Of two numbers, the smaller one has no greater nearest double. -/
theorem le_of_lt (hx : x.Nearest p) (hy : y.Nearest q) (h : p < q) : x.value ≤ y.value := by
  have hleft := sq_le_sq.2 (hx.least y hy.finite)
  have hright := sq_le_sq.2 (hy.least x hx.finite)
  by_contra hlt
  have hlt : 0 < x.value - y.value := sub_pos.2 (not_le.1 hlt)
  -- the middle between the two doubles is neither above `p` nor below `q`
  have hmiddle : (x.value - y.value) * (x.value + y.value - 2 * p) ≤ 0 := by linarith
  have hmiddle' : 0 ≤ (x.value - y.value) * (x.value + y.value - 2 * q) := by linarith
  have := nonpos_of_mul_nonpos_right hmiddle hlt
  have := nonneg_of_mul_nonneg_right hmiddle' hlt
  linarith

end Nearest

end Double

end Olap
