/-!
# Shortest decimals

A double stands for an interval of reals: all those that round to it. `Decimal.shortest` finds the
decimal with the fewest digits in that interval, and of those the one nearest to the double. All
arithmetic is exact, on natural numbers.
-/

set_option autoImplicit false

namespace Olap

/-- The number `digits * 10 ^ exponent`. -/
structure Decimal where
  digits : Nat
  exponent : Int
  deriving DecidableEq, Repr

namespace Decimal

/-- A positive binary number with the interval of reals that round to it, all three as multiples
of `2 ^ exponent`. -/
structure Target where
  low : Nat
  value : Nat
  high : Nat
  exponent : Int
  /-- Whether the two ends belong to the interval. -/
  closed : Bool
  deriving Repr

/-- The interval of `mantissa * 2 ^ exponent`. The gap below a power of two is half as wide, unless
the exponent is already the least one; ties round to even mantissas. -/
def Target.ofBinary (mantissa : Nat) (exponent : Int) (atPower : Bool) : Target where
  low := 4 * mantissa - (if atPower then 1 else 2)
  value := 4 * mantissa
  high := 4 * mantissa + 2
  exponent := exponent - 2
  closed := mantissa % 2 == 0

/-- `x * 2 ^ b / 10 ^ k` as numerator and denominator. -/
def scaled (x : Nat) (b k : Int) : Nat × Nat :=
  (x * Nat.pow 2 b.toNat * Nat.pow 10 (-k).toNat, Nat.pow 2 (-b).toNat * Nat.pow 10 k.toNat)

/-- Whether `10 ^ k` is at most the target's value. -/
def Target.reaches (t : Target) (k : Int) : Bool :=
  let (num, den) := scaled t.value t.exponent k
  den ≤ num

/-- The position of the leading decimal digit of the target's value: the largest `k` with `10 ^ k`
at most the value. The binary logarithm leaves at most three candidates. -/
def Target.magnitude (t : Target) : Int :=
  let least := ((t.value.log2 + t.exponent) * 30103) / 100000 - 1
  if t.reaches (least + 2) then least + 2
  else if t.reaches (least + 1) then least + 1
  else least

/-- Whether the multiple `c` of `10 ^ k` lies in the target's interval. -/
def Target.holds (t : Target) (c : Nat) (k : Int) : Bool :=
  let (lowNum, den) := scaled t.low t.exponent k
  let (highNum, _) := scaled t.high t.exponent k
  if t.closed then lowNum ≤ c * den && c * den ≤ highNum
  else lowNum < c * den && c * den < highNum

/-- The neighbour of the target's value on the grid of multiples of `10 ^ k` that lies in its
interval; of two, the nearer one, and the upper one when both are equally near. -/
def Target.onGrid? (t : Target) (k : Int) : Option Nat :=
  let (num, den) := scaled t.value t.exponent k
  let below := num / den
  match t.holds below k, t.holds (below + 1) k with
  | true, true => some (if 2 * (num % den) < den then below else below + 1)
  | true, false => some below
  | false, true => some (below + 1)
  | false, false => none

/-- Tries `count` ever finer grids, starting with multiples of `10 ^ k`. -/
def Target.search (t : Target) : Nat → Int → Option Decimal
  | 0, _ => none
  | count + 1, k =>
    match t.onGrid? k with
    | some c => some ⟨c, k⟩
    | none => t.search count (k - 1)

/-- The decimal with the fewest digits that rounds to the target. The first grid is that of the next
power of ten, which may be in the interval; after it, seventeen digits are always enough. -/
def shortest (t : Target) : Decimal :=
  (t.search 18 (t.magnitude + 1)).getD ⟨0, 0⟩

end Decimal

end Olap
