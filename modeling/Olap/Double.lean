/-!
# Doubles

Floating-point numbers of 64 bits. A double is given by its bits, since more of them show than the
number: zero has a sign, and so has a value that is no number. The sign decides the place in the total
order (`Double.compareTotal`), in which negative zero comes just before zero, and values that are no
numbers come first or last.
-/

set_option autoImplicit false

namespace Olap

/-- A floating-point number of 64 bits: a sign, 11 bits of exponent and 52 bits of fraction. -/
structure Double where
  bits : UInt64
  deriving Repr

namespace Double

def toFloat (x : Double) : Float := .ofBits x.bits

/-- The double of the same value; what is no number becomes positive. -/
def ofFloat (x : Float) : Double := ⟨x.toBits⟩

/-- The double nearest to a natural number. -/
def ofNat (n : Nat) : Double := ofFloat (.ofNat n)

/-- The whole part, or the nearest end of the range if that lies outside; zero if there is none. -/
def toInt64 (x : Double) : Int64 := x.toFloat.toInt64

instance (n : Nat) : OfNat Double n := ⟨ofNat n⟩

/-- The bit pattern of negative zero: the sign bit alone. -/
def signBit : UInt64 := 0x8000000000000000

def negativeZero : Double := ⟨signBit⟩

def infinity : Double := ⟨0x7ff0000000000000⟩

/-- The positive value that is no number. -/
def notANumber : Double := ⟨0x7ff8000000000000⟩

/-- The result of an operation on numbers that has none, such as the difference of infinities. It is
negative. -/
def invalid : Double := ⟨0xfff8000000000000⟩

/-! ## Whole numbers -/

/-- The quotient by a power of two, to the nearest whole number; half-way between two of them it is the
even one. -/
def roundedShift (n k : Nat) : Nat :=
  let unit := Nat.pow 2 k
  let quotient := n / unit
  let rest := n % unit
  if 2 * rest < unit || 2 * rest == unit && quotient % 2 == 0 then quotient else quotient + 1

/-- The first 53 binary digits of a positive number, rounded. Rounding may carry into one more. -/
def significand (n : Nat) : Nat :=
  let top := n.log2
  if top ≤ 52 then n * Nat.pow 2 (52 - top) else roundedShift n (top - 52)

/-- The bits of the double nearest to a natural number with at most 1023 binary digits. The leading
digit of the significand counts towards the exponent, and so does a carry. -/
def natBits (n : Nat) : Nat := if n = 0 then 0 else (n.log2 + 1022) * Nat.pow 2 52 + significand n

/-- The double nearest to a 64-bit integer; half-way between two doubles it is the even one. -/
def ofInt64 (i : Int64) : Double :=
  let bits := natBits i.toInt.natAbs
  ⟨.ofNat (if i.toInt < 0 then signBit.toNat + bits else bits)⟩

/-- The bits without the sign. -/
def magnitude (x : Double) : UInt64 := x.bits &&& 0x7fffffffffffffff

def isNegative (x : Double) : Bool := x.bits != x.magnitude

def isNaN (x : Double) : Bool := infinity.bits < x.magnitude

def isInfinite (x : Double) : Bool := x.magnitude == infinity.bits

/-! ## Arithmetic -/

/-- An operation on numbers as one on doubles. An operand that is no number is the result itself; of
two such operands it is the left one. -/
def combine (op : Float → Float → Float) (x y : Double) : Double :=
  if x.isNaN then x
  else if y.isNaN then y
  else
    let z := op x.toFloat y.toFloat
    if z.isNaN then invalid else ofFloat z

instance : Add Double := ⟨combine (· + ·)⟩
instance : Sub Double := ⟨combine (· - ·)⟩
instance : Mul Double := ⟨combine (· * ·)⟩
instance : Div Double := ⟨combine (· / ·)⟩

/-- Negation turns the sign, also of what is no number. -/
instance : Neg Double := ⟨fun x => ⟨x.bits ^^^ signBit⟩⟩

/-- Equality of numbers: zeros are equal whatever their sign, and what is no number equals nothing. -/
instance : BEq Double := ⟨fun x y => x.toFloat == y.toFloat⟩

/-- The sum of doubles from left to right. It starts at negative zero, which alone leaves every
first term as it is. -/
def sum (xs : List Double) : Double := xs.foldl (· + ·) negativeZero

/-! ## The total order -/

/-- The place of a double in the total order. Bit patterns of non-negative doubles are in order
themselves; those of negative doubles are in reverse order and come before all others. -/
def totalKey (x : Double) : Int :=
  let bits : Int := x.bits.toNat
  if bits < signBit.toNat then bits else signBit.toNat - 1 - bits

/-- Compares doubles by the total order. -/
def compareTotal (x y : Double) : Ordering := compare x.totalKey y.totalKey

end Double

end Olap
