import Olap.Decimal.Shortest
import Olap.Double

/-!
# Decimal text of doubles

`Decimal.write` prints a double with the fewest digits that read back as the same double, always
in positional notation and without a fraction when there is none. `Decimal.read?` reads positional
and exponent notation, rounding to the nearest double.
-/

set_option autoImplicit false

namespace Olap.Decimal

/-- The digits of a decimal in positional notation. -/
def positional (d : Decimal) : String :=
  let digits := toString d.digits
  if 0 ≤ d.exponent then
    digits ++ "".pushn '0' d.exponent.toNat
  else
    let places := (-d.exponent).toNat
    let padded := ("".pushn '0' (places + 1 - digits.length) ++ digits).toList
    let split := padded.length - places
    String.ofList (padded.take split) ++ "." ++ String.ofList (padded.drop split)

/-- The magnitude of a finite nonzero double, as mantissa, exponent and whether the mantissa is
the least normal one. -/
def Target.ofBits (bits : UInt64) : Target :=
  let biased := ((bits >>> 52) &&& 0x7ff).toNat
  let fraction := (bits &&& 0xfffffffffffff).toNat
  if biased = 0 then .ofBinary fraction (-1074) false
  else .ofBinary (0x10000000000000 + fraction) (biased - 1075) (fraction == 0 && biased != 1)

/-- The printed double: `NaN`, `inf` or positional digits, with a sign unless it is no number. -/
def write (x : Double) : String :=
  if x.isNaN then "NaN"
  else
    let sign := if x.isNegative then "-" else ""
    if x.magnitude = 0 then sign ++ "0"
    else if x.isInfinite then sign ++ "inf"
    else sign ++ positional (shortest (.ofBits x.magnitude))

/-- The number that a run of digits denotes. -/
def digitsValue (digits : List Char) : Nat :=
  digits.foldl (fun n c => 10 * n + (c.toNat - '0'.toNat)) 0

/-- Splits off the digits at the front. -/
def takeDigits (text : List Char) : List Char × List Char :=
  (text.takeWhile Char.isDigit, text.dropWhile Char.isDigit)

/-- Reads an optional exponent that ends the text. -/
def readExponent? : List Char → Option Int
  | [] => some 0
  | c :: rest =>
    if c = 'e' ∨ c = 'E' then
      let (negative, body) :=
        match rest with
        | '-' :: body => (true, body)
        | '+' :: body => (false, body)
        | body => (false, body)
      if body.isEmpty || !body.all Char.isDigit then none
      else some (if negative then -(digitsValue body : Int) else digitsValue body)
    else none

/-- Reads digits with an optional fraction and exponent as a decimal. -/
def readMagnitude? (text : List Char) : Option Decimal :=
  let (whole, rest) := takeDigits text
  let (fraction, rest) :=
    match rest with
    | '.' :: rest => takeDigits rest
    | rest => ([], rest)
  if whole.isEmpty && fraction.isEmpty then none
  else
    (readExponent? rest).map fun exponent =>
      ⟨digitsValue (whole ++ fraction), exponent - fraction.length⟩

/-- The double nearest to a decimal. A decimal beyond the range of doubles is infinite, one far
below the least double is zero. -/
def toDouble (d : Decimal) : Double :=
  let places := (toString d.digits).length
  if d.digits = 0 || d.exponent + places < -400 then 0
  else if 400 < d.exponent + places then .infinity
  else if 0 ≤ d.exponent then .ofFloat (.ofScientific d.digits false d.exponent.toNat)
  else .ofFloat (.ofScientific d.digits true (-d.exponent).toNat)

/-- Reads a signed number, `inf` or `NaN`. -/
def read? (text : String) : Option Double :=
  let unsigned (body : List Char) : Option Double :=
    if body = "inf".toList then some .infinity
    else if body = "NaN".toList then some .notANumber
    else (readMagnitude? body).map toDouble
  match text.toList with
  | '-' :: body => (unsigned body).map (- ·)
  | '+' :: body => unsigned body
  | body => unsigned body

end Olap.Decimal
