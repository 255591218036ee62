import Olap.Decimal.Text

/-!
# Reading JSON texts

`JsonValue.read?` accepts exactly the texts of the JSON grammar. It keeps only as much of a value as
a configuration needs: of numbers the natural ones below 2 ^ 64 that are written as plain digits, and
of strings the ones that are valid text, since escapes can spell half of a surrogate pair.
-/

set_option autoImplicit false

namespace Olap

inductive JsonValue where
  | null
  | bool (b : Bool)
  | natural (n : Nat)
  /-- Any other number. -/
  | number
  /-- A string, or nothing if its escapes spell no text. -/
  | string (text : Option String)
  | array (items : List JsonValue)
  | object (fields : List (Option String × JsonValue))
  deriving Repr

namespace JsonValue

/-- Drops blanks at the front. -/
def skipBlanks : List Char → List Char
  | [] => []
  | c :: cs => if c = ' ' ∨ c = '\n' ∨ c = '\t' ∨ c = '\r' then skipBlanks cs else c :: cs

/-! ## Strings -/

def hexDigit? (c : Char) : Option Nat :=
  if c.isDigit then some (c.toNat - '0'.toNat)
  else if 'a' ≤ c ∧ c ≤ 'f' then some (c.toNat - 'a'.toNat + 10)
  else if 'A' ≤ c ∧ c ≤ 'F' then some (c.toNat - 'A'.toNat + 10)
  else none

/-- The character that a one-letter escape stands for. -/
def escape? : Char → Option Char
  | '"' => some '"'
  | '\\' => some '\\'
  | '/' => some '/'
  | 'b' => some '\x08'
  | 'f' => some '\x0c'
  | 'n' => some '\n'
  | 'r' => some '\r'
  | 't' => some '\t'
  | _ => none

/-- A piece of a string: a character, or a 16-bit unit given by its number. -/
inductive StringPart where
  | char (c : Char)
  | code (n : Nat)
  deriving Repr

/-- Reads the pieces of a string up to the closing quote. -/
def readParts? : List Char → Option (List StringPart × List Char)
  | [] => none
  | '"' :: rest => some ([], rest)
  | '\\' :: 'u' :: a :: b :: c :: d :: rest => do
    let n := 4096 * (← hexDigit? a) + 256 * (← hexDigit? b) + 16 * (← hexDigit? c) + (← hexDigit? d)
    let (parts, rest) ← readParts? rest
    return (.code n :: parts, rest)
  | '\\' :: e :: rest => do
    let c ← escape? e
    let (parts, rest) ← readParts? rest
    return (.char c :: parts, rest)
  | c :: rest =>
    if c.toNat < 32 then none
    else do
      let (parts, rest) ← readParts? rest
      return (.char c :: parts, rest)

/-- Joins the pieces; a unit of a surrogate pair must stand beside its partner. -/
def joinParts? : List StringPart → Option (List Char)
  | [] => some []
  | .char c :: rest => (joinParts? rest).map (c :: ·)
  | .code n :: .code m :: rest =>
    if 0xd800 ≤ n ∧ n < 0xdc00 then
      if 0xdc00 ≤ m ∧ m < 0xe000 then
        (joinParts? rest).map (Char.ofNat (0x10000 + 1024 * (n - 0xd800) + (m - 0xdc00)) :: ·)
      else none
    else if 0xdc00 ≤ n ∧ n < 0xe000 then none
    else (joinParts? (.code m :: rest)).map (Char.ofNat n :: ·)
  | .code n :: rest =>
    if 0xd800 ≤ n ∧ n < 0xe000 then none else (joinParts? rest).map (Char.ofNat n :: ·)

def readString? (cs : List Char) : Option (Option String × List Char) := do
  let (parts, rest) ← readParts? cs
  return ((joinParts? parts).map String.ofList, rest)

/-! ## Numbers -/

/-- Drops a fraction, which has digits. -/
def skipFraction? : List Char → Option (List Char)
  | '.' :: rest =>
    let (digits, rest) := Decimal.takeDigits rest
    if digits.isEmpty then none else some rest
  | rest => some rest

/-- Drops an exponent, which has digits and perhaps a sign. -/
def skipExponent? : List Char → Option (List Char)
  | c :: rest =>
    if c = 'e' ∨ c = 'E' then
      let unsigned :=
        match rest with
        | '+' :: rest => rest
        | '-' :: rest => rest
        | rest => rest
      let (digits, rest) := Decimal.takeDigits unsigned
      if digits.isEmpty then none else some rest
    else some (c :: rest)
  | [] => some []

/-- Reads a number. A leading zero stands alone. -/
def readNumber? (cs : List Char) : Option (JsonValue × List Char) := do
  let (negative, unsigned) :=
    match cs with
    | '-' :: rest => (true, rest)
    | rest => (false, rest)
  let (digits, afterDigits) := Decimal.takeDigits unsigned
  if digits.isEmpty || (digits.length > 1 && digits.head? == some '0') then none
  let rest ← skipExponent? (← skipFraction? afterDigits)
  let n := Decimal.digitsValue digits
  if negative || rest.length != afterDigits.length || n ≥ UInt64.size then return (number, rest)
  return (natural n, rest)

/-! ## Values -/

/-- Drops a word at the front. -/
def skipWord? : List Char → List Char → Option (List Char)
  | [], cs => some cs
  | w :: ws, c :: cs => if w = c then skipWord? ws cs else none
  | _, [] => none

mutual

/-- Reads a value; `fuel` bounds the number of steps. -/
def readValue? (fuel : Nat) (cs : List Char) : Option (JsonValue × List Char) :=
  match fuel with
  | 0 => none
  | fuel + 1 =>
    match skipBlanks cs with
    | [] => none
    | '"' :: rest => (readString? rest).map fun (text, rest) => (string text, rest)
    | '[' :: rest =>
      match skipBlanks rest with
      | ']' :: rest => some (array [], rest)
      | rest => (readItems? fuel rest).map fun (items, rest) => (array items, rest)
    | '\x7b' :: rest =>
      match skipBlanks rest with
      | '\x7d' :: rest => some (object [], rest)
      | rest => (readFields? fuel rest).map fun (fields, rest) => (object fields, rest)
    | 'n' :: rest => (skipWord? ['u', 'l', 'l'] rest).map (null, ·)
    | 't' :: rest => (skipWord? ['r', 'u', 'e'] rest).map (bool true, ·)
    | 'f' :: rest => (skipWord? ['a', 'l', 's', 'e'] rest).map (bool false, ·)
    | rest => readNumber? rest

/-- Reads the items of an array up to its end. -/
def readItems? (fuel : Nat) (cs : List Char) : Option (List JsonValue × List Char) :=
  match fuel with
  | 0 => none
  | fuel + 1 => do
    let (item, rest) ← readValue? fuel cs
    match skipBlanks rest with
    | ']' :: rest => return ([item], rest)
    | ',' :: rest =>
      let (items, rest) ← readItems? fuel rest
      return (item :: items, rest)
    | _ => none

/-- Reads the fields of an object up to its end. -/
def readFields? (fuel : Nat) (cs : List Char) :
    Option (List (Option String × JsonValue) × List Char) :=
  match fuel with
  | 0 => none
  | fuel + 1 =>
    match skipBlanks cs with
    | '"' :: rest => do
      let (key, rest) ← readString? rest
      match skipBlanks rest with
      | ':' :: rest =>
        let (value, rest) ← readValue? fuel rest
        match skipBlanks rest with
        | '\x7d' :: rest => return ([(key, value)], rest)
        | ',' :: rest =>
          let (fields, rest) ← readFields? fuel rest
          return ((key, value) :: fields, rest)
        | _ => none
      | _ => none
    | _ => none

end

/-- Reads a text that is one value. No value takes more than two steps per character. -/
def read? (text : String) : Option JsonValue := do
  let cs := text.toList
  let (value, rest) ← readValue? (2 * cs.length + 2) cs
  if (skipBlanks rest).isEmpty then return value else none

end JsonValue

end Olap
