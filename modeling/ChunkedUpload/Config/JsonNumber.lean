import ChunkedUpload.Config.Value
import ChunkedUpload.Text.Binary64

/-!
# Numerals of JSON

A numeral has digits without a needless zero in front, perhaps a fraction and perhaps an exponent.
Without either it is a whole number of 64 bits; `-0` and all others are read as doubles, and one
too large for a double can only be passed over.
-/

namespace ChunkedUpload.Config.JsonNumber

/-- The pieces of a numeral. -/
structure Numeral where
  negative : Bool
  /-- Digits before the point. -/
  whole : List Char
  /-- Digits after the point, if there is one. -/
  fraction : Option (List Char)
  /-- Sign and digits of the exponent, if there is one. -/
  exponent : Option (Bool × List Char)
  deriving DecidableEq, Repr

/-- Takes a leading minus. -/
def takeMinus : List Char → Bool × List Char
  | '-' :: r => (true, r)
  | cs => (false, cs)

/-- Takes the sign of an exponent; no sign is a plus. -/
def takeSign : List Char → Bool × List Char
  | '-' :: r => (true, r)
  | '+' :: r => (false, r)
  | cs => (false, cs)

/-- Digits that are there and do not start with a needless zero. -/
def isWhole (digits : List Char) : Bool :=
  digits.all Char.isDigit && digits ≠ [] && (digits.head? ≠ some '0' || digits.length = 1)

/-- The fraction, if the text goes on with one. -/
def takeFraction? : List Char → Option (Option (List Char) × List Char)
  | '.' :: r =>
    let digits := r.takeWhile Char.isDigit
    if digits = [] then none else some (some digits, r.dropWhile Char.isDigit)
  | cs => some (none, cs)

/-- The exponent, which must be all of the text that is left. -/
def takeExponent? : List Char → Option (Option (Bool × List Char))
  | [] => some none
  | c :: r =>
    let (negative, digits) := takeSign r
    if (c = 'e' ∨ c = 'E') ∧ digits ≠ [] ∧ digits.all Char.isDigit then
      some (some (negative, digits))
    else none

/-- The numeral that a text is. -/
def numeral? (cs : List Char) : Option Numeral := do
  let (negative, cs) := takeMinus cs
  let whole := cs.takeWhile Char.isDigit
  let (fraction, cs) ← takeFraction? (cs.dropWhile Char.isDigit)
  let exponent ← takeExponent? cs
  if isWhole whole then some { negative, whole, fraction, exponent } else none

/-- Significands below `2^64` are kept exactly. -/
def significandLimit : Nat := 0x10000000000000000

/-- Adds digits to a significand up to the first one that would make it too large. Answers how many
were added. -/
def extend (significand : Nat) : List Char → Nat × Nat
  | [] => (significand, 0)
  | c :: r =>
    let more := significand * 10 + (c.toNat - '0'.toNat)
    if more < significandLimit then
      let (significand, added) := extend more r
      (significand, added + 1)
    else (significand, 0)

/-- Whether a numeral is too large for a double. -/
def Numeral.overflows (n : Numeral) : Bool :=
  let (significand, added) := extend 0 n.whole
  let dropped := n.whole.length - added
  let (significand, places) := extend significand (n.fraction.getD [])
  let shift : Int := match n.exponent with
    | some (true, digits) => -(Nat.ofDigitChars 10 digits 0 : Int)
    | some (false, digits) => Nat.ofDigitChars 10 digits 0
    | none => 0
  Binary64.productOverflows significand (dropped - places + shift)

/-- The value of a numeral. -/
def Numeral.value (n : Numeral) : Value :=
  let magnitude := Nat.ofDigitChars 10 n.whole 0
  let double := if n.overflows then .unreadable else .fraction
  if n.fraction.isSome || n.exponent.isSome then double
  else if n.negative then
    if magnitude = 0 ∨ 0x8000000000000000 < magnitude then double else .whole (-magnitude)
  else if magnitude < 0x10000000000000000 then .whole magnitude
  else double

/-- The value of a numeral, if the text is one. -/
def value? (cs : List Char) : Option Value := (numeral? cs).map Numeral.value

end ChunkedUpload.Config.JsonNumber
