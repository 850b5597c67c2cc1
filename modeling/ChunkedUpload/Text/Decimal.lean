/-!
# Decimal numerals

A number is written with `Nat.repr`. Reading comes in two strengths: `digits?` takes any run of
ASCII digits, `canonical?` only the one spelling that writing produces.
-/

namespace ChunkedUpload.Decimal

/-- The value of a nonempty run of ASCII digits; leading zeros are allowed. -/
def digits? (cs : List Char) : Option Nat :=
  if cs ≠ [] ∧ cs.all Char.isDigit then some (Nat.ofDigitChars 10 cs 0) else none

/-- The value of a numeral without a leading zero, so never zero. -/
def canonical? (cs : List Char) : Option Nat :=
  if cs.head? = some '0' then none else digits? cs

end ChunkedUpload.Decimal
