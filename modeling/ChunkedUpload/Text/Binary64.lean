/-!
# Where double precision ends

Doubles have 53 significant bits. A product or a decimal overflows if it rounds to nothing finite,
that is from halfway between the largest double and `2^1024` on.
-/

namespace ChunkedUpload.Binary64

/-- The least number that rounds to infinity. -/
def overflowLimit : Nat := 1 <<< 1024 - 1 <<< 970

/-- The nearest number with 53 significant bits; of two, the one with an even last bit. -/
def round (n : Nat) : Nat :=
  if n < 1 <<< 53 then n
  else
    let unit := 1 <<< (n.log2 - 52)
    let quotient := n / unit
    let remainder := n % unit
    if unit < 2 * remainder ∨ (unit = 2 * remainder ∧ quotient % 2 = 1) then (quotient + 1) * unit
    else quotient * unit

/-- The largest power of ten that is a double. -/
def mostTens : Nat := 308

/-- Whether the product of the doubles nearest to `significand` and `10^exponent` overflows. -/
def productOverflows (significand : Nat) (exponent : Int) : Bool :=
  match exponent with
  | .negSucc _ => false
  | .ofNat e =>
    significand ≠ 0 && (mostTens < e || overflowLimit ≤ round significand * round (Nat.pow 10 e))

/-- Whether the double nearest to `significand * 10^exponent` overflows. -/
def decimalOverflows (significand : Nat) (exponent : Int) : Bool :=
  let digits : Int := (Nat.toDigits 10 significand).length
  if significand = 0 ∨ digits + exponent < mostTens then false
  else if mostTens + 2 < digits + exponent then true
  else overflowLimit * Nat.pow 10 (-exponent).toNat ≤ significand * Nat.pow 10 exponent.toNat

end ChunkedUpload.Binary64
