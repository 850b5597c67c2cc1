import ChunkedUpload.Bytes

/-!
# Percent encoding

Every byte that is not an ASCII letter or digit is written as `%` and two uppercase hexadecimal
digits.
-/

namespace ChunkedUpload.Percent

/-- The uppercase hexadecimal digit of a number below 16. -/
def hexDigit (n : Nat) : Char := (Nat.digitChar n).toUpper

/-- The number that a hexadecimal digit of either case stands for. -/
def hexValue? (c : Char) : Option Nat :=
  if c.isDigit then some (c.toNat - '0'.toNat)
  else if 'A' ≤ c ∧ c ≤ 'F' then some (c.toNat - 'A'.toNat + 10)
  else if 'a' ≤ c ∧ c ≤ 'f' then some (c.toNat - 'a'.toNat + 10)
  else none

/-- Whether a byte stands for itself. -/
def isPlain (b : UInt8) : Bool := (Char.ofNat b.toNat).isAlphanum

/-- A letter or digit of ASCII stands for itself, any other byte is written in hexadecimal. -/
def encodeByte (b : UInt8) : List Char :=
  if isPlain b then [Char.ofNat b.toNat]
  else ['%', hexDigit (b.toNat / 16), hexDigit (b.toNat % 16)]

/-- Bytes one after another. -/
def encodeBytes (bytes : Bytes) : List Char := bytes.flatMap encodeByte

/-- The bytes that an encoded text stands for. A `%` without two digits stands for itself. -/
def decodeBytes : List Char → Bytes
  | [] => []
  | '%' :: h :: l :: r =>
    match hexValue? h, hexValue? l with
    | some high, some low => UInt8.ofNat (high * 16 + low) :: decodeBytes r
    | _, _ => Bytes.ofText "%" ++ decodeBytes (h :: l :: r)
  | c :: r => Bytes.ofText c.toString ++ decodeBytes r

/-- Encodes the UTF-8 bytes of a text. -/
def encode (text : String) : String := String.ofList (encodeBytes (Bytes.ofText text))

/-- The text that an encoded one stands for, if its bytes are a text. -/
def decode? (text : String) : Option String := Bytes.text? (decodeBytes text.toList)

end ChunkedUpload.Percent
