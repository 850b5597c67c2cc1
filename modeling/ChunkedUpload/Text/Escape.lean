import ChunkedUpload.Text.Percent

/-!
# Escapes

Behind a backslash, a letter stands for a character that cannot be written as it is, and digits
stand for the character with that code. `letter?_eq_some_iff`: the letters are written as they are
read.
-/

namespace ChunkedUpload.Escape

/-- The character that a letter stands for. -/
def ofLetter? : Char → Option Char
  | 'b' => some '\x08'
  | 'f' => some '\x0c'
  | 'n' => some '\n'
  | 'r' => some '\r'
  | 't' => some '\t'
  | '"' => some '"'
  | '\\' => some '\\'
  | _ => none

/-- The letter that stands for a character. -/
def letter? : Char → Option Char
  | '\x08' => some 'b'
  | '\x0c' => some 'f'
  | '\n' => some 'n'
  | '\r' => some 'r'
  | '\t' => some 't'
  | '"' => some '"'
  | '\\' => some '\\'
  | _ => none

theorem letter?_eq_some_iff {c letter : Char} :
    letter? c = some letter ↔ ofLetter? letter = some c := by
  constructor <;> intro h
  · unfold letter? at h
    split at h <;> first | (cases h; rfl) | cases h
  · unfold ofLetter? at h
    split at h <;> first | (cases h; rfl) | cases h

/-- The character that hexadecimal digits are the code of. -/
def ofHex? (digits : List Char) : Option Char := do
  let values ← digits.mapM Percent.hexValue?
  let code := values.foldl (fun n digit => n * 16 + digit) 0
  if code < 0xD800 ∨ (0xDFFF < code ∧ code < 0x110000) then some (Char.ofNat code) else none

end ChunkedUpload.Escape
