import ChunkedUpload.Text.Shown

/-!
# Quoted text

A text between quotation marks, with marks, backslashes and characters that cannot be shown escaped.
-/

namespace ChunkedUpload.Quoted

/-- What stands behind the backslash for a character with an escape of its own. -/
def letter? : Char → Option Char
  | '"' => some '"'
  | '\\' => some '\\'
  | '\n' => some 'n'
  | '\r' => some 'r'
  | '\t' => some 't'
  | '\x00' => some '0'
  | _ => none

/-- How one character is written between the marks. -/
def escape (c : Char) : List Char :=
  match letter? c with
  | some letter => ['\\', letter]
  | none =>
    if Shown.isShown c then [c]
    else ['\\', 'u', '\x7b'] ++ Nat.toDigits 16 c.toNat ++ ['\x7d']

/-- The text between quotation marks. -/
def encode (text : String) : String :=
  String.ofList ('"' :: text.toList.flatMap escape ++ ['"'])

end ChunkedUpload.Quoted
