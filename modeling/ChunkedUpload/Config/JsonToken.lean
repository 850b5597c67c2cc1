import ChunkedUpload.Config.JsonNumber
import ChunkedUpload.Text.Escape

/-!
# Tokens of JSON

A text is read character by character; `Lexer.step` says what one more character does. A token is a
bracket, a comma, a colon, a quoted text or a word. Escapes that stand for half of a character make
a text that can only be passed over.
-/

namespace ChunkedUpload.Config

/-- A token of JSON. -/
inductive JsonToken
  | openTable
  | closeTable
  | openList
  | closeList
  | comma
  | colon
  /-- A quoted text, `none` if it holds half of a character. -/
  | text (value : Option String)
  /-- A word: `null`, a truth value or a numeral. -/
  | scalar (value : Value)

namespace JsonToken

/-- What stands between quotation marks: characters, and 16-bit codes that were escaped. -/
inductive Piece
  | char (c : Char)
  | code (n : Nat)

/-- Whether a code is the first half of a character. -/
def isHigh (n : Nat) : Bool := 0xD800 ≤ n && n < 0xDC00

/-- Whether a code is the second half of a character. -/
def isLow (n : Nat) : Bool := 0xDC00 ≤ n && n < 0xE000

/-- The characters that pieces stand for; the halves of a character must be next to each other. -/
def characters? : List Piece → Option (List Char)
  | [] => some []
  | .char c :: r => (characters? r).map (c :: ·)
  | .code high :: .code low :: r =>
    if isHigh high ∧ isLow low then
      (characters? r).map (Char.ofNat ((high - 0xD800) * 0x400 + (low - 0xDC00) + 0x10000) :: ·)
    else if isHigh high ∨ isLow high then none
    else (characters? (.code low :: r)).map (Char.ofNat high :: ·)
  | .code n :: r =>
    if isHigh n ∨ isLow n then none else (characters? r).map (Char.ofNat n :: ·)

/-- The character that a letter or a slash behind a backslash stands for. -/
def escaped? (c : Char) : Option Char := if c = '/' then some c else Escape.ofLetter? c

/-- The token that a word is. -/
def ofWord? (word : List Char) : Option JsonToken :=
  if word = "null".toList then some (.scalar .null)
  else if word = "true".toList then some (.scalar (.bool true))
  else if word = "false".toList then some (.scalar (.bool false))
  else (JsonNumber.value? word).map .scalar

/-- The token that a single character is. -/
def ofMark? : Char → Option JsonToken
  | '\x7b' => some .openTable
  | '\x7d' => some .closeTable
  | '[' => some .openList
  | ']' => some .closeList
  | ',' => some .comma
  | ':' => some .colon
  | _ => none

/-- Blanks between tokens. -/
def isBlank (c : Char) : Bool := c = ' ' || c = '\n' || c = '\t' || c = '\r'

/-- What the characters so far lead to expect. -/
inductive Mode
  | between
  /-- Inside a word, last character first. -/
  | word (sofar : List Char)
  /-- Inside a quoted text, last piece first. -/
  | quoted (sofar : List Piece)
  /-- After a backslash. -/
  | escape (sofar : List Piece)
  /-- Inside an escaped code, with the digits so far. -/
  | hex (sofar : List Piece) (code digits : Nat)

/-- The state of the lexer: the tokens so far, last one first, and the mode. -/
structure Lexer where
  tokens : List JsonToken := []
  mode : Mode := .between

namespace Lexer

/-- Takes a character that is in no token yet. -/
def fresh (tokens : List JsonToken) (c : Char) : Lexer :=
  if isBlank c then ⟨tokens, .between⟩
  else if c = '"' then ⟨tokens, .quoted []⟩
  else
    match ofMark? c with
    | some token => ⟨token :: tokens, .between⟩
    | none => ⟨tokens, .word [c]⟩

/-- Ends a word. -/
def endWord? (tokens : List JsonToken) (sofar : List Char) : Option (List JsonToken) :=
  (ofWord? sofar.reverse).map (· :: tokens)

/-- Takes one more character; `none` if no JSON text goes on like that. -/
def step (s : Lexer) (c : Char) : Option Lexer :=
  match s.mode with
  | .between => some (fresh s.tokens c)
  | .word sofar =>
    if isBlank c || c = '"' || (ofMark? c).isSome then
      (endWord? s.tokens sofar).map (fresh · c)
    else some ⟨s.tokens, .word (c :: sofar)⟩
  | .quoted sofar =>
    if c = '"' then
      let value := (characters? sofar.reverse).map String.ofList
      some ⟨.text value :: s.tokens, .between⟩
    else if c = '\\' then some ⟨s.tokens, .escape sofar⟩
    else if c.toNat < 0x20 then none
    else some ⟨s.tokens, .quoted (.char c :: sofar)⟩
  | .escape sofar =>
    if c = 'u' then some ⟨s.tokens, .hex sofar 0 0⟩
    else (escaped? c).map fun d => ⟨s.tokens, .quoted (.char d :: sofar)⟩
  | .hex sofar code digits => do
    let digit ← Percent.hexValue? c
    let code := code * 16 + digit
    if digits = 3 then some ⟨s.tokens, .quoted (.code code :: sofar)⟩
    else some ⟨s.tokens, .hex sofar code (digits + 1)⟩

/-- The tokens, if the text may end here. -/
def finish? (s : Lexer) : Option (List JsonToken) :=
  match s.mode with
  | .between => some s.tokens.reverse
  | .word sofar => (endWord? s.tokens sofar).map List.reverse
  | _ => none

end Lexer

/-- The tokens of a text. -/
def ofText? (text : List Char) : Option (List JsonToken) := do
  (← text.foldlM Lexer.step {}).finish?

end JsonToken

end ChunkedUpload.Config
