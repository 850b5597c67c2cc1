import ChunkedUpload.Config.Value
import ChunkedUpload.Text.Binary64
import ChunkedUpload.Text.Escape
import ChunkedUpload.Text.Scan

/-!
# Numbers, dates and texts of TOML

Every number, truth value and date is a run of characters none of which may follow it, so such a
run is taken whole and then read. Texts come quoted in four ways.
-/

namespace ChunkedUpload.Config.Toml

/-! ## Characters -/

/-- A blank that ends no line. -/
def isBlank (c : Char) : Bool := c = ' ' || c = '\t'

/-- A character that a comment or a literal text may hold: no control character but the tab. -/
def isPlain (c : Char) : Bool := c = '\t' || (0x20 ≤ c.toNat && c.toNat ≠ 0x7f)

/-- A character of an unquoted key. -/
def isBare (c : Char) : Bool := c.isAlphanum || c = '_' || c = '-'

/-- A character of a number, a truth value or a date. -/
def isScalar (c : Char) : Bool := isBare c || c = '+' || c = '.' || c = ':'

/-! ## Numbers -/

/-- Digits of a class with single underscores between them, without the underscores. -/
def digits? (isDigit : Char → Bool) (cs : List Char) : Option (List Char) :=
  let groups := cs.splitOn '_'
  if groups.all (fun group => group ≠ [] && group.all isDigit) then some groups.flatten else none

/-- Decimal digits that do not start with a needless zero. -/
def decimal? (cs : List Char) : Option Nat := do
  let digits ← digits? Char.isDigit cs
  if digits.head? = some '0' ∧ cs.length ≠ 1 then none
  else some (Nat.ofDigitChars 10 digits 0)

/-- Digits to a base up to 16. -/
def based? (base : Nat) (cs : List Char) : Option Nat := do
  let digits ← digits? (fun c => (Percent.hexValue? c).any (· < base)) cs
  some (digits.foldl (fun n c => n * base + (Percent.hexValue? c).getD 0) 0)

/-- Takes a sign; `true` for a minus. -/
def signOf : List Char → Bool × List Char
  | '-' :: cs => (true, cs)
  | '+' :: cs => (false, cs)
  | cs => (false, cs)

/-- A whole number of 64 bits. -/
def whole? (cs : List Char) : Option Value := do
  let n : Int ← match cs with
    | '0' :: 'x' :: cs => (based? 16 cs).map Int.ofNat
    | '0' :: 'o' :: cs => (based? 8 cs).map Int.ofNat
    | '0' :: 'b' :: cs => (based? 2 cs).map Int.ofNat
    | cs =>
      let (negative, cs) := signOf cs
      (decimal? cs).map fun n => if negative then -n else n
  if -0x8000000000000000 ≤ n ∧ n < 0x8000000000000000 then some (.whole n) else none

/-- A number with a fraction, an exponent or both. Only a positive one may be too large. -/
def fraction? (cs : List Char) : Option Value := do
  let (negative, cs) := signOf cs
  if cs = "inf".toList ∨ cs = "nan".toList then some .fraction
  else
    let isMark := fun c => c = 'e' || c = 'E'
    let mantissa := cs.takeWhile (!isMark ·)
    let exponent := (cs.dropWhile (!isMark ·)).drop 1
    let hasExponent := mantissa.length < cs.length
    let whole ← decimal? (mantissa.takeWhile (· ≠ '.'))
    let places := (mantissa.dropWhile (· ≠ '.')).drop 1
    let hasPlaces := mantissa.contains '.'
    let places ← if hasPlaces then digits? Char.isDigit places else some []
    let (lower, exponent) := signOf exponent
    let exponent ← if hasExponent then digits? Char.isDigit exponent else some []
    if !hasPlaces && !hasExponent then none
    else
      let significand := Nat.ofDigitChars 10 places whole
      let size : Int := Nat.ofDigitChars 10 exponent 0
      let shift := (if lower then -size else size) - places.length
      if !negative && Binary64.decimalOverflows significand shift then none else some .fraction

/-! ## Dates and times -/

/-- A number of exactly `count` digits. -/
def field? (count : Nat) (cs : List Char) : Option Nat :=
  if cs.length = count ∧ cs.all Char.isDigit then some (Nat.ofDigitChars 10 cs 0) else none

/-- How many days a month has. -/
def daysIn (year month : Nat) : Nat :=
  if month = 2 then
    if year % 4 = 0 ∧ (year % 100 ≠ 0 ∨ year % 400 = 0) then 29 else 28
  else if month = 4 ∨ month = 6 ∨ month = 9 ∨ month = 11 then 30
  else 31

/-- Whether the text is a date: year, month and day. -/
def isDate (cs : List Char) : Bool :=
  match cs.splitOn '-' with
  | [y, m, d] =>
    match field? 4 y, field? 2 m, field? 2 d with
    | some y, some m, some d => 1 ≤ m && m ≤ 12 && 1 ≤ d && d ≤ daysIn y m
    | _, _, _ => false
  | _ => false

/-- Whether the text is a second, perhaps with a fraction. -/
def isSecond (cs : List Char) : Bool :=
  (field? 2 (cs.takeWhile (· ≠ '.'))).any (· ≤ 60) &&
    match cs.dropWhile (· ≠ '.') with
    | [] => true
    | _ :: places => places ≠ [] && places.all Char.isDigit

/-- Whether the text is a time: hour, minute and second. -/
def isTime (cs : List Char) : Bool :=
  match cs.splitOn ':' with
  | [h, m, s] => (field? 2 h).any (· ≤ 23) && (field? 2 m).any (· ≤ 59) && isSecond s
  | _ => false

/-- Whether the text is an offset from world time. -/
def isOffset : List Char → Bool
  | [] => true
  | ['Z'] | ['z'] => true
  | sign :: cs =>
    (sign = '+' || sign = '-') &&
      match cs.splitOn ':' with
      | [h, m] => (field? 2 h).any (· ≤ 23) && (field? 2 m).any (· ≤ 59)
      | _ => false

/-- Whether the text is a date, a time, or both with or without an offset. -/
def isMoment (cs : List Char) : Bool :=
  isDate cs || isTime cs ||
    (isDate (cs.take 10) &&
      match cs.drop 10 with
      | mark :: cs =>
        let inTime := fun c => c.isDigit || c = ':' || c = '.'
        (mark = 'T' || mark = 't' || mark = ' ') && isTime (cs.takeWhile inTime) &&
          isOffset (cs.dropWhile inTime)
      | [] => false)

/-- The key under which a date stands in a table of its own. -/
def momentKey : String := "$__toml_private_datetime"

/-- A date as a value. -/
def moment? (cs : List Char) : Option Value :=
  if isMoment cs then some (.table [(some momentKey, .text (String.ofList cs))]) else none

/-! ## Scalars -/

/-- The value that a run of characters is. -/
def scalarOf? (cs : List Char) : Option Value :=
  if cs = "true".toList then some (.bool true)
  else if cs = "false".toList then some (.bool false)
  else (moment? cs).or ((whole? cs).or (fraction? cs))

/-- Whether a time follows after a blank. -/
def timeFollows : List Char → Bool
  | ' ' :: a :: b :: ':' :: _ => a.isDigit && b.isDigit
  | _ => false

/-- Takes a number, a truth value or a date. A date may have a blank before its time. -/
def scalar : Scan Value := do
  let run ← Scan.takeWhile isScalar
  if isDate run && timeFollows (← get) then
    let blank ← Scan.next
    let time ← Scan.takeWhile isScalar
    liftM (scalarOf? (run ++ blank :: time))
  else liftM (scalarOf? run)

/-! ## Texts -/

/-- Takes what follows a backslash. -/
def escape : Scan Char := do
  let c ← Scan.next
  let digits := fun count => do
    let cs ← get
    set (cs.drop count)
    if cs.length < count then Scan.refuse
    else liftM (Escape.ofHex? (cs.take count))
  if c = 'u' then digits 4
  else if c = 'U' then digits 8
  else liftM (Escape.ofLetter? c)

/-- Takes one character of a text on one line in double quotes. -/
def basicChar : Scan Char := do
  let c ← Scan.next
  if c = '\\' then escape else if isPlain c then pure c else Scan.refuse

/-- Takes one plain character. -/
def literalChar : Scan Char := do
  let c ← Scan.next
  if isPlain c then pure c else Scan.refuse

/-- Takes the end of a line. -/
def newline : Scan Unit := do
  if ← Scan.eats "\n" then pure () else Scan.eatText "\r\n"

/-- Whether a line ends here. If it does, the end is taken. -/
def newlines : Scan Bool := do
  if ← Scan.eats "\n" then pure true else Scan.eats "\r\n"

/-- Takes the blanks and line ends behind a backslash at the end of a line. -/
def continueLine : Scan Unit := do
  Scan.skipWhile isBlank
  newline
  let rest ← get
  let _ ← Scan.manyUntil
    (do return (← Scan.peek).all fun c => !(isBlank c || c = '\n' || c = '\r'))
    (do if ← newlines then pure () else Scan.eat ' ' <|> Scan.eat '\t') rest.length

/-- Takes a piece of a text on several lines: a character, the end of a line, or, if there are
escapes, an escape or a line end that stands for nothing. -/
def blockPiece (escapes : Bool) : Scan (List Char) := do
  if ← newlines then pure ['\n']
  else
    let c ← Scan.next
    if c = '\\' && escapes then
      match ← Scan.peek with
      | some d =>
        if isBlank d || d = '\n' || d = '\r' then
          continueLine
          pure []
        else return [← escape]
      | none => Scan.refuse
    else if isPlain c then pure [c]
    else Scan.refuse

/-- Takes up to `count` quotes. -/
def quotesUpTo (quote : Char) : (count : Nat) → Scan (List Char)
  | 0 => pure []
  | count + 1 => do
    if ← Scan.eats (String.ofList [quote]) then
      return quote :: (← quotesUpTo quote count)
    else pure []

/-- Takes the rest of a text on several lines. The first three quotes end it, but up to two that
follow them belong to it. -/
def block (quote : Char) (escapes : Bool) : Scan String := do
  let _ ← newlines
  let marks := String.ofList [quote, quote, quote]
  let pieces ← Scan.manyUntil (Scan.eats marks) (blockPiece escapes) (← Scan.left)
  let extra ← quotesUpTo quote 2
  pure (String.ofList (pieces.flatten ++ extra))

/-- Takes the rest of a text on one line. -/
def line (quote : Char) (char : Scan Char) : Scan String := do
  let cs ← Scan.manyUntil (Scan.eats (String.ofList [quote])) char (← Scan.left)
  pure (String.ofList cs)

/-- Takes a quoted text on one line. -/
def quotedLine : Scan String := do
  if ← Scan.eats "\"" then line '"' basicChar
  else
    Scan.eatText "'"
    line '\'' literalChar

/-- Takes a quoted text. -/
def quoted : Scan String := do
  if ← Scan.eats "\"\"\"" then block '"' true
  else if ← Scan.eats "'''" then block '\'' false
  else quotedLine

end ChunkedUpload.Config.Toml
