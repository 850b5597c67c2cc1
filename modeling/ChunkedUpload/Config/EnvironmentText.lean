import ChunkedUpload.Config.Value
import ChunkedUpload.Text.Decimal
import ChunkedUpload.Text.Escape
import ChunkedUpload.Text.Scan

/-!
# Configuration in environment variables

A variable whose name starts with `STITCH_` in any case sets one field; `__` in the name leads into
a section. Its value is read as a truth value, a number, a list, a table or a text; what reads as
none of these is a text as it stands. One thing ends the program: a text with escapes that would be
cut in the middle of a character (`unescape`).
-/

namespace ChunkedUpload.Config.EnvironmentText

/-! ## Values -/

/-- A value would be cut in the middle of a character. -/
inductive SplitCharacter
  | beforeEscape
  deriving DecidableEq, Repr

/-- Takes a value from the front of a text, or refuses it, or cannot go on at all. -/
abbrev Reading (α : Type) := ExceptT SplitCharacter Scan α

/-- Blanks around values. -/
def isBlank (c : Char) : Bool :=
  c = ' ' || c = '\t' || c = '\n' || c = '\x0c' || c = '\r'

/-- Blanks that are cut off at both ends of an unquoted value. -/
def isSpace (c : Char) : Bool :=
  let n := c.toNat
  (9 ≤ n && n ≤ 13) || n = 0x20 || n = 0x85 || n = 0xa0 || n = 0x1680 ||
    (0x2000 ≤ n && n ≤ 0x200a) || n = 0x2028 || n = 0x2029 || n = 0x202f || n = 0x205f ||
    n = 0x3000

/-- A text without blanks at its ends. -/
def trim (cs : List Char) : List Char :=
  ((cs.dropWhile isSpace).reverse.dropWhile isSpace).reverse

/-- A character that ends an unquoted value. -/
def isSeparator (c : Char) : Bool :=
  c = ',' || c = '\x7b' || c = '\x7d' || c = '[' || c = ']'

/-- A character of an unquoted key. -/
def isBare (c : Char) : Bool := c.isAlphanum || c = '_' || c = '-'

/-- A whole number that is not negative, with or without a plus. -/
def count? (cs : List Char) : Option Value := do
  let n ← Decimal.digits? (match cs with
    | '+' :: r => r
    | cs => cs)
  if n < 0x10000000000000000 then some (.count n) else none

/-- A whole number with a minus. -/
def negative? : List Char → Option Value
  | '-' :: r => do
    let n ← Decimal.digits? r
    if n ≤ 0x8000000000000000 then some (.whole (-n)) else none
  | _ => none

/-- Takes a sign off a text. -/
def unsigned : List Char → List Char
  | '+' :: r | '-' :: r => r
  | cs => cs

/-- Whether a text with a point in it is a decimal number. -/
def isFraction (cs : List Char) : Bool :=
  let cs := unsigned cs
  let isMark := fun c => c = 'e' || c = 'E'
  let mantissa := cs.takeWhile (!isMark ·)
  let whole := mantissa.takeWhile (· ≠ '.')
  let places := (mantissa.dropWhile (· ≠ '.')).drop 1
  let exponent := match cs.dropWhile (!isMark ·) with
    | [] => true
    | _ :: r => (Decimal.digits? (unsigned r)).isSome
  mantissa.contains '.' && (whole ++ places).all Char.isDigit && whole ++ places ≠ [] && exponent

/-- The value of an unquoted text. -/
def plain (cs : List Char) : Value :=
  let cs := trim cs
  if cs.contains '.' && isFraction cs then .fraction
  else ((count? cs).or (negative? cs)).getD (.text (String.ofList cs))

/-- Whether a character may stand in quotation marks as it is. -/
def isPlain (c : Char) : Bool := c = '\t' || (0x20 ≤ c.toNat && c.toNat ≠ 0x7f)

/-- What a text with escapes stands for. -/
def unescape? : List Char → Option (List Char)
  | [] => some []
  | '\\' :: 'u' :: a :: b :: c :: d :: r => do
    let first ← Escape.ofHex? [a, b, c, d]
    return first :: (← unescape? r)
  | '\\' :: 'U' :: a :: b :: c :: d :: e :: f :: g :: h :: r => do
    let first ← Escape.ofHex? [a, b, c, d, e, f, g, h]
    return first :: (← unescape? r)
  | '\\' :: c :: r => do
    let first ← Escape.ofLetter? c
    return first :: (← unescape? r)
  | c :: r => if c ≠ '\\' ∧ isPlain c then (unescape? r).map (c :: ·) else none

/-- The characters that take the first `size` bytes of a text; `none` if that is in the middle of
one. -/
def takeBytes? : (size : Nat) → List Char → Option (List Char)
  | 0, _ => some []
  | _, [] => none
  | size, c :: r =>
    if c.utf8Size ≤ size then (takeBytes? (size - c.utf8Size) r).map (c :: ·) else none

/-- What a text between quotation marks stands for. Where there is an escape, the text before the
first one loses its end: it keeps as many bytes as it has characters. -/
def unescape (text : List Char) : Reading (List Char) := do
  let before := text.takeWhile (· ≠ '\\')
  let escapes := text.dropWhile (· ≠ '\\')
  if !before.all isPlain then Scan.refuse
  else if escapes = [] then pure before
  else
    match takeBytes? before.length before with
    | none => throw .beforeEscape
    | some kept => return kept ++ (← liftM (unescape? escapes))

/-- Cuts a text at the first quotation mark that is not escaped. -/
def cutQuote? : List Char → Option (List Char × List Char)
  | [] => none
  | '"' :: r => some ([], r)
  | '\\' :: c :: r => (cutQuote? r).map fun (inside, rest) => ('\\' :: c :: inside, rest)
  | c :: r => (cutQuote? r).map fun (inside, rest) => (c :: inside, rest)

/-- Takes a text in quotation marks. -/
def quoted : Reading String := do
  Scan.eat '"'
  let (inside, rest) ← liftM (cutQuote? (← get))
  set rest
  return String.ofList (← unescape inside)

/-- Takes a key of a table, with blanks around it. -/
def key : Reading String := do
  Scan.skipWhile isBlank
  let key ← match ← Scan.peek with
    | some '"' => quoted
    | _ => do
      let cs ← Scan.takeWhile isBare
      if cs = [] then Scan.refuse else pure (String.ofList cs)
  Scan.skipWhile isBlank
  pure key

/-- Takes items with commas between them up to `close`; a comma may stand behind the last. -/
def items {α : Type} (close : String) (item : Reading α) : Reading (List α) := do
  Scan.manyUntil (Scan.eats close)
    (do
      let a ← item
      if (← get).take 1 ≠ close.toList then Scan.eat ','
      pure a)
    (← Scan.left)

/-- The table of entries; of several under one key the last counts. -/
def tableOf (entries : List (String × Value)) : Value :=
  .table (entries.foldl (fun table (key, value) =>
    table.filter (fun e => decide (e.1 ≠ some key)) ++ [(some key, value)]) [])

/-- Takes a value with blanks around it. `inner` takes the values inside a list or a table. -/
def valueWith (inner : Reading Value) : Reading Value := do
  Scan.skipWhile isBlank
  if ← Scan.eats "true" then
    Scan.skipWhile isBlank
    pure (.bool true)
  else if ← Scan.eats "false" then
    Scan.skipWhile isBlank
    pure (.bool false)
  else
    let value ← match ← Scan.peek with
      | some '\x7b' => do
        Scan.eat '\x7b'
        tableOf <$> items "\x7d" do
          let key ← key
          Scan.eat '='
          return (key, ← inner)
      | some '[' => do
        Scan.eat '['
        .list <$> items "]" inner
      | some '"' => .text <$> quoted
      | some '\'' => do
        Scan.eat '\''
        let c ← Scan.next
        Scan.eat '\''
        pure (.char c)
      | _ => plain <$> Scan.takeWhile (!isSeparator ·)
    Scan.skipWhile isBlank
    pure value

/-- Takes a value. Each level of nesting takes a character, so the length of the text bounds it. -/
def value : (depth : Nat) → Reading Value
  | 0 => valueWith Scan.refuse
  | depth + 1 => valueWith (value depth)

/-- The value of a variable. -/
def parse (text : String) : Except SplitCharacter Value :=
  match (value text.length).run text.toList with
  | some (.ok value, []) => .ok value
  | some (.error error, _) => .error error
  | _ => .ok (.text text)

/-! ## Names -/

/-- What the names of variables start with. -/
def namePrefix : List Char := "stitch_".toList

/-- The variable that says where the configuration file is; it is no field. -/
def fileField : List Char := "config".toList

/-- The name without a double underscore, which becomes a point. -/
def pointed : List Char → List Char
  | '_' :: '_' :: r => '.' :: pointed r
  | c :: r => c :: pointed r
  | [] => []

/-- The way to the field that a variable sets, outermost section first; `none` if it sets none.
Blanks around the name and behind the prefix do not count. A name with an empty part sets none. -/
def way? (name : String) : Option (List String) :=
  let lower := (trim name.toList).map Char.toLower
  if !namePrefix.isPrefixOf lower then none
  else
    let field := lower.drop namePrefix.length
    let parts := (pointed (trim field)).splitOn '.'
    if field = fileField ∨ [] ∈ parts then none else some (parts.map String.ofList)

/-- A value at the end of a way. -/
def nest (value : Value) : List String → Value
  | [] => value
  | key :: way => .table [(some key, nest value way)]

mutual

/-- Lays one value over another. Tables are merged; anything else is replaced. -/
def merge (under : Value) : Value → Value
  | .table upper =>
    match under with
    | .table entries => .table (mergeEntries entries upper)
    | _ => .table upper
  | value => value

/-- Lays entries over others. -/
def mergeEntries (under : List (Option String × Value)) :
    List (Option String × Value) → List (Option String × Value)
  | [] => under
  | (key, value) :: upper =>
    let merged := match under.lookup key with
      | some old => merge old value
      | none => value
    mergeEntries (under.filter (fun e => decide (e.1 ≠ key)) ++ [(key, merged)]) upper

end

/-- All fields that variables set. Later variables lie over earlier ones. -/
def fields (environment : List (String × String)) : Except SplitCharacter Value :=
  environment.foldlM (fun fields (name, text) =>
    match way? name with
    | none => .ok fields
    | some way => do return merge fields (nest (← parse text) way)) (.table [])

end ChunkedUpload.Config.EnvironmentText
