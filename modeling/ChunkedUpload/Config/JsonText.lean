import ChunkedUpload.Config.Decode
import ChunkedUpload.Config.JsonToken

/-!
# JSON texts

`parse?` reads a value token by token, with the open lists and tables on a stack, so that nesting
has no limit. `print` writes a value without blanks. `AppConfig.ofJson?` reads a configuration: what
it does not know it passes over unread, but the storage section has to be readable as a whole.
-/

namespace ChunkedUpload.Config.JsonText

/-! ## Reading -/

/-- A list or table that is still open, last item first. -/
inductive Frame
  | list (items : List Value)
  | table (entries : List (Option String × Value))
  /-- A table of which a key was read. -/
  | entry (entries : List (Option String × Value)) (key : Option String)

/-- What may come next. -/
inductive State
  /-- A value. -/
  | expectValue (stack : List Frame)
  /-- A first item, or the end of the list. -/
  | firstItem (stack : List Frame)
  /-- A first key, or the end of the table. -/
  | firstKey (stack : List Frame)
  | expectKey (stack : List Frame)
  | expectColon (stack : List Frame)
  /-- A comma, or the end of the innermost list or table. -/
  | after (stack : List Frame)
  /-- Nothing. -/
  | done (value : Value)

namespace State

/-- Takes a value that is complete. -/
def push? (value : Value) : List Frame → Option State
  | [] => some (.done value)
  | .list items :: stack => some (.after (.list (value :: items) :: stack))
  | .entry entries key :: stack => some (.after (.table ((key, value) :: entries) :: stack))
  | .table _ :: _ => none

/-- Takes the first token of a value. -/
def begin? (stack : List Frame) : JsonToken → Option State
  | .openTable => some (.firstKey (.table [] :: stack))
  | .openList => some (.firstItem (.list [] :: stack))
  | .text (some s) => push? (.text s) stack
  | .text none => push? .unreadable stack
  | .scalar value => push? value stack
  | _ => none

/-- Takes a key into the innermost table. -/
def name? : List Frame → JsonToken → Option State
  | .table entries :: stack, .text key => some (.expectColon (.entry entries key :: stack))
  | _, _ => none

/-- Ends the innermost list or table. -/
def close? : List Frame → JsonToken → Option State
  | .list items :: stack, .closeList => push? (.list items.reverse) stack
  | .table entries :: stack, .closeTable => push? (.table entries.reverse) stack
  | _, _ => none

/-- Takes one more token; `none` if no value goes on like that. -/
def step : State → JsonToken → Option State
  | expectValue stack, token => begin? stack token
  | firstItem stack, token => (close? stack token).or (begin? stack token)
  | firstKey stack, token => (close? stack token).or (name? stack token)
  | expectKey stack, token => name? stack token
  | expectColon stack, .colon => some (expectValue stack)
  | after (.list items :: stack), .comma => some (expectValue (.list items :: stack))
  | after (.table entries :: stack), .comma => some (expectKey (.table entries :: stack))
  | after stack, token => close? stack token
  | _, _ => none

end State

/-- The value that tokens make up. -/
def ofTokens? (tokens : List JsonToken) : Option Value := do
  match ← tokens.foldlM State.step (.expectValue []) with
  | .done value => some value
  | _ => none

/-- The value that a text holds. -/
def parse? (text : String) : Option Value := do
  ofTokens? (← JsonToken.ofText? text.toList)

/-! ## Writing -/

/-- How one character is written between quotation marks. -/
def escape (c : Char) : List Char :=
  match Escape.letter? c with
  | some letter => ['\\', letter]
  | none =>
    if 0x20 ≤ c.toNat then [c]
    else ['\\', 'u', '0', '0', Nat.digitChar (c.toNat / 16), Nat.digitChar (c.toNat % 16)]

/-- A quoted text. -/
def quote (s : String) : List Char := '"' :: s.toList.flatMap escape ++ ['"']

mutual

/-- The text of a value. What is not a value of JSON is written as null. -/
def write : Value → List Char
  | .null | .fraction | .unreadable => "null".toList
  | .bool true => "true".toList
  | .bool false => "false".toList
  | .whole n => (toString n).toList
  | .count n => n.repr.toList
  | .text s => quote s
  | .char c => quote c.toString
  | .list items => '[' :: writeItems items ++ [']']
  | .table entries => '\x7b' :: writeEntries entries ++ ['\x7d']

/-- Items with commas between them. -/
def writeItems : List Value → List Char
  | [] => []
  | [item] => write item
  | item :: next :: items => write item ++ ',' :: writeItems (next :: items)

/-- Entries with commas between them. -/
def writeEntries : List (Option String × Value) → List Char
  | [] => []
  | [(key, value)] => quote (key.getD "") ++ ':' :: write value
  | (key, value) :: next :: entries =>
    quote (key.getD "") ++ ':' :: write value ++ ',' :: writeEntries (next :: entries)

end

/-- The text of a value. -/
def print (v : Value) : String := String.ofList (write v)

end ChunkedUpload.Config.JsonText

namespace ChunkedUpload

open Config (Value)

/-- How deep a storage section may be nested. -/
def Config.storageDepth : Nat := 126

/-- The storage sections of a configuration. -/
def Config.storageSections : Value → List Value
  | .table entries => Value.under "storage" entries
  | .list items => items[1]?.toList
  | _ => []

/-- Reads a configuration from a JSON text. -/
def AppConfig.ofJson? (text : String) : Option AppConfig := do
  let v ← Config.JsonText.parse? text
  if (Config.storageSections v).all (Value.isReadable Config.storageDepth) then
    AppConfig.ofValue? .refused v
  else none

/-- The JSON text of a configuration. -/
def AppConfig.toJson (c : AppConfig) : String := Config.JsonText.print c.toValue

end ChunkedUpload
