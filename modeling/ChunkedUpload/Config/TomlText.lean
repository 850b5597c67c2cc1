import ChunkedUpload.Config.TomlScalar
import ChunkedUpload.Config.TomlTable

/-!
# TOML documents

`parse?` reads a whole document: headers, entries, comments and blank lines. Lists and tables within
a line may be nested as deep as `nesting`, and a key may have that many parts.
-/

namespace ChunkedUpload.Config.Toml

/-- How deep values may be nested. -/
def nesting : Nat := 79

/-! ## Keys -/

/-- Takes one part of a key. -/
def keyPart : Scan String := do
  match ← Scan.peek with
  | some '"' | some '\'' => quotedLine
  | _ =>
    let cs ← Scan.takeWhile isBare
    if cs = [] then Scan.refuse else pure (String.ofList cs)

/-- Takes a key with the blanks around its parts. -/
def key : Scan (List String) := do
  let part : Scan String := do
    Scan.skipWhile isBlank
    let part ← keyPart
    Scan.skipWhile isBlank
    pure part
  let first ← part
  let more ← Scan.manyUntil (do return (← Scan.peek) ≠ some '.')
    (do Scan.eat '.'; part) (← Scan.left)
  if nesting < more.length + 1 then Scan.refuse else pure (first :: more)

/-- Takes a key and parts it into the way to its table and its name there. -/
def splitKey : Scan (List String × String) := do
  let parts ← key
  match parts.getLast? with
  | some name => pure (parts.dropLast, name)
  | none => Scan.refuse

/-! ## Values -/

/-- Passes over a comment; the end of its line stays. -/
def comment : Scan Unit := do
  if ← Scan.eats "#" then Scan.skipWhile isPlain

/-- Passes over blanks, line ends and comments. -/
def space : Scan Unit := do
  let isEnd := fun c => !(isBlank c || c = '\n' || c = '\r' || c = '#')
  let _ ← Scan.manyUntil (do return (← Scan.peek).all isEnd)
    (do
      if ← newlines then pure ()
      else
        match ← Scan.peek with
        | some '#' => comment
        | _ => Scan.eat ' ' <|> Scan.eat '\t')
    (← Scan.left)

/-- Takes the items of a list and its end. The last item may have a comma behind it. -/
def items (item : Scan Value) : Scan (List Value) := do
  space
  let values ← Scan.manyUntil (Scan.eats "]")
    (do
      let v ← item
      space
      if ← Scan.eats "," then space
      else if (← Scan.peek) ≠ some ']' then Scan.refuse
      pure v)
    (← Scan.left)
  pure values

/-- Takes the entries of a table on one line and its end. The last entry has no comma behind it. -/
def entries (item : Scan Value) : Scan Value := do
  Scan.skipWhile isBlank
  let entry : Scan (List String × String × Value) := do
    let (path, name) ← splitKey
    Scan.eat '='
    Scan.skipWhile isBlank
    let v ← item
    Scan.skipWhile isBlank
    pure (path, name, v)
  let found ← if ← Scan.eats "\x7d" then pure []
    else
      let first ← entry
      let more ← Scan.manyUntil (Scan.eats "\x7d") (do Scan.eat ','; entry) (← Scan.left)
      pure (first :: more)
  let table ← liftM <| found.foldlM
    (fun (table : Item) (path, name, v) => table.insert? path name v) (Item.empty .explicit)
  pure table.toValue

/-- Takes a value. `inner` takes the values inside a list or a table, if there may be any. -/
def valueWith (inner : Option (Scan Value)) : Scan Value := do
  match ← Scan.peek, inner with
  | some '"', _ | some '\'', _ => return .text (← quoted)
  | some '[', some inner => do
    Scan.eat '['
    return .list (← items inner)
  | some '\x7b', some inner => do
    Scan.eat '\x7b'
    entries inner
  | some '[', none | some '\x7b', none => Scan.refuse
  | _, _ => scalar

/-- Takes a value that is nested at most `depth` deep. -/
def value : (depth : Nat) → Scan Value
  | 0 => valueWith none
  | depth + 1 => valueWith (some (value depth))

/-! ## Documents -/

/-- A document as far as it was read, and the header that its next entries stand below. -/
structure Document where
  root : Item := .empty .explicit
  header : List String := []

/-- Takes what may stand behind an entry or a header: a comment and the end of the line. -/
def lineEnd : Scan Unit := do
  Scan.skipWhile isBlank
  comment
  if (← Scan.peek).isSome then newline

/-- Takes the rest of a header of one table. -/
def header (d : Document) : Scan Document := do
  let (path, name) ← splitKey
  Scan.eat ']'
  lineEnd
  return ⟨← liftM (d.root.open? path name), path ++ [name]⟩

/-- Takes the rest of a header of one table in a list. -/
def listHeader (d : Document) : Scan Document := do
  let (path, name) ← splitKey
  Scan.eatText "]]"
  lineEnd
  return ⟨← liftM (d.root.openNext? path name), path ++ [name]⟩

/-- Takes one entry. -/
def entry (d : Document) : Scan Document := do
  let (path, name) ← splitKey
  Scan.eat '='
  Scan.skipWhile isBlank
  let v ← value nesting
  lineEnd
  return { d with root := ← liftM (d.root.insertBelow? d.header path name v) }

/-- Takes one line. -/
def documentLine (d : Document) : Scan Document := do
  Scan.skipWhile isBlank
  match ← Scan.peek with
  | none => pure d
  | some '#' | some '\n' | some '\r' =>
    lineEnd
    pure d
  | some '[' =>
    if ← Scan.eats "[[" then listHeader d
    else
      Scan.eat '['
      header d
  | _ => entry d

/-- Takes lines to the end of the text. A line takes at least one character, so what is left bounds
their number. -/
def lines : (bound : Nat) → Document → Scan Document
  | bound, d => do
    if (← Scan.peek).isNone then pure d
    else
      match bound with
      | 0 => Scan.refuse
      | bound + 1 => do lines bound (← documentLine d)

/-- The value that a document holds. A mark of the byte order may stand first. -/
def parse? (text : String) : Option Value := do
  let scan : Scan Document := do
    let _ ← Scan.eats "\ufeff"
    lines (← Scan.left) {}
  (← Scan.all? scan text.toList).root.toValue

end ChunkedUpload.Config.Toml
