/-!
# Path texts

A path is kept as the pieces between its slashes, empty ones included, so no slash of its text is
lost: `"/a//b/"` is `["", "a", "", "b", ""]`. A first empty piece makes a path absolute; other empty
pieces and `"."` name nothing. What a path means is decided by a tree, not here.
-/

namespace ChunkedUpload.Files

/-- The pieces between the slashes of a path text. -/
abbrev Path := List String

namespace Path

/-- The pieces of a text. -/
def ofText (text : String) : Path := (text.toList.splitOn '/').map String.ofList

/-- The text of the pieces. -/
def text (p : Path) : String := "/".intercalate p

/-- How many bytes the text has. -/
def width (p : Path) : Nat := p.text.utf8ByteSize

/-- Whether the text is empty. -/
def isEmpty (p : Path) : Bool := p.all (· = "") && p.length ≤ 1

/-- Whether the text starts with a slash. -/
def isAbsolute (p : Path) : Bool := p.head? = some "" && 1 < p.length

/-- Whether a piece names nothing. -/
def isBlank (piece : String) : Bool := piece = "" || piece = "."

/-- The pieces without those at the end that `drop` holds of. -/
def dropEnd (drop : String → Bool) (p : Path) : Path := (p.reverse.dropWhile drop).reverse

/-- One path after another; a slash between them is added unless there is one. -/
def join (p q : Path) : Path :=
  if q.isAbsolute then q
  else if p.getLast? = some "" then p.dropLast ++ q else p ++ q

/-- The last piece that names something, `none` if there is none or it is `".."`. -/
def fileName? (p : Path) : Option String :=
  match (dropEnd isBlank p).getLast? with
  | some name => if name = ".." then none else some name
  | none => none

/-- What stands before the last piece that names something. `"."` alone is a piece of its own at
the start of a relative path. -/
def parent? (p : Path) : Option Path :=
  let start := if p.isAbsolute then ["", ""] else if p.head? = some "." then ["."] else [""]
  match dropEnd isBlank p with
  | [] => if p.head? = some "." then some [""] else none
  | named =>
    match dropEnd isBlank named.dropLast with
    | [] => some start
    | above => some above

/-- The same directory with another name at the end. -/
def withFileName (name : String) (p : Path) : Path :=
  match p.fileName?, p.parent? with
  | some _, some above => above.join [name]
  | _, _ => p.join [name]

/-- Whether every component names something below the start of a relative path: empty pieces and
inner dots are not components, a leading dot is. -/
def isPlainRelative (p : Path) : Bool :=
  !p.isAbsolute && p.head? ≠ some "." && p.all (· ≠ "..")

end Path

end ChunkedUpload.Files
