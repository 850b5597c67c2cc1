import ChunkedUpload.Files.TempName
import ChunkedUpload.Files.Tree

/-!
# Listings

A listing has a line for every entry below a directory. Its text is the path of the entry from there
with a mark behind it: a slash for a directory, an at sign for a link. A temporary file shows a star
for its ticket and keeps its content to itself. Lines are in the order of their texts.
-/

namespace ChunkedUpload.Files

/-- A line of a listing. -/
structure ListingLine where
  text : String
  /-- What the file holds, if that is shown. -/
  content : Option Bytes := none
  deriving DecidableEq, Repr

/-- The line for a path and what is there. -/
def ListingLine.of (path : String) : Node → ListingLine
  | .dir => { text := path ++ "/" }
  | .link _ => { text := path ++ "@" }
  | .file content =>
    match TempName.stem? path with
    | some stem => { text := stem ++ TempName.marker ++ "*" }
    | none => { text := path, content := some content }

/-- The lines for all entries below a directory. -/
def Tree.listing (t : Tree) (loc : Location) : List ListingLine :=
  let lines := t.entries.filterMap fun (l, node) =>
    if loc.isSuffixOf l ∧ l ≠ loc then
      some (.of (Path.text (l.take (l.length - loc.length)).reverse) node)
    else none
  lines.mergeSort fun a b => a.text < b.text || a.text = b.text

end ChunkedUpload.Files
