import ChunkedUpload.Bytes
import ChunkedUpload.Files.Path
import ChunkedUpload.IoError
import ChunkedUpload.Lookup

/-!
# A tree of files

Directories, files and symbolic links by location. A `Location` lists names innermost first, so that
the entries below a directory are those whose location ends in the directory's. `locate` walks a
path through the tree, link after link; operations on paths are built from it. They answer the error
numbers of the operating system.
-/

namespace ChunkedUpload.Files

/-- Where an entry is: its name, the name of its directory, and so on up to the top, which is `[]`.
No location goes through a link. -/
abbrev Location := List String

/-- An entry of a tree. -/
inductive Node
  | dir
  | file (content : Bytes)
  | link (target : Path)
  deriving DecidableEq, Repr

/-- Entries by location, and the directory at which relative paths start. -/
structure Tree where
  /-- The first entry of a location counts; the top needs none. -/
  entries : List (Location × Node) := []
  here : Location := []
  /-- Where entries were made, replaced or removed so far, the last one first. No operation reads
  it; it tells what operations did on the way, even where a later one undid it. -/
  touched : List Location := []

namespace Tree

/-! ## Entries by location -/

/-- The node at a location. -/
def node? (t : Tree) (loc : Location) : Option Node :=
  if loc = [] then some .dir else t.entries.lookup loc

/-- The tree without the entry at a location. -/
def erase (loc : Location) (t : Tree) : Tree :=
  { t with entries := t.entries.filter (·.1 ≠ loc), touched := loc :: t.touched }

/-- The tree with a node at a location. -/
def insert (loc : Location) (node : Node) (t : Tree) : Tree :=
  { t with entries := (loc, node) :: (t.erase loc).entries, touched := loc :: t.touched }

@[simp] theorem node?_nil (t : Tree) : t.node? [] = some .dir := rfl

@[simp] theorem node?_erase (t : Tree) (a b : Location) :
    (t.erase a).node? b = if b ≠ [] ∧ b = a then none else t.node? b := by
  rw [node?, node?, erase, lookup_filter_ne]
  by_cases hb : b = [] <;> simp [hb]

@[simp] theorem node?_insert (t : Tree) (a b : Location) (node : Node) :
    (t.insert a node).node? b = if b ≠ [] ∧ b = a then some node else t.node? b := by
  rw [node?, node?, insert, List.lookup_cons, erase, lookup_filter_ne]
  by_cases hb : b = a
  · rw [hb, beq_self_eq_true]
    by_cases ha : a = [] <;> simp [ha]
  · rw [beq_false_of_ne hb]
    simp [hb]

/-! ## Walking a path -/

/-- Where a path leads: to an entry, or to a free name in a directory. -/
inductive Spot
  | found (loc : Location) (node : Node)
  | vacant (loc : Location)
  deriving DecidableEq, Repr

/-- The longest name of an entry, in bytes. -/
def nameMax : Nat := 255

/-- A path text must be shorter than this, in bytes. -/
def pathMax : Nat := 4096

/-- The most links that are followed on one walk. -/
def linksMax : Nat := 40

/-- The directory at which a path starts. -/
def start (base : Location) (p : Path) : Location := if p.isAbsolute then [] else base

/-- Walks the pieces from the directory `loc`. A link that is not at the end, or that is at the end
while `follow` is set, is left to `jump`, which gets the directory and the pieces to go on with. -/
def walk (t : Tree) (follow : Bool) (jump : Location → Path → Except Errno Spot) :
    Location → Path → Except Errno Spot
  | loc, [] => .ok (.found loc .dir)
  | loc, piece :: rest =>
    if Path.isBlank piece then walk t follow jump loc rest
    else if piece = ".." then walk t follow jump loc.tail rest
    else if nameMax < piece.utf8ByteSize then .error .nameTooLong
    else
      match t.node? (piece :: loc) with
      | none => if rest = [] then .ok (.vacant (piece :: loc)) else .error .missing
      | some .dir => walk t follow jump (piece :: loc) rest
      | some (.file content) =>
        if rest = [] then .ok (.found (piece :: loc) (.file content)) else .error .notDirectory
      | some (.link target) =>
        if rest = [] ∧ !follow then .ok (.found (piece :: loc) (.link target))
        else jump (start loc target) (target ++ rest)

/-- Walks the pieces from the directory `loc`, following at most `links` links. -/
def locateFrom (t : Tree) (follow : Bool) : (links : Nat) → Location → Path → Except Errno Spot
  | 0 => t.walk follow fun _ _ => .error .tooManyLinks
  | links + 1 => t.walk follow (t.locateFrom follow links)

/-- Refuses texts that no operation takes: one with a NUL character, an empty one, one that is too
long. -/
def checkText (p : Path) : Except IoError Unit :=
  if p.any (·.contains '\x00') then
    .error (.custom .invalidInput "file name contained an unexpected NUL byte")
  else if p.isEmpty then .error (.system .missing)
  else if pathMax ≤ p.width then .error (.system .nameTooLong)
  else .ok ()

/-- Takes an error number for an error. -/
def system {α : Type} : Except Errno α → Except IoError α := Except.mapError .system

/-- Where a path leads. With `follow`, a link at its end is followed, too. -/
def locate (t : Tree) (follow : Bool) (p : Path) : Except IoError Spot := do
  checkText p
  system (t.locateFrom follow linksMax (start t.here p) p)

/-- The entry that a path leads to. -/
def entry (t : Tree) (follow : Bool) (p : Path) : Except IoError (Location × Node) := do
  match ← t.locate follow p with
  | .found loc node => .ok (loc, node)
  | .vacant _ => .error (.system .missing)

/-- The entry itself, a link included. -/
def lstat (t : Tree) (p : Path) : Except IoError Node := (t.entry false p).map (·.2)

/-- The location behind all links. -/
def realpath (t : Tree) (p : Path) : Except IoError Location := (t.entry true p).map (·.1)

/-- Whether a path leads to a directory. -/
def isDir (t : Tree) (p : Path) : Bool :=
  match t.entry true p with
  | .ok (_, .dir) => true
  | _ => false

/-- Where an entry is made or removed: the directory, the last piece, and whether slashes follow
it. -/
structure Slot where
  dir : Location
  name : String
  slash : Bool

namespace Slot

/-- Whether the last piece is not a name of its own in the directory. -/
def isSpecial (s : Slot) : Bool := Path.isBlank s.name || s.name = ".."

/-- The location that the slot is for. -/
def loc (s : Slot) : Location := s.name :: s.dir

end Slot

/-- The slot of a path: all but its last piece must lead to a directory. -/
def slot (t : Tree) (p : Path) : Except IoError Slot := do
  checkText p
  let body := Path.dropEnd (· = "") p
  match ← system (t.locateFrom true linksMax (start t.here p) (body.dropLast ++ ["."])) with
  | .found dir _ => .ok ⟨dir, body.getLast?.getD "", body.length < p.length⟩
  | .vacant _ => .error (.system .missing)

/-- The node in a slot, if there is one. -/
def nodeIn? (t : Tree) (s : Slot) : Except IoError (Option Node) :=
  if nameMax < s.name.utf8ByteSize then .error (.system .nameTooLong) else .ok (t.node? s.loc)

/-! ## Operations on paths -/

/-- Makes a directory. -/
def makeDir (p : Path) (t : Tree) : Except IoError Tree := do
  let s ← t.slot p
  if s.isSpecial then .error (.system .present)
  else
    match ← t.nodeIn? s with
    | some _ => .error (.system .present)
    | none => .ok (t.insert s.loc .dir)

/-- Makes a directory and those above it that are missing, at most `depth` of them. The empty path
is always there. What was made before a failure stays. -/
def makeDirAllFrom : (depth : Nat) → Path → Tree → Except IoError Unit × Tree
  | depth, p, t =>
    if p.isEmpty then (.ok (), t)
    else
      match t.makeDir p with
      | .ok t => (.ok (), t)
      | .error error =>
        if error.kind = .notFound then
          match depth, p.parent? with
          | depth + 1, some above =>
            match makeDirAllFrom depth above t with
            | (.error error, t) => (.error error, t)
            | (.ok (), t) =>
              match t.makeDir p with
              | .ok t => (.ok (), t)
              | .error error => (if t.isDir p then .ok () else .error error, t)
          | _, _ => (.error (.custom .other "failed to create whole tree"), t)
        else (if t.isDir p then .ok () else .error error, t)

/-- Makes a directory and those above it that are missing. -/
def makeDirAll (p : Path) (t : Tree) : Except IoError Unit × Tree :=
  makeDirAllFrom p.length p t

/-- Makes a file, or replaces the content of the one there; a link is followed. -/
def writeFile (p : Path) (content : Bytes) (t : Tree) : Except IoError Tree := do
  match ← t.locate true p with
  | .found _ .dir => .error (.system .isDirectory)
  | .found loc _ | .vacant loc => .ok (t.insert loc (.file content))

/-- The content of a file; a link is followed. -/
def readFile (t : Tree) (p : Path) : Except IoError Bytes := do
  match ← t.entry true p with
  | (_, .file content) => .ok content
  | _ => .error (.system .isDirectory)

/-- Makes a link. -/
def makeLink (p target : Path) (t : Tree) : Except IoError Tree := do
  let s ← t.slot p
  match ← t.nodeIn? s with
  | some _ => .error (.system .present)
  | none => .ok (t.insert s.loc (.link target))

/-- Moves what is not a directory to another path, over any file or link there. -/
def rename (source target : Path) (t : Tree) : Except IoError Tree := do
  let s ← t.slot source
  let d ← t.slot target
  if s.isSpecial ∨ d.isSpecial then .error (.system .busy)
  else
    match ← t.nodeIn? s, ← t.nodeIn? d with
    | none, _ => .error (.system .missing)
    | some node, old =>
      if d.slash then .error (.system .notDirectory)
      else if old = some .dir then .error (.system .isDirectory)
      else .ok ((t.erase s.loc).insert d.loc node)

/-- Removes a file or a link. -/
def removeFile (p : Path) (t : Tree) : Except IoError Tree := do
  let s ← t.slot p
  if s.isSpecial then .error (.system .isDirectory)
  else
    match ← t.nodeIn? s with
    | none => .error (.system .missing)
    | some .dir => .error (.system .isDirectory)
    | some _ => if s.slash then .error (.system .notDirectory) else .ok (t.erase s.loc)

/-- Removes an entry and, if it is a directory, everything below it. -/
def removeAll (p : Path) (t : Tree) : Except IoError Tree := do
  let (loc, _) ← t.entry false p
  let (removed, entries) := t.entries.partition fun e => loc.isSuffixOf e.1
  .ok { t with entries, touched := removed.map (·.1) ++ t.touched }

end Tree

end ChunkedUpload.Files
