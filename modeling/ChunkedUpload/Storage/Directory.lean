import ChunkedUpload.Files.TempName
import ChunkedUpload.Files.Tree
import ChunkedUpload.Reader.Drain
import ChunkedUpload.Storage.Store

/-!
# A store in files

Objects are files below a root directory, one directory for each bucket. A new object is written
under a temporary name beside its target and moved into place at the end, so nobody sees half of
one. Before anything is done, the nearest entry above the target that exists must lie inside the
root behind all links, so that no link leads a write out of it.
-/

namespace ChunkedUpload

open Files (Location Node Path Tree)

/-- A store below `root` in a tree. -/
structure Directory where
  tree : Tree
  root : Path
  /-- The number from which the next temporary name is made. -/
  ticket : Nat := 0

namespace Directory

/-! ## Addressing -/

/-- Whether two dots follow one another somewhere. -/
def hasDoubleDot : List Char → Bool
  | '.' :: '.' :: _ => true
  | _ :: r => hasDoubleDot r
  | [] => false

/-- A bucket is the name of one directory. -/
def checkBucket (bucket : String) : Except StorageError Unit :=
  if bucket = "" ∨ bucket.contains '/' ∨ bucket.contains '\\' ∨ bucket = "." ∨ bucket = ".." then
    .error (.invalidKey ("invalid bucket name: " ++ bucket))
  else .ok ()

/-- A key stays below its bucket as far as its text tells. -/
def checkKey (key : String) : Except StorageError Unit :=
  if key = "" ∨ hasDoubleDot key.toList ∨ key.toList.head? = some '/' ∨
      key.toList.head? = some '\\' then
    .error (.invalidKey ("path traversal not allowed: " ++ key))
  else if !(Path.ofText key).isPlainRelative then
    .error (.invalidKey ("contains unsafe path component: " ++ key))
  else .ok ()

/-- The path of an object. -/
def pathOf (root : Path) (bucket key : String) : Path :=
  (root.join (Path.ofText bucket)).join (Path.ofText key)

/-- The first entry that exists among a path and the paths above it, at most `depth` of them. A
path of which a part is missing counts as not there. -/
def nearest? (t : Tree) : (depth : Nat) → Path → Except IoError (Option (Path × Node))
  | depth, p =>
    match t.lstat p with
    | .ok node => .ok (some (p, node))
    | .error error =>
      if error.kind = .notFound then
        match depth, p.parent? with
        | depth + 1, some above => nearest? t depth above
        | _, _ => .ok none
      else .error error

/-- What is said when the root cannot be resolved. -/
def rootError (error : IoError) : StorageError :=
  .io (.custom error.kind ("failed to canonicalize root: " ++ error.message))

/-- Whether an entry may be reached under `key`: it must resolve to a place inside the root. -/
def checkInside (t : Tree) (root : Location) (key : String) (p : Path) (node : Node) :
    Except StorageError Unit :=
  match t.realpath p, node with
  | .error _, .link _ => .error (.invalidKey ("symlink target missing or invalid: " ++ key))
  | .error error, _ => .error (.io error)
  | .ok loc, _ =>
    if root.isSuffixOf loc then .ok ()
    else .error (.invalidKey ("resolved path escapes storage root: " ++ key))

/-- The path of an object, if bucket and key are valid and no link leads it out of the root. -/
def objectPath (d : Directory) (bucket key : String) : Except StorageError Path := do
  checkBucket bucket
  checkKey key
  let path := pathOf d.root bucket key
  let root ← (d.tree.realpath d.root).mapError rootError
  match ← (nearest? d.tree path.length path).mapError .io with
  | none => .ok path
  | some (p, node) =>
    checkInside d.tree root key p node
    .ok path

/-! ## Writing -/

/-- An operation on the tree. -/
def onTree (operation : Tree → Except IoError Tree) : Call Directory Unit := fun d =>
  match operation d.tree with
  | .ok tree => .ok () { d with tree }
  | .error error => .error (.failed (.io error)) d

/-- Makes the directory of a path, and those above it. -/
def ensureParent (p : Path) : Call Directory Unit := fun d =>
  match p.parent? with
  | none => .ok () d
  | some above =>
    match d.tree.makeDirAll above with
    | (.ok (), tree) => .ok () { d with tree }
    | (.error error, tree) => .error (.failed (.io error)) { d with tree }

/-- A new temporary path beside `p`. -/
def tempPath (p : Path) : Call Directory Path := fun d =>
  .ok (p.withFileName (Files.TempName.of (p.fileName?.getD "") d.ticket))
    { d with ticket := d.ticket + 1 }

/-- Removes a temporary file, if that can be done. -/
def discardTemp (temp : Path) (d : Directory) : Directory :=
  match d.tree.removeFile temp with
  | .ok tree => { d with tree }
  | .error _ => d

/-- Makes an empty temporary file beside `p`, lets `fill` write it, and moves it into place. If
anything fails, the temporary file goes. Answers the size that `fill` answers. -/
def replaceFile (p : Path) (fill : Path → Call Directory Nat) : Call Directory Nat := do
  ensureParent p
  let temp ← tempPath p
  onTree (Tree.writeFile temp [])
  Call.onFailure (discardTemp temp) do
    let size ← fill temp
    onTree (Tree.rename temp p)
    pure size

/-- Writes bytes that are there as a whole. -/
def writeAll (content : Call Directory Bytes) (temp : Path) : Call Directory Nat := do
  let bytes ← content
  onTree (Tree.writeFile temp bytes)
  pure bytes.length

/-- Writes what each read hands out behind what was `written` before, up to the next read without
any bytes. Like `Reader.drain` it reads again after an interruption. -/
def copyFrom (temp : Path) (written : Bytes) (r : Reader) : Call Directory Nat :=
  match _h : r.read Reader.transferSize with
  | (.bytes [], _) => pure written.length
  | (.bytes (b :: bs), rest) => do
    onTree (Tree.writeFile temp (written ++ b :: bs))
    copyFrom temp (written ++ b :: bs) rest
  | (.failed error, rest) =>
    if error.kind = .interrupted then
      if rest.script.length < r.script.length then copyFrom temp written rest
      else throw .abandoned
    else Call.fail (.io error)
  | (.stalled, _) => throw .abandoned
termination_by (r.remaining, r.script.length)
decreasing_by
  · have := Reader.remaining_of_read _h
    simp only [List.length_cons] at this
    exact Prod.Lex.left _ _ (by omega)
  · rw [Reader.remaining_of_read_failed _h]
    exact Prod.Lex.right _ ‹_›

/-- Files hold bytes as they are, so `uncompressed` needs nothing more. -/
def create (bucket key : String) (data : Bytes) (_uncompressed : Bool) :
    Call Directory StoredObject := do
  let path ← Call.ofExcept (objectPath (← get) bucket key)
  let size ← replaceFile path (writeAll (pure data))
  pure ⟨bucket, key, size⟩

/-- The stream is copied to the temporary file as it comes. If it fails, the object stays as it
was. -/
def createFromReader (bucket key : String) (contents : Reader) :
    Call Directory StoredObject := do
  let path ← Call.ofExcept (objectPath (← get) bucket key)
  let size ← replaceFile path fun temp => copyFrom temp [] contents
  pure ⟨bucket, key, size⟩

/-- The content of an object; a missing file is a missing object. -/
def contentOf (t : Tree) (key : String) (p : Path) : Except StorageError Bytes :=
  (t.readFile p).mapError fun error =>
    if error.kind = .notFound then .notFound key else .io error

/-- The contents of several objects one after another. -/
def gather (t : Tree) : List (String × Path) → Except StorageError Bytes
  | [] => .ok []
  | (key, p) :: others => do
    let content ← contentOf t key p
    let rest ← gather t others
    .ok (content ++ rest)

/-- The paths of several objects with their keys. -/
def objectPaths (d : Directory) (bucket : String) :
    List String → Except StorageError (List (String × Path))
  | [] => .ok []
  | key :: keys => do
    let path ← d.objectPath bucket key
    let paths ← objectPaths d bucket keys
    .ok ((key, path) :: paths)

/-- All sources are read before the target is replaced, so it may be one of them. -/
def compose (bucket : String) (sources : List String) (destination : String) :
    Call Directory StoredObject := do
  Call.ofExcept (checkSourceCount sources.length)
  let paths ← Call.ofExcept (objectPaths (← get) bucket sources)
  let path ← Call.ofExcept (objectPath (← get) bucket destination)
  let size ← replaceFile path (writeAll do Call.ofExcept (gather (← get).tree paths))
  pure ⟨bucket, destination, size⟩

/-- Deleting a missing file succeeds. -/
def delete (bucket key : String) : Call Directory Unit := do
  let path ← Call.ofExcept (objectPath (← get) bucket key)
  fun d =>
    match d.tree.removeFile path with
    | .ok tree => .ok () { d with tree }
    | .error error =>
      if error.kind = .notFound then .ok () d else .error (.failed (.io error)) d

/-- The content of an object that is reached inside the root. -/
def read (bucket key : String) : Call Directory Bytes := do
  let path ← Call.ofExcept (objectPath (← get) bucket key)
  Call.ofExcept (contentOf (← get).tree key path)

/-- The store below `root`, which is made if it is missing. The tree is answered in any case. -/
def openAt (root : Path) (tree : Tree) (ticket : Nat) : Except StorageError Directory × Tree :=
  match tree.makeDirAll root with
  | (.ok (), tree) => (.ok ⟨tree, root, ticket⟩, tree)
  | (.error error, tree) => (.error (.io error), tree)

end Directory

instance : ObjectStore Directory where
  create := Directory.create
  createFromReader := Directory.createFromReader
  compose := Directory.compose
  delete := Directory.delete
  get := Directory.read

end ChunkedUpload
