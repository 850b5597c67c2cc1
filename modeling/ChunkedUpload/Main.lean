import ChunkedUpload.CommandLine.Run

/-!
# The program

The outer layer of the command line. It looks at the entries that a command can touch, lets `run`
decide what becomes of them, and makes the changes.
-/

namespace ChunkedUpload.Program

open CommandLine
open Files (Location Node Path Tree)

/-- The text of a location. -/
def textOf (loc : Location) : String := "/" ++ "/".intercalate loc.reverse

/-- Adds the entry at a location to the tree, if there is one. A link is kept with its real
target. -/
def look (t : Tree) (loc : Location) : IO Tree := do
  let path := (← IO.currentDir) / textOf loc
  match ← path.symlinkMetadata.toBaseIO with
  | .error _ => pure t
  | .ok found =>
    match found.type with
    | .dir => pure (t.insert loc .dir)
    | .symlink =>
      let target ← IO.FS.realPath path
      pure (t.insert loc (.link (Path.ofText target.toString)))
    | _ => pure (t.insert loc (.file (← IO.FS.readBinFile path).toList))

/-- Adds all entries on the way of a path, behind links too. -/
partial def lookAlong (t : Tree) (loc : Location) : Path → IO Tree
  | [] => pure t
  | piece :: rest => do
    if Path.isBlank piece then lookAlong t loc rest
    else if piece = ".." then lookAlong t loc.tail rest
    else
      let t ← look t (piece :: loc)
      match t.node? (piece :: loc) with
      | some .dir => lookAlong t (piece :: loc) rest
      | some (.link target) =>
        let isSame := target = "" :: (piece :: loc).reverse
        if isSame then pure t else lookAlong t [] (target ++ rest)
      | _ => pure t

/-- Adds all entries on the way of a path that starts where the program runs. -/
def lookAt (t : Tree) (p : Path) : IO Tree :=
  lookAlong t (if p.isAbsolute then [] else t.here) p

/-- The paths that an upload can touch: the file it reads and every name it can write. -/
def touched (config : AppConfig) (bucket key : String) (file : Option String) : List Path :=
  let objects := match config.storage with
    | .directory root =>
      (List.range composeLimit).map fun n =>
        Directory.pathOf (Path.ofText root) bucket (Part.name key (n + 1))
    | .service _ => []
  (file.map Path.ofText).toList ++ objects

/-- The tree of all entries that a request can touch. -/
def lookAround (w : World) : IO Tree := do
  let mut t ← lookAlong w.tree [] ("" :: w.tree.here.reverse)
  match parse w.arguments with
  | .run config command =>
    let some file := configPath? w config | return t
    if file.isAbsolute then t ← lookAt t file
    else
      for n in List.range (w.tree.here.length + 1) do
        t ← lookAlong t (w.tree.here.drop n) file
    match command, loadSettings t w.environment file with
    | .upload bucket key file, .ok settings =>
      let some bucket := bucket.or settings.defaultBucket | return t
      for p in touched settings bucket key file do
        t ← lookAt t p
      return t
    | _, _ => return t
  | _ => return t

/-- Makes one entry. A file is written beside its place and then moved there. -/
def make (ticket : Nat) (loc : Location) : Node → IO Unit
  | .dir => IO.FS.createDirAll (textOf loc)
  | .file content => do
    let temp := textOf (Files.TempName.of (loc.head?.getD "") ticket :: loc.tail)
    IO.FS.writeBinFile temp content.toByteArray
    IO.FS.rename temp (textOf loc)
  | .link _ => pure ()

/-- Makes the changes between two trees: new directories first, outer before inner ones. -/
def apply (ticket : Nat) (before after : Tree) : IO Unit := do
  let changed := after.entries.filter fun (loc, node) => decide (before.node? loc ≠ some node)
  let byDepth := changed.mergeSort fun a b => a.1.length ≤ b.1.length
  for (loc, node) in byDepth do
    if node = .dir then make ticket loc node
  for (loc, node) in byDepth do
    if node ≠ .dir then make ticket loc node
  for (loc, _) in before.entries do
    if after.node? loc = none then IO.FS.removeFile (textOf loc)

/-- The environment variables of the program. -/
def environment : IO Environment := do
  let bytes := (← IO.FS.readBinFile "/proc/self/environ").toList
  let texts := (bytes.splitOn 0).filterMap Bytes.text?
  return texts.filterMap fun text =>
    let cs := text.toList
    if cs.contains '=' then
      some (String.ofList (cs.takeWhile (· ≠ '=')), String.ofList ((cs.dropWhile (· ≠ '=')).drop 1))
    else none

/-- Whether a request reads the standard input. -/
def readsInput : CommandLine.Request → Bool
  | .run _ (.upload _ _ none) => true
  | _ => false

/-- A chain of causes as text. -/
def failureText : List String → String
  | [] => "Error"
  | [outer] => "Error: " ++ outer
  | [outer, cause] => "Error: " ++ outer ++ "\n\nCaused by:\n    " ++ cause
  | outer :: causes =>
    "Error: " ++ outer ++ "\n\nCaused by:" ++
      String.join (causes.zipIdx.map fun (cause, n) => "\n    " ++ n.repr ++ ": " ++ cause)

/-- Tells how the program ends. -/
def report : Exit → IO Unit
  | .success output => do
    (← IO.getStdout).putStr output
    (← IO.getStdout).flush
  | .failure causes => IO.eprintln (failureText causes)
  | .misuse => IO.eprintln "error: the arguments were not understood\n\nFor more, try '--help'."
  | .crashed => IO.eprintln "error: the program cannot go on"

/-- Runs the program in its surroundings. -/
def perform (arguments : List String) : IO UInt32 := do
  let here := ((Path.ofText (← IO.currentDir).toString).filter (· ≠ "")).reverse
  let random ← IO.getRandomBytes 16
  let ticket := random.toList.foldl (fun n byte => n * 256 + byte.toNat) 0
  let input ← if readsInput (parse arguments) then (← IO.getStdin).readBinToEnd else pure .empty
  let bare : World := {
    arguments, ticket, input := input.toList, environment := ← environment,
    tree := { here } }
  let w := { bare with tree := ← lookAround bare }
  let (exit, tree) := run w
  apply ticket w.tree tree
  report exit
  return exit.code.toUInt32

end ChunkedUpload.Program

/-- Runs the program. -/
def main (arguments : List String) : IO UInt32 := ChunkedUpload.Program.perform arguments
