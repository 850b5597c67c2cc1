import ChunkedUpload.CommandLine.Arguments
import ChunkedUpload.CommandLine.Settings
import ChunkedUpload.Storage.Backend
import ChunkedUpload.Upload.Uploader

/-!
# Running a command

`run` does what the arguments ask for: it changes the files of its world and answers what is printed
and how the program ends. A failure is told as a chain of causes, outermost first.
-/

namespace ChunkedUpload.CommandLine

open Files (Path Tree)

/-- What the program finds: its arguments, its environment, its standard input, the files, and the
number of the next temporary name. -/
structure World where
  arguments : List String
  environment : Environment := []
  input : Bytes := []
  tree : Tree
  ticket : Nat := 0

/-- How the program ends. -/
inductive Exit
  | success (output : String)
  /-- A failure with its causes, outermost first. -/
  | failure (causes : List String)
  /-- The arguments were not understood. -/
  | misuse
  | crashed
  deriving DecidableEq, Repr

namespace Exit

/-- The number that the system is told. -/
def code : Exit → Nat
  | success _ => 0
  | failure _ => 1
  | misuse => 2
  | crashed => 101

/-- What is printed on the standard output. -/
def output : Exit → String
  | success output => output
  | _ => ""

end Exit

/-- Name and version of the program. -/
def versionText : String := "stitch 0.1.0\n"

/-- What the program can be told to do. -/
def helpText : String :=
  "Upload streams of unknown length through object store compose\n\n" ++
  "Usage: stitch [OPTIONS] <COMMAND>\n\n" ++
  "Commands:\n" ++
  "  upload   Upload a file (or stdin) to a bucket\n" ++
  "  metrics  Print upload metrics in Prometheus text format\n" ++
  "  help     Print this message or the help of the given subcommand(s)\n\n" ++
  "Options:\n" ++
  "  -c, --config <CONFIG>  Path to configuration file [env: " ++ configVariable ++
    "=] [default: " ++ defaultConfigFile ++ "]\n" ++
  "  -h, --help             Print help\n" ++
  "  -V, --version          Print version\n"

/-- A storage error with the error below it, if there is one. -/
def causesOf (e : StorageError) : List String :=
  match e with
  | .io error => [e.message, error.message]
  | _ => [e.message]

/-- What is printed about an upload that succeeded. -/
def summary (object : StoredObject) (chunkSize limitHits : Nat) : String :=
  "bucket: " ++ object.bucket ++ "\nname: " ++ object.name ++ "\nsize: " ++ object.size.repr ++
    "\nchunk_size: " ++ chunkSize.repr ++ "\ncompose_limit_hits: " ++ limitHits.repr ++ "\n"

/-- The stream of a file, or of the standard input if no file is named. A directory can be opened
but not read. -/
def openInput (t : Tree) (input : Bytes) : Option String → Except IoError Reader.Script
  | none => .ok [.data input none]
  | some file =>
    match t.entry true (Path.ofText file) with
    | .error e => .error e
    | .ok (_, .file content) => .ok [.data content none]
    | .ok _ => .ok [.failForever (.system .isDirectory)]

/-- Uploads to an open store and sweeps what the upload leaves. -/
def uploadTo {σ : Type} [ObjectStore σ] (uploader : Uploader) (request : UploadRequest)
    (store : σ) : Exit × σ :=
  let (ending, uploader, m) := Uploader.upload uploader request (⟨store, {}⟩ : Metered σ)
  let (uploader, m) := uploader.flush m
  let exit := match ending with
    | .stored object => .success (summary object uploader.chunkSize uploader.limitHits)
    | .failed e => .failure ("upload failed" :: e.message :: causesOf e.cause)
    | .cancelled => .crashed
  (exit, m.store)

/-- Uploads a file or the standard input. -/
def upload (w : World) (config : AppConfig) (bucket : Option String) (key : String)
    (file : Option String) : Exit × Tree :=
  match bucket.or config.defaultBucket with
  | none => (.failure ["no bucket given; pass --bucket or set default_bucket"], w.tree)
  | some bucket =>
    match Backend.openAt config.storage ⟨w.tree, w.ticket, {}, false⟩ with
    | (.error e, tree) => (.failure ("failed to initialize storage" :: causesOf e), tree)
    | (.ok backend, tree) =>
      match Uploader.new config.uploader with
      | .error e => (.failure ["failed to create uploader", e.message], tree)
      | .ok uploader =>
        match openInput tree w.input file with
        | .error e => (.failure ["failed to open " ++ file.getD "", e.message], tree)
        | .ok script =>
          let request : UploadRequest := ⟨bucket, key, script⟩
          match backend with
          | .directory store =>
            let (exit, store) := uploadTo uploader request store
            (exit, store.tree)
          | .service store => ((uploadTo uploader request store).1, tree)

/-- The path of the configuration file: from the arguments, the environment, or the default. An
empty path in the environment is refused. -/
def configPath? (w : World) (config : Option String) : Option Path :=
  let text := (config.or (w.environment.lookup configVariable)).getD defaultConfigFile
  if text = "" then none else some (Path.ofText text)

/-- Does what the arguments ask for. -/
def run (w : World) : Exit × Tree :=
  match parse w.arguments with
  | .misuse => (.misuse, w.tree)
  | .version => (.success versionText, w.tree)
  | .help => (.success helpText, w.tree)
  | .run config command =>
    match configPath? w config with
    | none => (.misuse, w.tree)
    | some file =>
      match loadSettings w.tree w.environment file with
      | .error .unreadable => (.failure ["failed to load configuration"], w.tree)
      | .error (.invalid e) => (.failure ["invalid configuration", e.message], w.tree)
      | .error .crashed => (.crashed, w.tree)
      | .ok config =>
        match command with
        | .metrics => (.success ({} : Metrics).exposition, w.tree)
        | .upload bucket key file => upload w config bucket key file

end ChunkedUpload.CommandLine
