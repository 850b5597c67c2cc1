import ChunkedUpload.Config.Decode
import ChunkedUpload.Config.EnvironmentText
import ChunkedUpload.Config.TomlText
import ChunkedUpload.Config.Wrapped
import ChunkedUpload.Files.Tree

/-!
# Settings of the command line

The configuration comes from a file and from environment variables, which lie over it. A file that
is not there is no error; one that cannot be read is.
-/

namespace ChunkedUpload.CommandLine

open Files (Location Path Tree)

/-- Environment variables, later ones over earlier ones. -/
abbrev Environment := List (String × String)

/-- The configuration file if none is named. -/
def defaultConfigFile : String := "config/stitch.toml"

/-- The variable that names the configuration file. -/
def configVariable : String := "STITCH_CONFIG"

/-- The file that a relative path leads to from a directory or from one above it. -/
def findAbove? (t : Tree) (p : Path) : Location → Option Bytes
  | [] => (({ t with here := [] } : Tree).readFile p).toOption
  | name :: above =>
    match ({ t with here := name :: above } : Tree).readFile p with
    | .ok content => some content
    | .error _ => findAbove? t p above

/-- The content of the configuration file, if there is one. -/
def configFile? (t : Tree) (p : Path) : Option Bytes :=
  match t.entry true p with
  | .error _ => none
  | .ok _ => if p.isAbsolute then (t.readFile p).toOption else findAbove? t p t.here

/-- Why there are no settings. -/
inductive SettingsError
  /-- A source cannot be read, or does not have the shape of a configuration. -/
  | unreadable
  /-- The configuration cannot be used. -/
  | invalid (error : ConfigError)
  /-- A variable has a value that ends the program. -/
  | crashed
  deriving DecidableEq, Repr

/-- The value that a configuration file holds; no file holds no fields. -/
def fileValue? : Option Bytes → Option Config.Value
  | none => some (.table [])
  | some content => do
    Config.Wrapped.unwrapFields? (← Config.Toml.parse? (← Bytes.text? content))

/-- The settings from a file and the environment. -/
def loadSettings (t : Tree) (environment : Environment) (file : Path) :
    Except SettingsError AppConfig := do
  let fields ← (Config.EnvironmentText.fields environment).mapError fun _ => .crashed
  let base ← (fileValue? (configFile? t file)).elim (.error .unreadable) .ok
  let merged := Config.EnvironmentText.merge base fields
  let config ← (AppConfig.ofValue? .passed merged).elim (.error .unreadable) .ok
  match config.validate with
  | .ok () => .ok config
  | .error e => .error (.invalid e)

end ChunkedUpload.CommandLine
