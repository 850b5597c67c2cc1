import ChunkedUpload.Config.Basic
import ChunkedUpload.Storage.Error
import ChunkedUpload.Text.Quoted

/-!
# Addressing an object-storage service

What a client keeps of its settings: where the service is, its region, and what is put in front of
every key.
-/

namespace ChunkedUpload.S3

/-- A client's view of its service. -/
structure Client where
  keyPrefix : Option String
  endpoint : String
  region : String
  deriving DecidableEq, Repr

namespace Client

/-- The region of settings that name none. -/
def defaultRegion : String := "us-east-1"

/-- The text without the slashes at its end. -/
def trimSlashes (text : String) : String :=
  String.ofList (text.toList.reverse.dropWhile (· = '/')).reverse

/-- Whether an address begins with a scheme that the service speaks, in any case. -/
def hasScheme (address : String) : Bool :=
  let lower := address.toList.map Char.toLower
  "http://".toList.isPrefixOf lower || "https://".toList.isPrefixOf lower

/-- An address with a scheme. -/
def withScheme (address : String) : String :=
  if hasScheme address then address else "http://" ++ address

/-- The client for settings whose credentials are whole or absent. -/
def new (settings : ServiceConfig) : Except StorageError Client :=
  match settings.validate with
  | .error e => .error (.config e.reason)
  | .ok () =>
    let region := settings.region.getD defaultRegion
    .ok {
      keyPrefix := settings.keyPrefix.map trimSlashes
      endpoint := (settings.endpoint.map withScheme).getD ("s3." ++ region ++ ".amazonaws.com")
      region }

/-- The key under which the service keeps `key`. -/
def fullKey (c : Client) (key : String) : String :=
  match c.keyPrefix with
  | some keyPrefix => keyPrefix ++ "/" ++ key
  | none => key

/-- The client as text, without its credentials. -/
def describe (c : Client) : String :=
  let keyPrefix := match c.keyPrefix with
    | some keyPrefix => "Some(" ++ Quoted.encode keyPrefix ++ ")"
    | none => "None"
  "S3Backend \x7b prefix: " ++ keyPrefix ++ ", endpoint: " ++ Quoted.encode c.endpoint ++
    ", region: " ++ Quoted.encode c.region ++ ", .. \x7d"

end Client

end ChunkedUpload.S3
