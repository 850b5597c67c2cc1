import ChunkedUpload.Config.Basic
import ChunkedUpload.Config.Value

/-!
# Configurations as values

`AppConfig.ofValue?` reads a configuration from a value, `AppConfig.toValue` writes all its fields.
A record is a table of its fields or the list of them in order. Unknown fields are passed over, a
repeated known one is refused, and missing ones take their defaults. The storage section names its
kind under `type`. What a list has beyond the fields is refused or passed over, as the source of the
value has it; the storage section always refuses it.
-/

namespace ChunkedUpload

open Config (Value)

namespace Config

/-- What becomes of the items that a list has beyond the fields of a record. -/
inductive Surplus
  | refused
  | passed
  deriving DecidableEq, Repr

/-- The fields of a record, in the order of their names; a missing one is `none`. -/
def fieldsOf? (surplus : Surplus) (names : List String) : Value → Option (List (Option Value))
  | .table entries =>
    if entries.all (·.1.isSome) then
      names.mapM fun name =>
        match Value.under name entries with
        | [] => some none
        | [value] => some (some value)
        | _ => none
    else none
  | .list items =>
    if items.length ≤ names.length ∨ surplus = .passed then
      some ((List.range names.length).map (items[·]?))
    else none
  | _ => none

/-- Sizes are below `2^64`. -/
def sizeLimit : Nat := 0x10000000000000000

/-- A size, or `default` if the field is missing. -/
def size? (default : Nat) : Option Value → Option Nat
  | none => some default
  | some (.whole n) => if 0 ≤ n ∧ n < sizeLimit then some n.toNat else none
  | some (.count n) => if n < sizeLimit then some n else none
  | some _ => none

/-- A text that may be missing or null. -/
def optionalText? : Option Value → Option (Option String)
  | none | some .null => some none
  | some (.text s) => some (some s)
  | some _ => none

/-- The same where a single character counts as a text. -/
def optionalName? : Option Value → Option (Option String)
  | some (.char c) => some (some c.toString)
  | field => optionalText? field

/-- A truth value that may be missing but not null. -/
def flag? (default : Bool) : Option Value → Option Bool
  | none => some default
  | some (.bool b) => some b
  | some _ => none

/-- A text that must be there. -/
def text? : Option Value → Option String
  | some (.text s) => some s
  | _ => none

/-- Kinds of storage. -/
inductive StorageKind
  | directory
  | service
  deriving DecidableEq, Repr

namespace StorageKind

/-- The word for a kind. -/
def word : StorageKind → String
  | directory => "filesystem"
  | service => "s3"

/-- The kind that a tag names, by its word or by its place in the list of kinds. -/
def ofTag? : Value → Option StorageKind
  | .text s =>
    if s = directory.word then some directory
    else if s = service.word then some service
    else none
  | .count 0 => some directory
  | .count 1 => some service
  | _ => none

end StorageKind

/-- The name of the field that tells the kind of storage. -/
def kindField : String := "type"

/-- The fields of a directory store. -/
def directoryFields : List String := ["path"]

/-- The fields of a service, the optional texts first. -/
def serviceFields : List String :=
  ["endpoint", "region", "prefix", "access_key_id", "secret_access_key", "force_path_style"]

/-- How many fields of a service a list must give. -/
def serviceFieldsListed : Nat := 5

/-- The settings of a service from its fields in order. -/
def serviceOf? : List (Option Value) → Option ServiceConfig
  | [endpoint, region, keyPrefix, accessKeyId, secretAccessKey, forcePathStyle] => do
    some {
      endpoint := ← optionalText? endpoint
      region := ← optionalText? region
      keyPrefix := ← optionalText? keyPrefix
      accessKeyId := ← optionalText? accessKeyId
      secretAccessKey := ← optionalText? secretAccessKey
      forcePathStyle := ← flag? false forcePathStyle }
  | _ => none

/-- A storage section of a known kind from the rest of its record. -/
def storageOf? : StorageKind → Value → Option StorageConfig
  | .directory, record => do
    match ← fieldsOf? .refused directoryFields record with
    | [path] => (text? path).map .directory
    | _ => none
  | .service, .list items =>
    if items.length < serviceFieldsListed then none
    else do (← fieldsOf? .refused serviceFields (.list items)) |> serviceOf? |>.map .service
  | .service, record => do
    (← fieldsOf? .refused serviceFields record) |> serviceOf? |>.map .service

end Config

open Config

/-- Reads a section of which every field has a default. -/
def UploaderConfig.ofValue? (surplus : Surplus) (v : Value) : Option UploaderConfig := do
  match ← fieldsOf? surplus ["chunk_size"] v with
  | [chunkSize] => (size? ({} : UploaderConfig).chunkSize chunkSize).map UploaderConfig.mk
  | _ => none

/-- Reads a storage section: its kind is under `type` or first in the list. -/
def StorageConfig.ofValue? : Value → Option StorageConfig
  | .table entries =>
    match Value.under kindField entries with
    | [tag] => do storageOf? (← StorageKind.ofTag? tag) (.table entries)
    | _ => none
  | .list (tag :: items) => do storageOf? (← StorageKind.ofTag? tag) (.list items)
  | _ => none

/-- Reads a section, or takes the default if it is missing. -/
def sectionOr {α : Type} (default : α) (read : Value → Option α) : Option Value → Option α
  | none => some default
  | some v => read v

/-- Reads a whole configuration. -/
def AppConfig.ofValue? (surplus : Surplus) (v : Value) : Option AppConfig := do
  match ← fieldsOf? surplus ["uploader", "storage", "default_bucket"] v with
  | [uploader, storage, defaultBucket] =>
    some {
      uploader := ← sectionOr {} (UploaderConfig.ofValue? surplus) uploader
      storage := ← sectionOr ({} : AppConfig).storage StorageConfig.ofValue? storage
      defaultBucket := ← optionalName? defaultBucket }
  | _ => none

namespace Config

/-- A table with texts for keys. -/
def tableOf (fields : List (String × Value)) : Value :=
  .table (fields.map fun (key, value) => (some key, value))

/-- A text, or null. -/
def ofOptional : Option String → Value
  | some s => .text s
  | none => .null

end Config

/-- All fields of the section. -/
def UploaderConfig.toValue (c : UploaderConfig) : Value :=
  tableOf [("chunk_size", .whole c.chunkSize)]

/-- The kind of storage and all fields of that kind; a text that is absent is null. -/
def StorageConfig.toValue : StorageConfig → Value
  | .directory path =>
    tableOf [(kindField, .text StorageKind.directory.word), ("path", .text path)]
  | .service settings =>
    tableOf [(kindField, .text StorageKind.service.word),
      ("endpoint", ofOptional settings.endpoint),
      ("region", ofOptional settings.region),
      ("prefix", ofOptional settings.keyPrefix),
      ("access_key_id", ofOptional settings.accessKeyId),
      ("secret_access_key", ofOptional settings.secretAccessKey),
      ("force_path_style", .bool settings.forcePathStyle)]

/-- All fields of a configuration. -/
def AppConfig.toValue (c : AppConfig) : Value :=
  tableOf [("uploader", c.uploader.toValue), ("storage", c.storage.toValue),
    ("default_bucket", ofOptional c.defaultBucket)]

end ChunkedUpload
