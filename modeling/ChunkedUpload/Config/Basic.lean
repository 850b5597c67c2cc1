/-!
# Configuration

How large parts are, where objects go, and which bucket a command uses that names none. `validate`
says which configurations can be used.
-/

namespace ChunkedUpload

/-- Why a configuration cannot be used. -/
inductive ConfigError
  | chunkTooSmall (size least : Nat)
  /-- Only one of the two credentials is given. -/
  | halfCredentials
  deriving DecidableEq, Repr

namespace ConfigError

/-- What is wrong, without saying of what. -/
def reason : ConfigError → String
  | chunkTooSmall size least => size.repr ++ " (must be at least " ++ least.repr ++ ")"
  | halfCredentials =>
    "s3 config requires both access_key_id and secret_access_key when either is set"

/-- What the caller is shown. -/
def message : ConfigError → String
  | e@(chunkTooSmall ..) => "invalid chunk size: " ++ e.reason
  | e@halfCredentials => "configuration error: " ++ e.reason

end ConfigError

/-- How an upload cuts its stream. -/
structure UploaderConfig where
  /-- Size of every part but the last, in bytes. -/
  chunkSize : Nat := 5242880
  deriving DecidableEq, Repr

/-- Where an object-storage service is and how it is addressed. -/
structure ServiceConfig where
  endpoint : Option String := none
  region : Option String := none
  /-- Put in front of every key. -/
  keyPrefix : Option String := none
  accessKeyId : Option String := none
  secretAccessKey : Option String := none
  /-- Whether the bucket is part of the path and not of the host name. -/
  forcePathStyle : Bool := false
  deriving DecidableEq, Repr

/-- Where objects go. -/
inductive StorageConfig
  /-- Into files below `path`, with a directory for each bucket. -/
  | directory (path : String)
  | service (settings : ServiceConfig)
  deriving DecidableEq, Repr

/-- A whole configuration. -/
structure AppConfig where
  uploader : UploaderConfig := {}
  storage : StorageConfig := .directory "./data/objects"
  defaultBucket : Option String := none
  deriving DecidableEq, Repr

/-- A part must hold something. -/
def UploaderConfig.validate (c : UploaderConfig) : Except ConfigError Unit :=
  if c.chunkSize = 0 then .error (.chunkTooSmall c.chunkSize 1) else .ok ()

/-- Credentials are given whole or not at all. -/
def ServiceConfig.validate (c : ServiceConfig) : Except ConfigError Unit :=
  if c.accessKeyId.isSome = c.secretAccessKey.isSome then .ok () else .error .halfCredentials

namespace StorageConfig

/-- Any directory will do; a service needs credentials that are whole or absent. -/
def validate : StorageConfig → Except ConfigError Unit
  | directory _ => .ok ()
  | service settings => settings.validate

/-- Whether objects go to a service. -/
def isService : StorageConfig → Bool
  | directory _ => false
  | service _ => true

end StorageConfig

/-- The smallest part, but the last, that an object-storage service composes. -/
def leastServiceChunk : Nat := 5242880

/-- Both halves are valid, and parts are large enough for a service to compose. -/
def AppConfig.validate (c : AppConfig) : Except ConfigError Unit := do
  c.uploader.validate
  c.storage.validate
  if c.storage.isService ∧ c.uploader.chunkSize < leastServiceChunk then
    .error (.chunkTooSmall c.uploader.chunkSize leastServiceChunk)

end ChunkedUpload
