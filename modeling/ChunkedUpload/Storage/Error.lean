import ChunkedUpload.IoError

/-!
# Failures of an object store

The causes for which a store refuses a call, and the wording of each.
-/

namespace ChunkedUpload

/-- Why a call to an object store failed. -/
inductive StorageError
  /-- There is no object under this key. -/
  | notFound (key : String)
  | io (error : IoError)
  /-- The object-storage service or the way to it failed. -/
  | service (failure : String)
  | invalidKey (reason : String)
  /-- A compose named no source, or more than the limit. -/
  | composeLimit (count limit : Nat)
  /-- The service left out something that its answer must have. -/
  | protocol (missing : String)
  | tooLarge (reason : String)
  | config (reason : String)
  deriving DecidableEq, Repr

namespace StorageError

/-- What the caller is shown. -/
def message : StorageError → String
  | notFound key => "object not found: " ++ key
  | io error => "I/O error: " ++ error.message
  | service failure => "S3 error: " ++ failure
  | invalidKey reason => "invalid key: " ++ reason
  | composeLimit count limit =>
    "compose request references " ++ count.repr ++ " sources (limit: " ++ limit.repr ++ ")"
  | protocol missing => "unexpected response from object store: " ++ missing
  | tooLarge reason => "object too large: " ++ reason
  | config reason => "configuration error: " ++ reason

end StorageError

end ChunkedUpload
