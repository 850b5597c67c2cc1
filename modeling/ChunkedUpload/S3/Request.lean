import ChunkedUpload.Bytes
import ChunkedUpload.S3.CopyRange

/-!
# Requests to an object-storage service

The requests that a client sends and the answers that a service gives.
-/

namespace ChunkedUpload.S3

/-- What a request asks for, apart from the bucket and key it is about. -/
inductive Action
  | put (body : Bytes)
  | get
  | head
  | delete
  | createUpload
  | uploadPart (upload : String) (part : Nat) (body : Bytes)
  /-- `source` is the bucket, a slash and the percent-encoded key of the object to copy from. -/
  | copyPart (upload : String) (part : Nat) (source : String) (range : Option CopyRange)
  | completeUpload (upload : String) (parts : List (Nat × String))
  | abortUpload (upload : String)
  deriving DecidableEq, Repr

/-- The kinds of action. -/
inductive Operation
  | put
  | get
  | head
  | delete
  | createUpload
  | uploadPart
  | copyPart
  | completeUpload
  | abortUpload
  deriving DecidableEq, Repr

/-- The kind of an action. -/
def Action.operation : Action → Operation
  | put _ => .put
  | get => .get
  | head => .head
  | delete => .delete
  | createUpload => .createUpload
  | uploadPart .. => .uploadPart
  | copyPart .. => .copyPart
  | completeUpload .. => .completeUpload
  | abortUpload _ => .abortUpload

/-- A request about one key of one bucket. -/
structure Request where
  bucket : String
  key : String
  action : Action
  deriving DecidableEq, Repr

/-- The answer to a request. -/
inductive Response
  | done
  /-- The content of an object; `complete` says whether all of it arrived. -/
  | content (bytes : Bytes) (complete : Bool)
  /-- The length of an object, if the service gave it. -/
  | length (size : Option Nat)
  /-- The id of a new multipart upload, if the service gave it. -/
  | upload (id : Option String)
  /-- The tag of a part, if the service gave it. -/
  | part (tag : Option String)
  /-- An HTTP error. -/
  | status (code : Nat)
  deriving DecidableEq, Repr

end ChunkedUpload.S3
