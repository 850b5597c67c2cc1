import ChunkedUpload.Reader.Buffer
import ChunkedUpload.S3.Client
import ChunkedUpload.S3.PartSize
import ChunkedUpload.S3.Server
import ChunkedUpload.Storage.Store

/-!
# A store on an object-storage service

The service has no compose, so one is built from a multipart upload whose parts are copies of the
sources; the bytes stay with the service. Sources over 5 GiB are copied in ranges. A stream is sent
as one object if it is shorter than 5 MiB and as a multipart upload otherwise. A multipart upload
that fails is aborted; one that is abandoned is left open.
-/

namespace ChunkedUpload.S3

/-- A client with the service it talks to. -/
structure Store where
  client : Client
  server : Server := {}
  /-- Whether requests get through to the service. -/
  reachable : Bool := true

namespace Store

/-- An error of the service that says nothing about a missing object. -/
def refusal : StorageError := .service "service error"

/-- The same, but a missing object is an error of its own. -/
def refusalOf (key : String) (code : Nat) : StorageError :=
  if code = 404 then .notFound key else refusal

/-- An answer without a tag. -/
def noTag : StorageError := .protocol "S3 did not return an ETag"

/-- An answer without an upload id. -/
def noUploadId : StorageError := .protocol "S3 did not return an upload id"

/-- Sends a request. One without a bucket or a key is not even built. -/
def send (request : Request) : Call Store Response := fun s =>
  if request.bucket = "" ∨ request.key = "" then
    .error (.failed (.service "failed to construct request")) s
  else if s.reachable then
    let (response, server) := s.server.answer request
    .ok response { s with server }
  else .error (.failed (.service "dispatch failure")) s

/-- The key under which the service keeps `key`. -/
def fullKey (key : String) : Call Store String := fun s => .ok (s.client.fullKey key) s

/-- Writes one object with one request. -/
def put (bucket key : String) (data : Bytes) : Call Store StoredObject := do
  match ← send ⟨bucket, ← fullKey key, .put data⟩ with
  | .status _ => Call.fail refusal
  | _ => pure ⟨bucket, key, data.length⟩

/-- The length of an object; a service that does not give it means none. -/
def objectSize (bucket key : String) : Call Store Nat := do
  match ← send ⟨bucket, ← fullKey key, .head⟩ with
  | .length size => pure (size.getD 0)
  | .status code => Call.fail (refusalOf key code)
  | _ => Call.fail refusal

/-- Opens a multipart upload. -/
def startUpload (bucket full : String) : Call Store String := do
  match ← send ⟨bucket, full, .createUpload⟩ with
  | .upload (some id) => pure id
  | .upload none => Call.fail noUploadId
  | _ => Call.fail refusal

/-- Makes an object of the listed parts. -/
def completeUpload (bucket full id : String) (parts : List (Nat × String)) : Call Store Unit := do
  match ← send ⟨bucket, full, .completeUpload id parts⟩ with
  | .status _ => Call.fail refusal
  | _ => pure ()

/-- Drops a multipart upload, whatever the service says to that. -/
def abortUpload (bucket full id : String) (s : Store) : Store :=
  match send ⟨bucket, full, .abortUpload id⟩ s with
  | .ok _ s => s
  | .error _ s => s

/-- Sends one part and answers its tag. -/
def uploadPart (bucket full id : String) (part : Nat) (body : Bytes) : Call Store String := do
  match ← send ⟨bucket, full, .uploadPart id part body⟩ with
  | .part (some tag) => pure tag
  | .part none => Call.fail noTag
  | _ => Call.fail refusal

/-- Copies one part from `source`, or from a range of it, and answers its tag. -/
def copyPart (bucket full id : String) (part : Nat) (source : String)
    (range : Option CopyRange) : Call Store String := do
  let header := bucket ++ "/" ++ Percent.encode (← fullKey source)
  match ← send ⟨bucket, full, .copyPart id part header range⟩ with
  | .part (some tag) => pure tag
  | .part none => Call.fail noTag
  | .status code => Call.fail (refusalOf source code)
  | _ => Call.fail refusal

/-- The outcome of filling a buffer. -/
def filled (x : Reader.Refilled) : Call Store Reader.Refilled :=
  match x.stop with
  | .done => pure x
  | .failed error => Call.fail (.io error)
  | .stalled => throw .abandoned

/-- Sends the stream as parts from `part` on, the first of which is in the buffer already, and
answers all parts and the number of bytes sent. The buffer grows with the part size. -/
def uploadParts (bucket full id : String) (part : Nat) (x : Reader.Refilled)
    (parts : List (Nat × String)) (size : Nat) : Call Store (List (Nat × String) × Nat) :=
  if x.count = 0 then pure (parts, size)
  else
    match _h : checkPartNumber part with
    | .error error => Call.fail error
    | .ok () => do
      let tag ← uploadPart bucket full id part x.chunk
      let next ← filled (Reader.refill (x.buffer.grow (streamPartSize (part + 1))) x.rest)
      uploadParts bucket full id (part + 1) next (parts ++ [(part, tag)]) (size + x.count)
termination_by mostParts + 1 - part
decreasing_by
  have := checkPartNumber_eq_ok_iff.1 _h
  omega

/-- Copies the given ranges of one source as parts from `part` on. -/
def copyRanges (bucket full id source : String) :
    List (Option CopyRange) → Nat → Call Store (List (Nat × String))
  | [], _ => pure []
  | range :: ranges, part => do
    Call.ofExcept (checkPartNumber part)
    let tag ← copyPart bucket full id part source range
    return (part, tag) :: (← copyRanges bucket full id source ranges (part + 1))

/-- The ranges in which an object of `size` bytes is copied; `none` is all of it. -/
def rangesOf (size : Nat) : List (Option CopyRange) :=
  match CopyRange.split? size mostCopied with
  | some ranges => ranges.map some
  | none => [none]

/-- Copies the sources as parts from `part` on. -/
def copyParts (bucket full id : String) :
    List String → Nat → Call Store (List (Nat × String))
  | [], _ => pure []
  | source :: sources, part => do
    let ranges := rangesOf (← objectSize bucket source)
    let parts ← copyRanges bucket full id source ranges part
    return parts ++ (← copyParts bucket full id sources (part + ranges.length))

/-- The service stores bytes as they are sent, so `uncompressed` needs nothing more. -/
def create (bucket key : String) (data : Bytes) (_uncompressed : Bool) :
    Call Store StoredObject :=
  put bucket key data

/-- A stream that ends before its first part is full is sent as one object; any other one is sent in
parts, and the upload is aborted if anything fails. -/
def createFromReader (bucket key : String) (contents : Reader) : Call Store StoredObject := do
  let first ← filled (Reader.refill ⟨streamPartSize 1, []⟩ contents)
  if first.count < leastPartSize then put bucket key first.chunk
  else
    let full ← fullKey key
    let id ← startUpload bucket full
    let size ← Call.onFailure (abortUpload bucket full id) do
      let (parts, size) ← uploadParts bucket full id 1 first [] 0
      completeUpload bucket full id parts
      pure size
    pure ⟨bucket, key, size⟩

/-- The size that is answered is the one that the service reports for the new object. -/
def compose (bucket : String) (sources : List String) (destination : String) :
    Call Store StoredObject := do
  Call.ofExcept (checkSourceCount sources.length)
  let full ← fullKey destination
  let id ← startUpload bucket full
  Call.onFailure (abortUpload bucket full id) do
    let parts ← copyParts bucket full id sources 1
    completeUpload bucket full id parts
  let size ← objectSize bucket destination
  pure ⟨bucket, destination, size⟩

/-- Deleting a missing object succeeds with the service, too. -/
def delete (bucket key : String) : Call Store Unit := do
  match ← send ⟨bucket, ← fullKey key, .delete⟩ with
  | .status _ => Call.fail refusal
  | _ => pure ()

/-- The content of an object, if all of it arrives. -/
def read (bucket key : String) : Call Store Bytes := do
  match ← send ⟨bucket, ← fullKey key, .get⟩ with
  | .content bytes true => pure bytes
  | .content _ false => Call.fail (.service "streaming error")
  | .status code => Call.fail (refusalOf key code)
  | _ => Call.fail refusal

end Store

instance : ObjectStore Store where
  create := Store.create
  createFromReader := Store.createFromReader
  compose := Store.compose
  delete := Store.delete
  get := Store.read

end ChunkedUpload.S3
