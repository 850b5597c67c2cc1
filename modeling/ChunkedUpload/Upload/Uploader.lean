import ChunkedUpload.Cleanup.Queue
import ChunkedUpload.Config.Basic
import ChunkedUpload.Upload.Session

/-!
# Uploading streams

An `Uploader` serves uploads one after another. Each ends with its object stored, with an error, or
cancelled because its stream never answers again; in every case the names of its parts are
submitted for cleanup.
-/

namespace ChunkedUpload

/-- An upload that failed. The caller is not told which step it was. -/
structure UploadError where
  destination : String
  cause : StorageError
  deriving DecidableEq, Repr

/-- What the caller is shown; the cause is told apart from it. -/
def UploadError.message (e : UploadError) : String := "error uploading blob " ++ e.destination

/-- How an upload ends. -/
inductive Ending
  | stored (object : StoredObject)
  | failed (error : UploadError)
  | cancelled
  deriving DecidableEq, Repr

/-- A stream and where to put it. -/
structure UploadRequest where
  bucket : String
  destination : String
  script : Reader.Script

/-- Uploads streams in parts of one size. -/
structure Uploader where
  chunkSize : Nat
  /-- How many uploads came to the compose limit. -/
  limitHits : Nat := 0
  queue : Cleanup.Queue := {}

namespace Uploader

/-- An uploader for valid settings. -/
def new (config : UploaderConfig) : Except ConfigError Uploader :=
  config.validate.map fun _ => ⟨config.chunkSize, 0, {}⟩

variable {σ : Type} [ObjectStore σ]

/-- The session in which `request` is served. -/
def session (u : Uploader) (request : UploadRequest) (m : Metered σ) : Session σ where
  store := m.store
  contents := .buffered request.script
  buffer := ⟨u.chunkSize, []⟩
  metrics := { m.metrics with uploadsStarted := m.metrics.uploadsStarted + 1 }
  limitHits := u.limitHits

/-- The uploader after a session: its parts wait to be swept. -/
def close (u : Uploader) (request : UploadRequest) (s : Session σ) : Uploader where
  chunkSize := u.chunkSize
  limitHits := s.limitHits
  queue := u.queue.submit ⟨request.bucket, request.destination, s.names⟩

/-- Serves one request. Nothing is swept yet. -/
def upload (u : Uploader) (request : UploadRequest) (m : Metered σ) :
    Ending × Uploader × Metered σ :=
  match Session.run request.bucket request.destination (u.session request m) with
  | .ok object s =>
    let metrics := { s.metrics with uploadDurations := s.metrics.uploadDurations + 1 }
    (.stored object, u.close request s, ⟨s.store, metrics⟩)
  | .error (.failed cause) s =>
    let metrics := { s.metrics with uploadFailures := s.metrics.uploadFailures + 1 }
    (.failed ⟨request.destination, cause⟩, u.close request s, ⟨s.store, metrics⟩)
  | .error .abandoned s => (.cancelled, u.close request s, ⟨s.store, s.metrics⟩)

/-- Sweeps the parts of all uploads so far. -/
def flush (u : Uploader) (m : Metered σ) : Uploader × Metered σ :=
  let (queue, m) := u.queue.flush m
  ({ u with queue }, m)

end Uploader

end ChunkedUpload
