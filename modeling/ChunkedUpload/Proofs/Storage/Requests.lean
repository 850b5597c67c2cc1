import ChunkedUpload.Storage.Store

/-!
# Calls as data

A `Request` is a call with its arguments. It can be made on any store, and sequences of requests can
be compared between stores.
-/

namespace ChunkedUpload

/-- A call on a store with its arguments. -/
inductive Request
  | create (bucket key : String) (data : Bytes) (uncompressed : Bool)
  | createFromReader (bucket key : String) (contents : Reader)
  | compose (bucket : String) (sources : List String) (destination : String)
  | delete (bucket key : String)
  | get (bucket key : String)

/-- What a call answers. -/
inductive Answer
  | stored (object : StoredObject)
  | deleted
  | content (bytes : Bytes)
  deriving DecidableEq, Repr

/-- Makes the call. -/
def Request.run {σ : Type} [ObjectStore σ] : Request → Call σ Answer
  | create bucket key data uncompressed =>
    Answer.stored <$> ObjectStore.create bucket key data uncompressed
  | createFromReader bucket key contents =>
    Answer.stored <$> ObjectStore.createFromReader bucket key contents
  | compose bucket sources destination =>
    Answer.stored <$> ObjectStore.compose bucket sources destination
  | delete bucket key => (fun _ => Answer.deleted) <$> ObjectStore.delete bucket key
  | get bucket key => Answer.content <$> ObjectStore.get bucket key

end ChunkedUpload
