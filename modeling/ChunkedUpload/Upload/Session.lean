import ChunkedUpload.Metrics
import ChunkedUpload.Part.Name
import ChunkedUpload.Reader.Buffer
import ChunkedUpload.Storage.Store

/-!
# Cutting one stream into parts

The stream is read into a buffer of the chunk size, and each filling is written as one part. Up to
31 parts are cut that way. If the stream then still holds something, the rest of it is written as
part 32, whatever its length, because a compose takes no more sources. One part alone is the object;
two or more are composed onto the destination.
-/

namespace ChunkedUpload

/-- The state of one upload. -/
structure Session (σ : Type) where
  store : σ
  contents : Reader
  buffer : Reader.Buffer
  /-- The names of the parts whose writing has begun, in order. -/
  names : List String := []
  metrics : Metrics := {}
  /-- How often an upload came to the compose limit. -/
  limitHits : Nat := 0

namespace Session

variable {σ : Type}

/-- A step of an upload. -/
abbrev Step (σ α : Type) := EStateM Halt (Session σ) α

/-- What an upload has written so far. -/
inductive Written
  | nothing
  /-- One part, which is at the destination already. -/
  | single (object : StoredObject)
  /-- Two or more parts, to be composed. -/
  | several
  deriving DecidableEq, Repr

/-- With one more part. -/
def Written.add (object : StoredObject) : Written → Written
  | nothing => single object
  | single _ | several => several

/-- A call on the store. -/
def onStore {α : Type} (call : Call σ α) : Step σ α := fun s =>
  match call s.store with
  | .ok a store => .ok a { s with store }
  | .error halt store => .error halt { s with store }

/-- The next part: as many bytes as the buffer holds, fewer only at the end of the stream. -/
def nextChunk : Step σ Bytes := fun s =>
  let filled := Reader.refill s.buffer s.contents
  let s := { s with buffer := filled.buffer, contents := filled.rest }
  match filled.stop with
  | .done => .ok filled.chunk s
  | .failed error => .error (.failed (.io error)) s
  | .stalled => .error .abandoned s

/-- Whether one more read shows that the stream holds something. Nothing is taken from it, and
no failure is tried again. -/
def holdsMore : Step σ Bool := fun s =>
  match s.contents.peek with
  | (.bytes ahead, contents) => .ok (!ahead.isEmpty) { s with contents }
  | (.failed error, contents) => .error (.failed (.io error)) { s with contents }
  | (.stalled, contents) => .error .abandoned { s with contents }

/-- Notes that a part of this name is about to be written. -/
def begin (name : String) : Step σ Unit :=
  modify fun s => { s with names := s.names ++ [name] }

/-- Counts a part of `size` bytes that was written. -/
def countPart (size : Nat) : Step σ Unit :=
  modify fun s => { s with metrics := { s.metrics with
    partsUploaded := s.metrics.partsUploaded + 1
    bytesUploaded := s.metrics.bytesUploaded + size } }

/-- Counts that the compose limit was reached. -/
def countLimitHit : Step σ Unit :=
  modify fun s => { s with
    limitHits := s.limitHits + 1
    metrics := { s.metrics with composeLimitHits := s.metrics.composeLimitHits + 1 } }

/-- Counts a compose that is about to be requested. -/
def countCompose : Step σ Unit :=
  modify fun s => { s with metrics := { s.metrics with
    composeRequests := s.metrics.composeRequests + 1 } }

variable [ObjectStore σ] (bucket destination : String)

/-- Writes a part that is in memory. -/
def writePart (number : Nat) (data : Bytes) : Step σ StoredObject := do
  let name := Part.name destination number
  begin name
  let object ← onStore (ObjectStore.create bucket name data true)
  countPart data.length
  pure object

/-- Writes the rest of the stream, which is not empty, as part `number`. -/
def writeRest (number : Nat) : Step σ StoredObject := do
  countLimitHit
  let name := Part.name destination number
  begin name
  let object ← onStore (ObjectStore.createFromReader bucket name (← get).contents)
  countPart object.size
  pure object

/-- Cuts up to `left` parts, from `number` on, and then writes what is left of the stream as one
more. Part 1 is written even if it is empty, so that the destination exists. -/
def writeParts : (left number : Nat) → Written → Step σ Written
  | 0, number, written => do
    if ← holdsMore then
      let object ← writeRest bucket destination number
      pure (written.add object)
    else pure written
  | left + 1, number, written => do
    let data ← nextChunk
    if 1 < number ∧ data = [] then pure written
    else
      let object ← writePart bucket destination number data
      writeParts left (number + 1) (written.add object)

/-- Writes all parts and composes them if there is more than one. -/
def run : Step σ StoredObject := do
  match ← writeParts bucket destination (composeLimit - 1) 1 .nothing with
  | .single object => pure object
  | _ =>
    countCompose
    onStore (ObjectStore.compose bucket (← get).names destination)

end Session

end ChunkedUpload
