import ChunkedUpload.Reader.Basic
import ChunkedUpload.Storage.Error

/-!
# Object stores

A store keeps byte sequences under a bucket and a key and can join several objects into one. A call
changes the store's state and answers a value, or ends in one of two other ways: it fails with an
error, or it is abandoned, with no answer at all. What the call did before that stays done.
-/

namespace ChunkedUpload

/-- How a call ends that answers no value. -/
inductive Halt
  | failed (error : StorageError)
  /-- The call was dropped while it waited for a stalled reader, or its task crashed. -/
  | abandoned
  deriving DecidableEq, Repr

/-- A call on a store in state `σ`. -/
abbrev Call (σ α : Type) := EStateM Halt σ α

namespace Call

variable {σ α : Type}

/-- Fails with `error` and changes nothing. -/
def fail (error : StorageError) : Call σ α := throw (.failed error)

/-- Takes over the outcome of a computation without state. -/
def ofExcept : Except StorageError α → Call σ α
  | .ok a => pure a
  | .error error => fail error

/-- Runs `undo` if `call` fails. A call that is abandoned does not come to that. -/
def onFailure (undo : σ → σ) (call : Call σ α) : Call σ α := fun s =>
  match call s with
  | .ok a s => .ok a s
  | .error (.failed error) s => .error (.failed error) (undo s)
  | .error .abandoned s => .error .abandoned s

end Call

/-- An object that a store has written. -/
structure StoredObject where
  bucket : String
  name : String
  size : Nat
  deriving DecidableEq, Repr

/-- The most sources that one compose may name. -/
def composeLimit : Nat := 32

/-- Refuses a compose of no sources or of more than the limit. -/
def checkSourceCount (count : Nat) : Except StorageError Unit :=
  if count = 0 ∨ composeLimit < count then .error (.composeLimit count composeLimit) else .ok ()

theorem checkSourceCount_eq_ok_iff {count : Nat} :
    checkSourceCount count = .ok () ↔ count ≠ 0 ∧ count ≤ composeLimit := by
  unfold checkSourceCount
  split <;> simp <;> omega

/-- A store of objects. Deleting an object that is not there succeeds. -/
class ObjectStore (σ : Type) where
  /-- Writes `data` under `key`, over any object there. `uncompressed` asks that the bytes go
  through unchanged on the way. -/
  create (bucket key : String) (data : Bytes) (uncompressed : Bool) : Call σ StoredObject
  /-- Writes under `key` everything up to the reader's next read without bytes. -/
  createFromReader (bucket key : String) (contents : Reader) : Call σ StoredObject
  /-- Writes under `destination` the contents of `sources` one after another. The destination may
  be one of the sources. -/
  compose (bucket : String) (sources : List String) (destination : String) : Call σ StoredObject
  delete (bucket key : String) : Call σ Unit
  get (bucket key : String) : Call σ Bytes

end ChunkedUpload
