import ChunkedUpload.Reader.Drain
import ChunkedUpload.Storage.ObjectMap
import ChunkedUpload.Storage.Store

/-!
# A store in memory

A store that keeps its objects in a map, logs every call that reaches it, and can be told which
calls to fail. It is the plainest store there is, and the one that an upload is judged against.
-/

namespace ChunkedUpload

namespace Memory

/-- The calls that are logged and can be made to fail. -/
inductive Method
  | create
  | createFromReader
  | compose
  | delete
  deriving DecidableEq, Repr

/-- A logged call. -/
inductive Entry
  | create (key : String) (size : Nat) (uncompressed : Bool)
  | createFromReader (key : String) (size : Nat)
  | compose (sources : List String) (destination : String)
  | delete (key : String)
  deriving DecidableEq, Repr

namespace Entry

/-- The call that was made. -/
def method : Entry → Method
  | create .. => .create
  | createFromReader .. => .createFromReader
  | compose .. => .compose
  | delete .. => .delete

/-- The key that the call writes or deletes. -/
def key : Entry → String
  | create key .. => key
  | createFromReader key _ => key
  | compose _ destination => destination
  | delete key => key

end Entry

/-- Which calls fail, and how. -/
structure Fault where
  on : Method
  /-- Only the call of this number, counting those of the same method from 1. -/
  nth : Option Nat := none
  /-- Only calls that write or delete this key. -/
  key : Option String := none
  /-- Whether a create or compose stores its object before it fails. -/
  after : Bool := false
  /-- How the call ends. -/
  halt : Halt

/-- Whether the fault strikes the call `entry`, the `number`-th of its method. -/
def Fault.strikes (fault : Fault) (entry : Entry) (number : Nat) : Bool :=
  fault.on = entry.method && fault.nth.all (· = number) && fault.key.all (· = entry.key)

end Memory

/-- A store in memory with its log and its schedule of faults. -/
structure Memory where
  objects : ObjectMap := {}
  /-- The calls so far, first one first. -/
  log : List Memory.Entry := []
  faults : List Memory.Fault := []
  /-- How far reported sizes are above the true ones. -/
  extra : Nat := 0

namespace Memory

/-- Logs a call. -/
def record (entry : Entry) (m : Memory) : Memory := { m with log := m.log ++ [entry] }

/-- The fault that strikes the call that was logged last, `entry`. -/
def fault? (m : Memory) (entry : Entry) : Option Fault :=
  m.faults.find? (·.strikes entry (m.log.countP (·.method = entry.method)))

/-- Stores an object and answers it. -/
def put (bucket key : String) (content : Bytes) : Call Memory StoredObject := fun m =>
  .ok ⟨bucket, key, content.length + m.extra⟩
    { m with objects := m.objects.insert (bucket, key) content }

/-- Stores an object unless a fault strikes the call `entry`, which has been logged. -/
def putUnlessStruck (entry : Entry) (bucket : String) (content : Bytes) :
    Call Memory StoredObject := do
  match (← get).fault? entry with
  | none => put bucket entry.key content
  | some fault =>
    if fault.after then discard (put bucket entry.key content)
    throw fault.halt

/-- The call is logged before any fault strikes. -/
def create (bucket key : String) (data : Bytes) (uncompressed : Bool) :
    Call Memory StoredObject := do
  let entry := .create key data.length uncompressed
  modify (record entry)
  putUnlessStruck entry bucket data

/-- The call is logged once everything has been read; if reading fails, it never is. -/
def createFromReader (bucket key : String) (contents : Reader) : Call Memory StoredObject := do
  let filled := contents.drain
  match filled.stop with
  | .failed error => Call.fail (.io error)
  | .stalled => throw .abandoned
  | .done =>
    let entry := .createFromReader key filled.taken.length
    modify (record entry)
    putUnlessStruck entry bucket filled.taken

/-- The number of sources is checked first, then that each exists, before any fault strikes. -/
def compose (bucket : String) (sources : List String) (destination : String) :
    Call Memory StoredObject := do
  let entry := .compose sources destination
  modify (record entry)
  Call.ofExcept (checkSourceCount sources.length)
  let content ← Call.ofExcept ((← get).objects.gather bucket sources)
  putUnlessStruck entry bucket content

/-- A fault leaves the object where it is. -/
def delete (bucket key : String) : Call Memory Unit := do
  let entry := .delete key
  modify (record entry)
  match (← get).fault? entry with
  | some fault => throw fault.halt
  | none => modify fun m => { m with objects := m.objects.erase (bucket, key) }

/-- Reading is not logged and never struck. -/
def read (bucket key : String) : Call Memory Bytes := do
  match (← get).objects.get? (bucket, key) with
  | some content => pure content
  | none => Call.fail (.notFound key)

end Memory

instance : ObjectStore Memory where
  create := Memory.create
  createFromReader := Memory.createFromReader
  compose := Memory.compose
  delete := Memory.delete
  get := Memory.read

end ChunkedUpload
