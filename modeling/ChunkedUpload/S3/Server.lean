import ChunkedUpload.S3.PartSize
import ChunkedUpload.S3.Request
import ChunkedUpload.Storage.ObjectMap
import ChunkedUpload.Text.Percent

/-!
# An object-storage service in memory

A service that keeps its objects and open multipart uploads in memory, logs every request, and can
be told to answer certain requests with an HTTP error or to leave something out of the answer.

It takes no part of more than 5 GiB, and completes an upload only with parts that it has, listed in
order under the tags that it gave them, of which there are not too many and all but the last are
large enough (`Joinable`). A lenient service does not ask how large they are, as there are some that
do not.
-/

namespace ChunkedUpload.S3

/-- A multipart upload that was neither completed nor aborted. -/
structure OpenUpload where
  id : String
  address : Address
  /-- The content of each part, last one sent first. -/
  parts : List (Nat × Bytes) := []

/-- The tag of a part. -/
def Server.partTag (id : String) (part : Nat) : String := id ++ "-part-" ++ part.repr

/-- All contents but the last are large enough for parts that others follow, or the service is
lenient. -/
def Ample (lenient : Bool) (contents : List Bytes) : Prop :=
  lenient = true ∨ ∀ content ∈ contents.dropLast, leastPartSize ≤ content.length

instance (lenient : Bool) (contents : List Bytes) : Decidable (Ample lenient contents) :=
  inferInstanceAs (Decidable (lenient = true ∨ _))

/-- What a service asks of the parts that it makes an object of. -/
structure Joinable (lenient : Bool) (numbers : List Nat) (contents : List Bytes) : Prop where
  nonempty : numbers ≠ []
  few : numbers.length ≤ mostParts
  ascending : numbers.Pairwise (· < ·)
  ample : Ample lenient contents

instance (lenient : Bool) (numbers : List Nat) (contents : List Bytes) :
    Decidable (Joinable lenient numbers contents) :=
  decidable_of_iff (numbers ≠ [] ∧ numbers.length ≤ mostParts ∧ numbers.Pairwise (· < ·) ∧
      Ample lenient contents)
    ⟨fun ⟨hnonempty, hfew, hascending, hample⟩ => ⟨hnonempty, hfew, hascending, hample⟩,
      fun h => ⟨h.nonempty, h.few, h.ascending, h.ample⟩⟩

namespace OpenUpload

/-- The content of a listed part, if the upload has it under this tag. -/
def part? (u : OpenUpload) (listed : Nat × String) : Option Bytes :=
  if listed.2 = Server.partTag u.id listed.1 then u.parts.lookup listed.1 else none

/-- The contents of the listed parts, if the upload has all of them. -/
def contents? (u : OpenUpload) (listed : List (Nat × String)) : Option (List Bytes) :=
  listed.mapM u.part?

theorem contents?_eq_some_iff {u : OpenUpload} {listed : List (Nat × String)}
    {contents : List Bytes} :
    u.contents? listed = some contents ↔ listed.map u.part? = contents.map some := by
  unfold contents?
  induction listed generalizing contents with
  | nil => cases contents <;> simp
  | cons first listed ih =>
    cases contents with
    | nil => simp [List.mapM_cons, Option.bind_eq_some_iff]
    | cons content contents => simp [List.mapM_cons, Option.bind_eq_some_iff, ih]

/-- The object that the listed parts make, if the service takes them. -/
def join? (lenient : Bool) (u : OpenUpload) (listed : List (Nat × String)) : Option Bytes := do
  let contents ← u.contents? listed
  if Joinable lenient (listed.map (·.1)) contents then some contents.flatten else none

theorem join?_of_held {u : OpenUpload} (lenient : Bool) {listed : List (Nat × String)}
    {contents : List Bytes} (hheld : listed.map u.part? = contents.map some) :
    u.join? lenient listed =
      if Joinable lenient (listed.map (·.1)) contents then some contents.flatten else none := by
  rw [join?, contents?_eq_some_iff.2 hheld, Option.bind_eq_bind, Option.bind_some]

end OpenUpload

/-- What a service leaves out of an answer. -/
inductive Omission
  | uploadId
  | tag
  | length
  /-- The end of an object's content. -/
  | tail
  deriving DecidableEq, Repr

/-- How a struck request is answered. -/
inductive Effect
  /-- With an HTTP error, and nothing is done. -/
  | status (code : Nat)
  | leaveOut (omission : Omission)
  deriving DecidableEq, Repr

/-- Which requests are answered badly, and how. -/
structure Fault where
  on : Operation
  /-- Only the request of this number, counting those of the same operation from 1. -/
  nth : Option Nat := none
  key : Option String := none
  effect : Effect

/-- The state of a service. -/
structure Server where
  objects : ObjectMap := {}
  uploads : List OpenUpload := []
  /-- How many upload ids were given out. -/
  issued : Nat := 0
  /-- The requests so far, first one first. -/
  log : List Request := []
  faults : List Fault := []
  /-- Lengths that are reported in place of the true ones, and for objects that are not there. -/
  reported : List (Address × Nat) := []
  /-- Whether parts may be small that are not the last. -/
  lenient : Bool := false

namespace Server

/-- Whether the fault strikes a request that is the `number`-th of its operation. -/
def strikes (fault : Fault) (request : Request) (number : Nat) : Bool :=
  fault.on = request.action.operation && fault.nth.all (· = number) &&
    fault.key.all (· = request.key)

/-- The effect of the fault that strikes `request`, which was logged last. -/
def effect? (s : Server) (request : Request) : Option Effect :=
  let number := s.log.countP (·.action.operation = request.action.operation)
  (s.faults.find? (strikes · request number)).map (·.effect)

/-- The open upload of an id. -/
def upload? (s : Server) (id : String) : Option OpenUpload := s.uploads.find? (·.id = id)

/-- The length that is reported for an address. -/
def length? (s : Server) (address : Address) : Option Nat :=
  (s.reported.lookup address).or ((s.objects.get? address).map List.length)

/-- The address that a copy source names. -/
def sourceAddress? (source : String) : Option Address := do
  let cs := source.toList
  let key ← Percent.decode? (String.ofList ((cs.dropWhile (· ≠ '/')).drop 1))
  some (String.ofList (cs.takeWhile (· ≠ '/')), key)

/-- What there is to copy at an address: an object is as long as it is reported to be, with zeros
for what is not there. -/
def content? (s : Server) (address : Address) : Option Bytes :=
  (s.length? address).map fun size =>
    (((s.objects.get? address).getD []).take size).rightpad size 0

/-- What a range takes of a content; `none` takes all of it. -/
def excerpt (range : Option CopyRange) (content : Bytes) : Bytes :=
  match range with
  | some range => (content.take (range.last + 1)).drop range.first
  | none => content

/-- What a copy yields. `none` if there is no such object. -/
def copied? (s : Server) (source : String) (range : Option CopyRange) : Option Bytes :=
  ((sourceAddress? source).bind s.content?).map (excerpt range)

/-- Adds a part to an open upload; a part of the same number is replaced. -/
def addPart (id : String) (part : Nat) (body : Bytes) (s : Server) : Server :=
  { s with uploads := s.uploads.map fun u =>
      if u.id = id then { u with parts := (part, body) :: u.parts } else u }

/-- Ends an upload. -/
def endUpload (id : String) (s : Server) : Server :=
  { s with uploads := s.uploads.filter (·.id ≠ id) }

/-- Gives `value` unless `omission` is what the service leaves out. -/
def unlessOmitted {α : Type} (omission : Omission) (effect : Option Effect) (value : α) :
    Option α :=
  if effect = some (.leaveOut omission) then none else some value

/-- Takes a part for an open upload, unless it is too large. -/
def takePart (effect : Option Effect) (id : String) (part : Nat) (body : Bytes) (s : Server) :
    Response × Server :=
  if body.length ≤ mostCopied then
    (.part (unlessOmitted .tag effect (partTag id part)), s.addPart id part body)
  else (.status 400, s)

/-- Does what the request asks for. `effect` says what is left out of the answer. -/
def perform (effect : Option Effect) (request : Request) (s : Server) : Response × Server :=
  let address := (request.bucket, request.key)
  match request.action with
  | .put body => (.done, { s with objects := s.objects.insert address body })
  | .get =>
    match s.objects.get? address with
    | some content => (.content content (effect ≠ some (.leaveOut .tail)), s)
    | none => (.status 404, s)
  | .head =>
    match s.length? address with
    | some size => (.length (unlessOmitted .length effect size), s)
    | none => (.status 404, s)
  | .delete => (.done, { s with objects := s.objects.erase address })
  | .createUpload =>
    let issued := s.issued + 1
    let id := "upload-" ++ issued.repr
    (.upload (unlessOmitted .uploadId effect id),
      { s with issued, uploads := s.uploads ++ [{ id, address }] })
  | .uploadPart id part body =>
    match s.upload? id with
    | some _ => s.takePart effect id part body
    | none => (.status 404, s)
  | .copyPart id part source range =>
    match s.upload? id, s.copied? source range with
    | some _, some body => s.takePart effect id part body
    | _, _ => (.status 404, s)
  | .completeUpload id parts =>
    match s.upload? id with
    | some upload =>
      match upload.join? s.lenient parts with
      | some content =>
        let s := s.endUpload id
        (.done, { s with objects := s.objects.insert upload.address content })
      | none => (.status 400, s)
    | none => (.status 404, s)
  | .abortUpload id =>
    match s.upload? id with
    | some _ => (.done, s.endUpload id)
    | none => (.status 404, s)

/-- Logs a request and answers it. -/
def answer (request : Request) (s : Server) : Response × Server :=
  let s := { s with log := s.log ++ [request] }
  match s.effect? request with
  | some (.status code) => (.status code, s)
  | effect => perform effect request s

end Server

end ChunkedUpload.S3
