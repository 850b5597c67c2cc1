import Mathlib.Data.List.Basic
import Mathlib.Data.List.TakeWhile
import ChunkedUpload.Proofs.S3.Addresses
import ChunkedUpload.S3.Store

/-!
# What a service is behind a key prefix

Behind a prefix are the objects whose keys begin with it, under what their keys have after it
(`behind`). A service that gets a request with the prefix in front of its keys (`Request.under`)
answers as one that has only what is behind the prefix and gets the request without it, and it
leaves all else alone (`Server.Behind.answer`).
-/

namespace ChunkedUpload.S3

/-! ## Keys -/

namespace Client

/-- The client without its prefix. -/
def bare (c : Client) : Client := { c with keyPrefix := none }

/-- The key that is kept under a full one, if there is such a key. -/
def bareKey? (c : Client) (full : String) : Option String :=
  match c.keyPrefix with
  | none => some full
  | some front => ((front ++ "/").toList.isPrefixOf? full.toList).map String.ofList

theorem bareKey?_eq_some {c : Client} {full key : String} :
    c.bareKey? full = some key ↔ full = c.fullKey key := by
  unfold bareKey? fullKey
  cases c.keyPrefix with
  | none => exact Option.some_inj
  | some front =>
    simp only [Option.map_eq_some_iff, List.isPrefixOf?_eq_some_iff_append_eq]
    constructor
    · rintro ⟨rest, hfull, rfl⟩
      rw [← String.toList_inj, ← hfull, String.toList_append (s := front ++ "/"),
        String.toList_ofList]
    · rintro rfl
      exact ⟨key.toList, (String.toList_append ..).symm, String.ofList_toList⟩

theorem bareKey?_fullKey (c : Client) (key : String) : c.bareKey? (c.fullKey key) = some key :=
  bareKey?_eq_some.2 rfl

/-- Only slashes are trimmed, and all that are at the end. -/
theorem trimSlashes_spec (text : String) :
    (∃ count, text.toList = (trimSlashes text).toList ++ List.replicate count '/') ∧
      (trimSlashes text).toList.getLast? ≠ some '/' := by
  rw [trimSlashes, String.toList_ofList]
  constructor
  · have hslashes := List.eq_replicate_of_mem (l := text.toList.reverse.takeWhile (· = '/'))
      (a := '/') fun c hc => by simpa using List.mem_takeWhile_imp hc
    refine ⟨(text.toList.reverse.takeWhile (· = '/')).length, ?_⟩
    rw [← List.reverse_inj, List.reverse_append, List.reverse_reverse, List.reverse_replicate,
      ← hslashes, List.takeWhile_append_dropWhile]
  · rw [List.getLast?_reverse]
    intro hlast
    have hnot := List.head?_dropWhile_not (· = '/') text.toList.reverse
    rw [hlast] at hnot
    simp at hnot

end Client

variable {c : Client}

/-! ## Objects -/

/-- The entries whose keys are kept for others, under these. -/
def behind {α : Type} (c : Client) (entries : List (Address × α)) : List (Address × α) :=
  entries.filterMap fun entry => (c.bareKey? entry.1.2).map fun key => ((entry.1.1, key), entry.2)

section Behind

variable {α : Type} {bucket key : String}

/-- An entry is left out, or it is that of a full key. -/
theorem out_or_full (c : Client) (entry : Address × α) : c.bareKey? entry.1.2 = none ∨
    ∃ bucket key content, entry = ((bucket, c.fullKey key), content) := by
  obtain ⟨⟨bucket, full⟩, content⟩ := entry
  cases hbare : c.bareKey? full with
  | none => exact .inl rfl
  | some key =>
    rw [Client.bareKey?_eq_some.1 hbare]
    exact .inr ⟨bucket, key, content, rfl⟩

theorem behind_cons_of_none {entry : Address × α} (h : c.bareKey? entry.1.2 = none)
    (entries : List (Address × α)) : behind c (entry :: entries) = behind c entries := by
  rw [behind, List.filterMap_cons_none (by rw [h]; rfl)]
  rfl

theorem behind_cons_full (content : α) (entries : List (Address × α)) :
    behind c (((bucket, c.fullKey key), content) :: entries) =
      ((bucket, key), content) :: behind c entries := by
  rw [behind, List.filterMap_cons_some (by rw [Client.bareKey?_fullKey]; rfl)]
  rfl

/-- What is left out is not at a full key. -/
theorem ne_full_of_bareKey? {address : Address} (h : c.bareKey? address.2 = none)
    (bucket key : String) : address ≠ (bucket, c.fullKey key) := by
  rintro rfl
  rw [Client.bareKey?_fullKey] at h
  cases h

theorem lookup_behind (entries : List (Address × α)) :
    (behind c entries).lookup (bucket, key) = entries.lookup (bucket, c.fullKey key) := by
  induction entries with
  | nil => rfl
  | cons entry entries ih =>
    rcases out_or_full c entry with hout | ⟨bucket', key', content, rfl⟩
    · have hother := beq_false_of_ne (ne_full_of_bareKey? hout bucket key).symm
      rw [behind_cons_of_none hout, List.lookup_cons, hother, ih]
    · rw [behind_cons_full]
      by_cases hsame : (bucket, key) = (bucket', key')
      · cases hsame
        rw [List.lookup_cons_self, List.lookup_cons_self]
      · rw [List.lookup_cons, List.lookup_cons, beq_false_of_ne hsame,
          beq_false_of_ne (mt Client.fullAddress_inj.1 hsame), ih]

theorem filter_behind (bucket key : String) (entries : List (Address × α)) :
    (behind c entries).filter (·.1 ≠ (bucket, key)) =
      behind c (entries.filter (·.1 ≠ (bucket, c.fullKey key))) := by
  induction entries with
  | nil => rfl
  | cons entry entries ih =>
    rcases out_or_full c entry with hout | ⟨bucket', key', content, rfl⟩
    · have hother := decide_eq_true (ne_full_of_bareKey? hout bucket key)
      rw [behind_cons_of_none hout, ih, List.filter_cons, if_pos hother, behind_cons_of_none hout]
    · rw [behind_cons_full, List.filter_cons, List.filter_cons, ih]
      simp only [ne_eq, Client.fullAddress_inj]
      split
      · rw [behind_cons_full]
      · rfl

end Behind

/-! ## Requests -/

/-- The copy source with the prefix in front of its key. -/
def Client.sourceUnder (c : Client) (source : String) : String :=
  ((Server.sourceAddress? source).map fun address => c.copySource address.1 address.2).getD source

/-- The action on what has the prefix in front of its key. -/
def Action.under (c : Client) : Action → Action
  | .copyPart upload part source range => .copyPart upload part (c.sourceUnder source) range
  | action => action

/-- The request with the prefix in front of its keys. -/
def Request.under (c : Client) (request : Request) : Request :=
  ⟨request.bucket, c.fullKey request.key, request.action.under c⟩

theorem Action.operation_under (c : Client) (action : Action) :
    (action.under c).operation = action.operation := by
  cases action <;> simp only [Action.under, Action.operation]

/-- A copy source names the bucket up to its first slash. -/
theorem slash_not_mem_bucket {source bucket key : String}
    (h : Server.sourceAddress? source = some (bucket, key)) : '/' ∉ bucket.toList := by
  simp only [Server.sourceAddress?, Option.bind_eq_bind, Option.bind_eq_some_iff,
    Option.some.injEq, Prod.mk.injEq] at h
  obtain ⟨decoded, -, rfl, -⟩ := h
  rw [String.toList_ofList]
  exact fun hmem => by simpa using List.mem_takeWhile_imp hmem

/-- With the prefix, a copy source names the full key in the same bucket. -/
theorem sourceAddress?_sourceUnder (c : Client) (source : String) :
    Server.sourceAddress? (c.sourceUnder source) =
      (Server.sourceAddress? source).map fun address => (address.1, c.fullKey address.2) := by
  rw [Client.sourceUnder]
  cases haddress : Server.sourceAddress? source with
  | none => rw [Option.map_none, Option.map_none, Option.getD_none, haddress]
  | some address => exact sourceAddress?_header (slash_not_mem_bucket haddress) _

/-- The addresses of the objects that a request reads or writes. -/
def Request.touched (request : Request) : List Address :=
  (request.bucket, request.key) :: match request.action with
    | .copyPart _ _ source _ => (Server.sourceAddress? source).toList
    | _ => []

/-- With the prefix in front, only what is behind it is read or written. -/
theorem Request.bareKey?_touched {request : Request} :
    ∀ address ∈ (request.under c).touched, c.bareKey? address.2 ≠ none := by
  have hkey : c.bareKey? (c.fullKey request.key) ≠ none := by
    rw [Client.bareKey?_fullKey]
    nofun
  obtain ⟨bucket, key, action⟩ := request
  cases action with
  | copyPart upload part source range =>
    refine List.forall_mem_cons.2 ⟨hkey, fun address haddress => ?_⟩
    have hsource := Option.mem_toList.1 haddress
    rw [sourceAddress?_sourceUnder] at hsource
    obtain ⟨bare, -, rfl⟩ := Option.map_eq_some_iff.1 hsource
    rw [Client.bareKey?_fullKey]
    nofun
  | _ => exact List.forall_mem_singleton.2 hkey

/-! ## Faults -/

/-- The fault behind the prefix: one that is for a key of others strikes nothing there. -/
def Fault.behind? (c : Client) (fault : Fault) : Option Fault :=
  match fault.key with
  | none => some fault
  | some full => (c.bareKey? full).map fun key => { fault with key := some key }

theorem strikes_under (fault : Fault) (request : Request) (number : Nat) :
    Server.strikes fault (request.under c) number =
      ((fault.behind? c).any fun bare => Server.strikes bare request number) ∧
    ∀ bare ∈ fault.behind? c, bare.effect = fault.effect := by
  obtain ⟨operation, nth, key, effect⟩ := fault
  have hoperation := Action.operation_under c request.action
  cases key with
  | none =>
    refine ⟨?_, fun bare hbare => ?_⟩
    · simp only [Server.strikes, Request.under, hoperation, Fault.behind?, Option.any_some,
        Option.all_none]
    · cases hbare
      rfl
  | some full =>
    simp only [Fault.behind?]
    cases hbare : c.bareKey? full with
    | none =>
      refine ⟨?_, nofun⟩
      have hother : full ≠ c.fullKey request.key := fun hfull => by
        rw [Client.bareKey?_eq_some.2 hfull] at hbare
        cases hbare
      simp [Server.strikes, Request.under, hother]
    | some key =>
      rw [Client.bareKey?_eq_some.1 hbare]
      refine ⟨?_, fun bare hmem => ?_⟩
      · have hsame : (c.fullKey key = c.fullKey request.key) ↔ key = request.key :=
          ⟨Client.fullKey_inj, congrArg _⟩
        simp [Server.strikes, Request.under, hoperation, hsame]
      · cases hmem
        rfl

/-- The same requests are struck, with the same effect. -/
theorem find?_behind (request : Request) (number : Nat) (faults : List Fault) :
    (faults.find? (Server.strikes · (request.under c) number)).map (·.effect) =
      ((faults.filterMap (Fault.behind? c)).find? (Server.strikes · request number)).map
        (·.effect) := by
  induction faults with
  | nil => rfl
  | cons fault faults ih =>
    obtain ⟨hstrikes, heffect⟩ := strikes_under (c := c) fault request number
    rw [List.find?_cons, hstrikes]
    cases hbare : fault.behind? c with
    | none =>
      rw [List.filterMap_cons_none hbare, Option.any_none]
      exact ih
    | some bare =>
      rw [List.filterMap_cons_some hbare, List.find?_cons, Option.any_some]
      cases Server.strikes bare request number with
      | false => exact ih
      | true => exact congrArg some (heffect bare hbare).symm

/-! ## The service -/

/-- The upload of what has the prefix in front of its key. -/
def OpenUpload.under (c : Client) (upload : OpenUpload) : OpenUpload :=
  { upload with address := (upload.address.1, c.fullKey upload.address.2) }

namespace Server

/-- What a service, of which nothing was asked yet, is behind the prefix. -/
def behind (c : Client) (s : Server) : Server where
  objects := ⟨S3.behind c s.objects.entries⟩
  faults := s.faults.filterMap (Fault.behind? c)
  reported := S3.behind c s.reported
  lenient := s.lenient

/-- `t` is what `s` is behind the prefix. All that was asked of `s` has the prefix in front, and
what is not behind the prefix is as in `others`. -/
structure Behind (c : Client) (others : ObjectMap) (s t : Server) : Prop where
  objects : t.objects = ⟨S3.behind c s.objects.entries⟩
  reported : t.reported = S3.behind c s.reported
  faults : t.faults = s.faults.filterMap (Fault.behind? c)
  lenient : t.lenient = s.lenient
  issued : t.issued = s.issued
  uploads : s.uploads = t.uploads.map (OpenUpload.under c)
  log : s.log = t.log.map (Request.under c)
  others : ∀ address, c.bareKey? address.2 = none → s.objects.get? address = others.get? address

theorem behind_behind (c : Client) (objects : ObjectMap) (faults : List Fault)
    (reported : List (Address × Nat)) (lenient : Bool) :
    Behind c objects { objects, faults, reported, lenient }
      (behind c { objects, faults, reported, lenient }) :=
  ⟨rfl, rfl, rfl, rfl, rfl, rfl, rfl, fun _ _ => rfl⟩

namespace Behind

variable {others : ObjectMap} {s t : Server} {bucket key id : String}

theorem get? (h : Behind c others s t) (bucket key : String) :
    s.objects.get? (bucket, c.fullKey key) = t.objects.get? (bucket, key) := by
  rw [h.objects, ObjectMap.get?, ObjectMap.get?, lookup_behind]

theorem length? (h : Behind c others s t) (bucket key : String) :
    s.length? (bucket, c.fullKey key) = t.length? (bucket, key) := by
  rw [Server.length?, Server.length?, h.get?, h.reported, lookup_behind]

theorem upload? (h : Behind c others s t) (id : String) :
    s.upload? id = (t.upload? id).map (OpenUpload.under c) := by
  rw [Server.upload?, Server.upload?, h.uploads, List.find?_map]
  rfl

theorem content? (h : Behind c others s t) (bucket key : String) :
    s.content? (bucket, c.fullKey key) = t.content? (bucket, key) := by
  rw [Server.content?, Server.content?, h.length?, h.get?]

theorem copied? (h : Behind c others s t) (source : String) (range : Option CopyRange) :
    s.copied? (c.sourceUnder source) range = t.copied? source range := by
  rw [Server.copied?, Server.copied?, sourceAddress?_sourceUnder]
  cases Server.sourceAddress? source with
  | none => rfl
  | some address => rw [Option.map_some, Option.bind_some, Option.bind_some, h.content?]

/-- Parts make the same object, whatever key it is for. -/
theorem join? (h : Behind c others s t) (upload : OpenUpload) (parts : List (Nat × String)) :
    (upload.under c).join? s.lenient parts = upload.join? t.lenient parts := by
  rw [h.lenient]
  rfl

/-! ### Edits -/

theorem insert (h : Behind c others s t) (bucket key : String) (content : Bytes) :
    Behind c others { s with objects := s.objects.insert (bucket, c.fullKey key) content }
      { t with objects := t.objects.insert (bucket, key) content } := by
  refine { h with objects := ?_, others := fun address hout => ?_ }
  · rw [ObjectMap.insert, ObjectMap.insert, ObjectMap.erase, ObjectMap.erase, behind_cons_full,
      h.objects, filter_behind]
  · rw [ObjectMap.get?_insert, if_neg (ne_full_of_bareKey? hout _ _), h.others address hout]

theorem erase (h : Behind c others s t) (bucket key : String) :
    Behind c others { s with objects := s.objects.erase (bucket, c.fullKey key) }
      { t with objects := t.objects.erase (bucket, key) } := by
  refine { h with objects := ?_, others := fun address hout => ?_ }
  · rw [ObjectMap.erase, ObjectMap.erase, h.objects, filter_behind]
  · rw [ObjectMap.get?_erase, if_neg (ne_full_of_bareKey? hout _ _), h.others address hout]

theorem opened (h : Behind c others s t) (bucket key id : String) :
    Behind c others
      { s with
        issued := s.issued + 1
        uploads := s.uploads ++ [⟨id, (bucket, c.fullKey key), []⟩] }
      { t with
        issued := t.issued + 1
        uploads := t.uploads ++ [⟨id, (bucket, key), []⟩] } := by
  refine { h with issued := by rw [h.issued], uploads := ?_ }
  rw [h.uploads, List.map_append]
  rfl

theorem addPart (h : Behind c others s t) (id : String) (part : Nat) (body : Bytes) :
    Behind c others (s.addPart id part body) (t.addPart id part body) := by
  refine { h with uploads := ?_ }
  rw [Server.addPart, Server.addPart, h.uploads, List.map_map, List.map_map]
  refine List.map_congr_left fun upload _ => ?_
  show (if upload.id = id then _ else _) = OpenUpload.under c (if upload.id = id then _ else _)
  split <;> rfl

theorem takePart (h : Behind c others s t) (effect : Option Effect) (id : String) (part : Nat)
    (body : Bytes) : (s.takePart effect id part body).1 = (t.takePart effect id part body).1 ∧
      Behind c others (s.takePart effect id part body).2 (t.takePart effect id part body).2 := by
  unfold Server.takePart
  split
  · exact ⟨rfl, h.addPart id part body⟩
  · exact ⟨rfl, h⟩

theorem endUpload (h : Behind c others s t) (id : String) :
    Behind c others (s.endUpload id) (t.endUpload id) := by
  refine { h with uploads := ?_ }
  rw [Server.endUpload, Server.endUpload, h.uploads, List.filter_map]
  rfl

theorem logged (h : Behind c others s t) (request : Request) :
    Behind c others { s with log := s.log ++ [request.under c] }
      { t with log := t.log ++ [request] } := by
  refine { h with log := ?_ }
  rw [h.log, List.map_append]
  rfl

/-! ### Requests -/

theorem effect? (h : Behind c others s t) (request : Request) :
    s.effect? (request.under c) = t.effect? request := by
  have hnumber : s.log.countP (·.action.operation = (request.under c).action.operation) =
      t.log.countP (·.action.operation = request.action.operation) := by
    rw [h.log, List.countP_map]
    simp only [Function.comp_def, Request.under, Action.operation_under]
  rw [Server.effect?, Server.effect?, hnumber, find?_behind, h.faults]

/-- What is asked for is done alike. -/
theorem perform (h : Behind c others s t) (effect : Option Effect) (request : Request) :
    (Server.perform effect (request.under c) s).1 = (Server.perform effect request t).1 ∧
      Behind c others (Server.perform effect (request.under c) s).2
        (Server.perform effect request t).2 := by
  obtain ⟨bucket, key, action⟩ := request
  cases action with
  | put body => exact ⟨rfl, h.insert bucket key body⟩
  | get =>
    simp only [Server.perform, Request.under, Action.under, h.get?]
    cases t.objects.get? (bucket, key) <;> exact ⟨rfl, h⟩
  | head =>
    simp only [Server.perform, Request.under, Action.under, h.length?]
    cases t.length? (bucket, key) <;> exact ⟨rfl, h⟩
  | delete => exact ⟨rfl, h.erase bucket key⟩
  | createUpload =>
    refine ⟨?_, ?_⟩
    · simp only [Server.perform, Request.under, Action.under, h.issued]
    · simp only [Server.perform, Request.under, Action.under, h.issued]
      have hopened := h.opened bucket key ("upload-" ++ (s.issued + 1).repr)
      rw [h.issued] at hopened
      exact hopened
  | uploadPart id part body =>
    simp only [Server.perform, Request.under, Action.under, h.upload?]
    cases t.upload? id with
    | none => exact ⟨rfl, h⟩
    | some upload => exact h.takePart effect id part body
  | copyPart id part source range =>
    simp only [Server.perform, Request.under, Action.under, h.upload?, h.copied?]
    cases t.upload? id with
    | none => exact ⟨rfl, h⟩
    | some upload =>
      cases t.copied? source range with
      | none => exact ⟨rfl, h⟩
      | some body => exact h.takePart effect id part body
  | completeUpload id parts =>
    simp only [Server.perform, Request.under, Action.under, h.upload?]
    cases t.upload? id with
    | none => exact ⟨rfl, h⟩
    | some upload =>
      simp only [Option.map_some, h.join?]
      cases upload.join? t.lenient parts with
      | none => exact ⟨rfl, h⟩
      | some content => exact ⟨rfl, (h.endUpload id).insert upload.address.1 upload.address.2 _⟩
  | abortUpload id =>
    simp only [Server.perform, Request.under, Action.under, h.upload?]
    cases t.upload? id with
    | none => exact ⟨rfl, h⟩
    | some upload => exact ⟨rfl, h.endUpload id⟩

/-- A request with the prefix in front is answered like the one without it. -/
theorem answer (h : Behind c others s t) (request : Request) :
    (s.answer (request.under c)).1 = (t.answer request).1 ∧
      Behind c others (s.answer (request.under c)).2 (t.answer request).2 := by
  have hlogged := h.logged request
  simp only [Server.answer, hlogged.effect?]
  split
  · exact ⟨rfl, hlogged⟩
  · exact hlogged.perform _ request

end Behind

end Server

end ChunkedUpload.S3
