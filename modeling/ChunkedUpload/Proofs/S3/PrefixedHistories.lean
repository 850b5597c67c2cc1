import Mathlib
import ChunkedUpload.Proofs.S3.Objects
import ChunkedUpload.Proofs.S3.Prefixes
import ChunkedUpload.Proofs.Storage.Histories
import ChunkedUpload.Proofs.Storage.InStep

/-!
# A key prefix cannot be seen

A client with a key prefix and one without it, for a service that has just what is behind the
prefix, answer every history alike (`prefix_transparent`). Every call puts the prefix once in front
of each key that it sends, and in front of none that it answers, so from related services two calls
come to the same and leave related services (`Call.InStep`). There is one exception: in a bucket
with a slash in its name a copy source names another bucket (`prefix_seen_behind_slash`), so no
objects are joined there.
-/

namespace ChunkedUpload

/-- Stores that are related and stay related under each request answer alike. -/
theorem answers_of_agree {σ τ : Type} [ObjectStore σ] [ObjectStore τ] {R : σ → τ → Prop}
    {requests : List Request} (h : ∀ request ∈ requests, ∀ s t, R s t →
      Call.Agree R (request.run s) (request.run t)) :
    ∀ {s : σ} {t : τ}, R s t → answers requests s = answers requests t ∧
      List.Forall₂ R (states requests s) (states requests t) := by
  induction requests with
  | nil => exact fun hst => ⟨rfl, .cons hst .nil⟩
  | cons request requests ih =>
    intro s t hst
    rw [List.forall_mem_cons] at h
    obtain ⟨houtcome, hfinal⟩ := h.1 s t hst
    obtain ⟨hanswers, hstates⟩ := ih h.2 hfinal
    exact ⟨by rw [answers, answers, houtcome, hanswers], .cons hst hstates⟩

namespace S3.Store

open Call (Agree InStep)

/-- `t` is a store without the prefix for what is behind it at the service of `s`. -/
structure Behind (c : Client) (others : ObjectMap) (s t : Store) : Prop where
  client : s.client = c
  bare : t.client = c.bare
  reachable : t.reachable = s.reachable
  server : s.server.Behind c others t.server

variable {c : Client} {others : ObjectMap} {bucket key id : String}

/-! ## The requests one by one -/

/-- A request gets through with the prefix if it does without. -/
theorem inStep_send (request : Request) (hkey : request.key ≠ "") :
    InStep (Behind c others) (send (request.under c)) (send request) := by
  intro s t h
  have hfull : (request.under c).key ≠ "" := Client.fullKey_ne_empty hkey
  by_cases hbucket : request.bucket = ""
  · rw [send, send, if_pos (.inl hbucket), if_pos (.inl hbucket)]
    exact ⟨rfl, h⟩
  · have hbuilt : ¬ ((request.under c).bucket = "" ∨ (request.under c).key = "") :=
      not_or.2 ⟨hbucket, hfull⟩
    obtain ⟨hresponse, hserver⟩ := h.server.answer request
    rw [send, send, if_neg hbuilt, if_neg (not_or.2 ⟨hbucket, hkey⟩), h.reachable]
    split
    · exact ⟨congrArg Except.ok hresponse, h.client, h.bare, rfl, hserver⟩
    · exact ⟨rfl, h⟩

/-- The prefix is put in front of a key where it is asked for. -/
theorem Behind.fullKey_bind {α : Type} {next next' : String → Call Store α} {s t : Store}
    (hst : Behind c others s t)
    (h : Agree (Behind c others) (next (c.fullKey key) s) (next' key t)) :
    Agree (Behind c others) ((fullKey key >>= next) s) ((fullKey key >>= next') t) := by
  have hs : fullKey key s = .ok (c.fullKey key) s := by rw [fullKey, hst.client]
  have ht : fullKey key t = .ok key t := by
    rw [fullKey, hst.bare]
    rfl
  rwa [Call.bind_of_ok hs, Call.bind_of_ok ht]

theorem inStep_fullKey_bind {α : Type} {next next' : String → Call Store α}
    (h : InStep (Behind c others) (next (c.fullKey key)) (next' key)) :
    InStep (Behind c others) (fullKey key >>= next) (fullKey key >>= next') :=
  fun s t hst => hst.fullKey_bind (h s t hst)

theorem inStep_put (hkey : key ≠ "") (data : Bytes) :
    InStep (Behind c others) (put bucket key data) (put bucket key data) := by
  refine inStep_fullKey_bind ((inStep_send ⟨bucket, key, .put data⟩ hkey).bind ?_)
  rintro (_ | _ | _ | _ | _ | _) <;> first | exact .pure _ | exact .throw _

theorem inStep_objectSize (hkey : key ≠ "") :
    InStep (Behind c others) (objectSize bucket key) (objectSize bucket key) := by
  refine inStep_fullKey_bind ((inStep_send ⟨bucket, key, .head⟩ hkey).bind ?_)
  rintro (_ | _ | _ | _ | _ | _) <;> first | exact .pure _ | exact .throw _

theorem inStep_startUpload (hkey : key ≠ "") :
    InStep (Behind c others) (startUpload bucket (c.fullKey key)) (startUpload bucket key) := by
  refine (inStep_send ⟨bucket, key, .createUpload⟩ hkey).bind ?_
  rintro (_ | _ | _ | (_ | _) | _ | _) <;> first | exact .pure _ | exact .throw _

theorem inStep_completeUpload (hkey : key ≠ "") (parts : List (Nat × String)) :
    InStep (Behind c others) (completeUpload bucket (c.fullKey key) id parts)
      (completeUpload bucket key id parts) := by
  refine (inStep_send ⟨bucket, key, .completeUpload id parts⟩ hkey).bind ?_
  rintro (_ | _ | _ | _ | _ | _) <;> first | exact .pure _ | exact .throw _

theorem inStep_uploadPart (hkey : key ≠ "") (part : Nat) (body : Bytes) :
    InStep (Behind c others) (uploadPart bucket (c.fullKey key) id part body)
      (uploadPart bucket key id part body) := by
  refine (inStep_send ⟨bucket, key, .uploadPart id part body⟩ hkey).bind ?_
  rintro (_ | _ | _ | _ | (_ | _) | _) <;> first | exact .pure _ | exact .throw _

theorem inStep_copyPart (hkey : key ≠ "") (hslash : '/' ∉ bucket.toList) (part : Nat)
    (source : String) (range : Option CopyRange) :
    InStep (Behind c others) (copyPart bucket (c.fullKey key) id part source range)
      (copyPart bucket key id part source range) := by
  have hunder : c.sourceUnder (bucket ++ "/" ++ Percent.encode source) =
      bucket ++ "/" ++ Percent.encode (c.fullKey source) := by
    rw [Client.sourceUnder, sourceAddress?_header hslash]
    rfl
  refine inStep_fullKey_bind ?_
  rw [← hunder]
  refine (inStep_send ⟨bucket, key,
    .copyPart id part (bucket ++ "/" ++ Percent.encode source) range⟩ hkey).bind ?_
  rintro (_ | _ | _ | _ | (_ | _) | _) <;> first | exact .pure _ | exact .throw _

theorem inStep_delete (hkey : key ≠ "") :
    InStep (Behind c others) (delete bucket key) (delete bucket key) := by
  refine inStep_fullKey_bind ((inStep_send ⟨bucket, key, .delete⟩ hkey).bind ?_)
  rintro (_ | _ | _ | _ | _ | _) <;> first | exact .pure _ | exact .throw _

theorem inStep_read (hkey : key ≠ "") :
    InStep (Behind c others) (read bucket key) (read bucket key) := by
  refine inStep_fullKey_bind ((inStep_send ⟨bucket, key, .get⟩ hkey).bind ?_)
  rintro (_ | ⟨_, _ | _⟩ | _ | _ | _ | _) <;> first | exact .pure _ | exact .throw _

/-- Whatever becomes of the request to drop an upload, the stores stay related. -/
theorem Behind.abortUpload {s t : Store} (h : Behind c others s t) (bucket id : String)
    (hkey : key ≠ "") : Behind c others (abortUpload bucket (c.fullKey key) id s)
      (abortUpload bucket key id t) := by
  have hsend := (inStep_send ⟨bucket, key, .abortUpload id⟩ hkey s t h).cases
  rcases hsend with ⟨_, s', t', hs, ht, h'⟩ | ⟨_, s', t', hs, ht, h'⟩
  all_goals
    change send ⟨bucket, c.fullKey key, .abortUpload id⟩ s = _ at hs
    rw [Store.abortUpload, Store.abortUpload, hs, ht]
    exact h'

/-! ## The loops -/

theorem inStep_filled (x : Reader.Refilled) : InStep (Behind c others) (filled x) (filled x) := by
  unfold filled
  split
  · exact .pure _
  · exact .throw _
  · exact .throw _

theorem inStep_uploadParts (hkey : key ≠ "") (part : Nat) : ∀ (x : Reader.Refilled)
    (parts : List (Nat × String)) (size : Nat),
    InStep (Behind c others) (uploadParts bucket (c.fullKey key) id part x parts size)
      (uploadParts bucket key id part x parts size) := by
  -- the induction is on the numbers that are left, of which each part takes one
  induction hleft : mostParts + 1 - part using Nat.strongRecOn generalizing part with
  | _ left ih =>
    intro x parts size
    rw [uploadParts, uploadParts]
    split
    · exact .pure _
    · split
      · exact .throw _
      · rename_i hnumber
        have hmost := checkPartNumber_eq_ok_iff.1 hnumber
        exact (inStep_uploadPart hkey part x.chunk).bind fun _ =>
          (inStep_filled _).bind fun _ => ih _ (by omega) (part + 1) rfl _ _ _

theorem inStep_copyRanges (hkey : key ≠ "") (hslash : '/' ∉ bucket.toList) (source : String) :
    ∀ (ranges : List (Option CopyRange)) (part : Nat),
    InStep (Behind c others) (copyRanges bucket (c.fullKey key) id source ranges part)
      (copyRanges bucket key id source ranges part)
  | [], _ => .pure _
  | range :: ranges, part =>
    (InStep.ofExcept _).bind fun _ => (inStep_copyPart hkey hslash part source range).bind fun _ =>
      (inStep_copyRanges hkey hslash source ranges (part + 1)).bind fun _ => .pure _

theorem inStep_copyParts (hkey : key ≠ "") (hslash : '/' ∉ bucket.toList) :
    ∀ (sources : List String) (part : Nat), (∀ source ∈ sources, source ≠ "") →
    InStep (Behind c others) (copyParts bucket (c.fullKey key) id sources part)
      (copyParts bucket key id sources part)
  | [], _, _ => .pure _
  | source :: sources, part, hsources => by
    rw [List.forall_mem_cons] at hsources
    exact (inStep_objectSize hsources.1).bind fun _ =>
      (inStep_copyRanges hkey hslash source _ part).bind fun _ =>
        (inStep_copyParts hkey hslash sources _ hsources.2).bind fun _ => .pure _

/-! ## The calls -/

theorem inStep_createFromReader (hkey : key ≠ "") (contents : Reader) :
    InStep (Behind c others) (createFromReader bucket key contents)
      (createFromReader bucket key contents) := by
  refine (inStep_filled _).bind fun first => ?_
  split
  · exact inStep_put hkey first.chunk
  · refine inStep_fullKey_bind ((inStep_startUpload hkey).bind fun id => ?_)
    refine InStep.bind (.onFailure ?_ fun s t h => h.abortUpload bucket id hkey) fun _ => .pure _
    exact (inStep_uploadParts hkey 1 first [] 0).bind fun _ =>
      (inStep_completeUpload hkey _).bind fun _ => .pure _

theorem inStep_compose (hkey : key ≠ "") (hslash : '/' ∉ bucket.toList) {sources : List String}
    (hsources : ∀ source ∈ sources, source ≠ "") :
    InStep (Behind c others) (compose bucket sources key) (compose bucket sources key) := by
  refine (InStep.ofExcept _).bind fun _ => inStep_fullKey_bind ?_
  refine (inStep_startUpload hkey).bind fun id => ?_
  refine InStep.bind (.onFailure ?_ fun s t h => h.abortUpload bucket id hkey) fun _ =>
    (inStep_objectSize hkey).bind fun _ => .pure _
  exact (inStep_copyParts hkey hslash sources 1 hsources).bind fun parts =>
    inStep_completeUpload hkey parts

/-- The keys of a request are not empty, and it joins objects in buckets without a slash only. -/
def Addressable : ChunkedUpload.Request → Prop
  | .create _ key _ _ | .createFromReader _ key _ | .delete _ key | .get _ key => key ≠ ""
  | .compose bucket sources destination =>
    destination ≠ "" ∧ (∀ source ∈ sources, source ≠ "") ∧ '/' ∉ bucket.toList

theorem Behind.run {request : ChunkedUpload.Request} (haddressable : Addressable request)
    {s t : Store} (h : Behind c others s t) :
    Agree (Behind c others) (request.run s) (request.run t) := by
  cases request with
  | create bucket key data uncompressed =>
    exact (inStep_put haddressable data s t h).map Answer.stored
  | createFromReader bucket key contents =>
    exact (inStep_createFromReader haddressable contents s t h).map Answer.stored
  | compose bucket sources destination =>
    obtain ⟨hdestination, hsources, hslash⟩ := haddressable
    exact Agree.map (inStep_compose hdestination hslash hsources s t h) Answer.stored
  | delete bucket key => exact (inStep_delete haddressable s t h).map fun _ => Answer.deleted
  | get bucket key => exact (inStep_read haddressable s t h).map Answer.content

/-! ## Histories -/

/-- All that is logged has the prefix in front, so nothing else is read or written. -/
theorem Behind.touched {s t : Store} (h : Behind c others s t) : ∀ request ∈ s.server.log,
    ∀ address ∈ request.touched, c.bareKey? address.2 ≠ none := by
  intro request hrequest
  rw [h.server.log] at hrequest
  obtain ⟨bare, -, rfl⟩ := List.mem_map.1 hrequest
  exact Request.bareKey?_touched

/-- Settings without the prefix make the client without it. -/
theorem new_bare {settings : ServiceConfig} {text : String}
    (h : Client.new { settings with keyPrefix := some text } = .ok c) :
    c.keyPrefix = some (Client.trimSlashes text) ∧
      Client.new { settings with keyPrefix := none } = .ok c.bare := by
  have hvalidate (keyPrefix : Option String) :
      ServiceConfig.validate { settings with keyPrefix } = settings.validate := rfl
  unfold Client.new at h ⊢
  rw [hvalidate] at h ⊢
  cases hsettings : settings.validate with
  | error error =>
    rw [hsettings] at h
    cases h
  | ok =>
    rw [hsettings] at h
    cases h
    exact ⟨rfl, rfl⟩

/-- **A key prefix cannot be seen.** Let a client have a prefix, and another one none, for a service
that has what is behind the prefix, whatever objects the services have and whatever faults strike
them. Then both answer every history alike, if no objects are joined in a bucket with a slash in its
name. At each point all that the first service was asked is what the second one was asked, with the
prefix in front of every key and of the key of every copy source. What the first one has behind the
prefix is what the second one has, and the rest of it is as before; no request has read it,
either. -/
theorem prefix_transparent (settings : ServiceConfig) {text : String}
    (hclient : Client.new { settings with keyPrefix := some text } = .ok c)
    (objects : ObjectMap) (faults : List Fault) (reported : List (Address × Nat))
    (lenient reachable : Bool) {requests : List ChunkedUpload.Request}
    (hrequests : ∀ request ∈ requests, Addressable request) :
    let server : Server := { objects, faults, reported, lenient }
    let s : Store := ⟨c, server, reachable⟩
    let t : Store := ⟨c.bare, server.behind c, reachable⟩
    (∀ key, c.fullKey key = Client.trimSlashes text ++ "/" ++ key) ∧
      Client.new { settings with keyPrefix := none } = .ok c.bare ∧
      answers requests s = answers requests t ∧
      List.Forall₂ (Behind c objects) (states requests s) (states requests t) ∧
      ∀ u ∈ states requests s, ∀ request ∈ u.server.log, ∀ address ∈ request.touched,
        c.bareKey? address.2 ≠ none := by
  intro server s t
  obtain ⟨hlead, hbare⟩ := new_bare hclient
  have hstart : Behind c objects s t :=
    ⟨rfl, rfl, rfl, Server.behind_behind c objects faults reported lenient⟩
  obtain ⟨hanswers, hstates⟩ := answers_of_agree
    (fun request hrequest _ _ => Behind.run (hrequests request hrequest)) hstart
  refine ⟨fun key => ?_, hbare, hanswers, hstates, ?_⟩
  · rw [Client.fullKey, hlead]
  · exact ((List.forall₂_and_left _ _).1 (hstates.imp fun _ _ h => ⟨h.touched, h⟩)).1

/-- Requests that meet a fault and an object of others, and miss an object. -/
def sharedHistory : List ChunkedUpload.Request := [
  .create "b" "x" [1] false,
  .createFromReader "b" "y" { script := [.data [2, 3] none] },
  .compose "b" ["x", "y"] "z",
  .get "b" "z",
  .delete "b" "other",
  .compose "b" ["x", "other"] "z",
  .create "b/c" "x" [4] false,
  .get "b" "y"]

theorem prefix_transparent_shared :
    let objects : ObjectMap := ⟨[(("b", "other"), [9]), (("b", "p/y"), [8])]⟩
    let faults := [⟨.get, some 2, some "p/y", .status 500⟩, ⟨.put, none, some "x", .status 500⟩]
    let s : Store := ⟨⟨some "p", "https://s3", "auto"⟩, { objects, faults, lenient := true }, true⟩
    let settings : ServiceConfig := { endpoint := "https://s3", region := "auto" }
    Client.new { settings with keyPrefix := some "p//" } = .ok s.client ∧
    (∀ request ∈ sharedHistory, Addressable request) ∧
    answers sharedHistory s = [.ok (.stored ⟨"b", "x", 1⟩), .ok (.stored ⟨"b", "y", 2⟩),
      .ok (.stored ⟨"b", "z", 3⟩), .ok (.content [1, 2, 3]), .ok .deleted,
      .error (.failed (.notFound "other")), .ok (.stored ⟨"b/c", "x", 1⟩),
      .error (.failed refusal)] := by
  intro objects faults s settings
  have hclient : Client.new { settings with keyPrefix := some "p//" } = .ok s.client := by cbv
  have hrequests : ∀ request ∈ sharedHistory, Addressable request := by
    simp [sharedHistory, Addressable]
  obtain ⟨-, -, hanswers, -⟩ := prefix_transparent settings hclient objects faults [] true true
    hrequests
  refine ⟨hclient, hrequests, hanswers.trans ?_⟩
  cbv

/-- In a bucket with a slash in its name the text that names a copy source is that for another
bucket, where the prefix is not at the front of the key. So it can be seen from the first request
on, and with it an object of others is copied. -/
theorem prefix_seen_behind_slash :
    let c : Client := ⟨some "p", "https://s3", "auto"⟩
    let joining : List ChunkedUpload.Request := [.compose "a/b" ["x"] "z", .get "a/b" "z"]
    let whole := .create "a/b" "x" [1] false :: .create "a" "b/x" [2] false :: joining
    let found := [.ok (.stored ⟨"a/b", "z", 1⟩), .ok (.content [2])]
    let missed := [.error (.failed (.notFound "x")), .error (.failed (.notFound "z"))]
    let shared : Server := { objects := ⟨[(("a/b", "p/x"), [1]), (("a", "b/p/x"), [2])]⟩ }
    (answers whole (⟨c, {}, true⟩ : Store)).drop 2 = missed ∧
      (answers whole (⟨c.bare, {}, true⟩ : Store)).drop 2 = found ∧
      answers joining (⟨c, shared, true⟩ : Store) = found ∧ c.bareKey? "b/p/x" = none ∧
      answers joining (⟨c.bare, shared.behind c, true⟩ : Store) = missed := by
  refine ⟨?_, ?_, ?_, ?_, ?_⟩ <;> cbv

end S3.Store

end ChunkedUpload
