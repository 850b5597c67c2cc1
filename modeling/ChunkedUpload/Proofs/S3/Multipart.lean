import Mathlib.Data.List.Basic
import ChunkedUpload.Proofs.Reader.Delivery
import ChunkedUpload.Proofs.S3.Addresses
import ChunkedUpload.Proofs.Storage.Histories
import ChunkedUpload.S3.Store

/-!
# A service that answers everything

`Serves` says what objects and open uploads a service without faults has; `Store.At` says it of the
service that a client reaches. There is one lemma for each request that the store sends (`put_at`
and so on), and none of them mentions what the service logged.
-/

namespace ChunkedUpload.S3

variable {lenient : Bool} {c : Client} {objects : ObjectMap} {uploads : List OpenUpload} {s : Store}
  {bucket key full id : String}

/-- A service without faults that tells the true lengths, with these objects and open uploads. -/
structure Server.Serves (lenient : Bool) (objects : ObjectMap) (uploads : List OpenUpload)
    (s : Server) : Prop where
  faults : s.faults = []
  reported : s.reported = []
  lenient : s.lenient = lenient
  objects : s.objects = objects
  uploads : s.uploads = uploads

theorem Server.Serves.length? {server : Server} (h : server.Serves lenient objects uploads)
    (address : Address) : server.length? address = (objects.get? address).map List.length := by
  rw [Server.length?, h.reported, h.objects]
  rfl

theorem Server.Serves.content? {server : Server} (h : server.Serves lenient objects uploads)
    (address : Address) : server.content? address = objects.get? address := by
  rw [Server.content?_of_told, h.objects]
  rw [h.length?, h.objects]

theorem Server.Serves.upload? {server : Server} {upload : OpenUpload}
    (h : server.Serves lenient objects [upload]) : server.upload? upload.id = some upload := by
  rw [Server.upload?, h.uploads, List.find?_cons, decide_eq_true rfl]

theorem Server.Serves.takePart {server : Server} {upload : OpenUpload}
    (h : server.Serves lenient objects [upload]) (part : Nat) {body : Bytes}
    (hfits : body.length ≤ mostCopied) : ∃ server',
      server.takePart none upload.id part body =
        (.part (some (Server.partTag upload.id part)), server') ∧
      server'.Serves lenient objects [{ upload with parts := (part, body) :: upload.parts }] := by
  refine ⟨server.addPart upload.id part body, by rw [Server.takePart, if_pos hfits]; rfl, ?_⟩
  refine ⟨h.faults, h.reported, h.lenient, h.objects, ?_⟩
  rw [Server.addPart, h.uploads, List.map_cons, if_pos rfl, List.map_nil]

theorem Server.Serves.endUpload {server : Server} {upload : OpenUpload}
    (h : server.Serves lenient objects [upload]) :
    (server.endUpload upload.id).Serves lenient objects [] := by
  refine ⟨h.faults, h.reported, h.lenient, h.objects, ?_⟩
  rw [Server.endUpload, h.uploads]
  simp

/-! ## Pieces of a stream -/

/-- `bodies` are `flow` in pieces. All but the last one are large enough for a part that others
follow, and small enough for any part. -/
structure Slices (bodies : List Bytes) (flow : Bytes) : Prop where
  joined : bodies.flatten = flow
  none : flow = [] → bodies = []
  sizes : ∀ body ∈ bodies.dropLast, leastPartSize ≤ body.length ∧ body.length ≤ mostCopied

theorem Slices.nil : Slices [] [] := ⟨rfl, fun _ => rfl, nofun⟩

theorem Slices.ample {bodies : List Bytes} {flow : Bytes} (h : Slices bodies flow)
    (lenient : Bool) : Ample lenient bodies :=
  .inr fun body hbody => (h.sizes body hbody).1

theorem Slices.cons {bodies : List Bytes} {body flow : Bytes} (h : Slices bodies flow)
    (hbody : body ≠ [])
    (hsize : flow ≠ [] → leastPartSize ≤ body.length ∧ body.length ≤ mostCopied) :
    Slices (body :: bodies) (body ++ flow) := by
  refine ⟨by rw [List.flatten_cons, h.joined], fun hnil => ?_, fun other hother => ?_⟩
  · exact absurd (List.append_eq_nil_iff.1 hnil).1 hbody
  · cases bodies with
    | nil => cases hother
    | cons first others =>
      have hflow : flow ≠ [] := fun hnil => List.cons_ne_nil _ _ (h.none hnil)
      rw [List.dropLast_cons_of_ne_nil (List.cons_ne_nil _ _), List.mem_cons] at hother
      rcases hother with rfl | hother
      · exact hsize hflow
      · exact h.sizes other hother

/-- A buffer that is large enough for a part, and not too large. -/
def Roomy (b : Reader.Buffer) : Prop := leastPartSize ≤ b.size ∧ b.size ≤ mostCopied

theorem roomy_streamPartSize (number : Int) (front : Bytes) :
    Roomy ⟨streamPartSize number, front⟩ := by
  have hdoublings : doublings number ≤ mostDoublings := Nat.min_le_right _ _
  refine ⟨Nat.le_shiftLeft, ?_⟩
  show leastPartSize <<< doublings number ≤ _
  rw [Nat.shiftLeft_eq]
  calc leastPartSize * 2 ^ doublings number
      ≤ leastPartSize * 2 ^ mostDoublings :=
        Nat.mul_le_mul_left _ (Nat.pow_le_pow_right Nat.two_pos hdoublings)
    _ ≤ mostCopied := by decide

theorem Roomy.grow {b : Reader.Buffer} (h : Roomy b) (number : Int) :
    Roomy (b.grow (streamPartSize number)) :=
  ⟨Nat.le_trans h.1 (Nat.le_max_left _ _),
    Nat.max_le.2 ⟨h.2, (roomy_streamPartSize number []).2⟩⟩

namespace Store

/-- A client that reaches such a service. -/
structure At (lenient : Bool) (c : Client) (objects : ObjectMap) (uploads : List OpenUpload)
    (s : Store) : Prop where
  client : s.client = c
  reachable : s.reachable = true
  serves : s.server.Serves lenient objects uploads

/-- A request gets through and is performed if the client can build it. -/
theorem send_at {objects' : ObjectMap} {uploads' : List OpenUpload}
    (h : At lenient c objects uploads s) (request : Request) (response : Response)
    (hbucket : request.bucket ≠ "") (hkey : request.key ≠ "")
    (hperform : ∀ server : Server, server.Serves lenient objects uploads →
      server.issued = s.server.issued → ∃ server',
        Server.perform none request server = (response, server') ∧
          server'.Serves lenient objects' uploads') :
    ∃ s', send request s = .ok response s' ∧ At lenient c objects' uploads' s' := by
  obtain ⟨server, hserver⟩ : ∃ server : Server,
      server = { s.server with log := s.server.log ++ [request] } := ⟨_, rfl⟩
  have hserves : server.Serves lenient objects uploads := by
    rw [hserver]
    exact ⟨h.serves.faults, h.serves.reported, h.serves.lenient, h.serves.objects, h.serves.uploads⟩
  obtain ⟨server', hdone, hserves'⟩ := hperform server hserves (hserver ▸ rfl)
  have hnone : server.effect? request = none := by
    rw [Server.effect?, hserves.faults]
    rfl
  have hanswer : s.server.answer request = (response, server') := by
    rw [Server.answer, ← hserver]
    simp only [hnone, hdone]
  refine ⟨{ s with server := server' }, ?_, h.client, h.reachable, hserves'⟩
  rw [send, if_neg (not_or.2 ⟨hbucket, hkey⟩), if_pos h.reachable, hanswer]

theorem fullKey_at (h : At lenient c objects uploads s) :
    fullKey key s = .ok (c.fullKey key) s := by
  rw [fullKey, h.client]

/-! ## One object -/

theorem put_at (h : At lenient c objects uploads s) (hbucket : bucket ≠ "") (hkey : key ≠ "")
    (data : Bytes) : ∃ s', put bucket key data s = .ok ⟨bucket, key, data.length⟩ s' ∧
      At lenient c (objects.insert (bucket, c.fullKey key) data) uploads s' := by
  obtain ⟨s', hsend, hs'⟩ := send_at h ⟨bucket, c.fullKey key, .put data⟩ .done hbucket
    (Client.fullKey_ne_empty hkey) fun server hserves _ =>
      ⟨{ server with objects := server.objects.insert (bucket, c.fullKey key) data }, rfl,
        hserves.faults, hserves.reported, hserves.lenient, by rw [hserves.objects],
        hserves.uploads⟩
  refine ⟨s', ?_, hs'⟩
  rw [put, Call.bind_of_ok (fullKey_at h), Call.bind_of_ok hsend]
  rfl

theorem delete_at (h : At lenient c objects uploads s) (hbucket : bucket ≠ "") (hkey : key ≠ "") :
    ∃ s', delete bucket key s = .ok () s' ∧
      At lenient c (objects.erase (bucket, c.fullKey key)) uploads s' := by
  obtain ⟨s', hsend, hs'⟩ := send_at h ⟨bucket, c.fullKey key, .delete⟩ .done hbucket
    (Client.fullKey_ne_empty hkey) fun server hserves _ =>
      ⟨{ server with objects := server.objects.erase (bucket, c.fullKey key) }, rfl,
        hserves.faults, hserves.reported, hserves.lenient, by rw [hserves.objects],
        hserves.uploads⟩
  refine ⟨s', ?_, hs'⟩
  rw [delete, Call.bind_of_ok (fullKey_at h), Call.bind_of_ok hsend]
  rfl

theorem read_at (h : At lenient c objects uploads s) (hbucket : bucket ≠ "") (hkey : key ≠ "") :
    ∃ s', At lenient c objects uploads s' ∧ read bucket key s =
      match objects.get? (bucket, c.fullKey key) with
      | some content => .ok content s'
      | none => .error (.failed (.notFound key)) s' := by
  cases hget : objects.get? (bucket, c.fullKey key) with
  | some content =>
    obtain ⟨s', hsend, hs'⟩ := send_at h ⟨bucket, c.fullKey key, .get⟩
      (.content content true) hbucket (Client.fullKey_ne_empty hkey) fun server hserves _ =>
        ⟨server, by simp only [Server.perform, hserves.objects, hget]; rfl, hserves⟩
    refine ⟨s', hs', ?_⟩
    rw [read, Call.bind_of_ok (fullKey_at h), Call.bind_of_ok hsend]
    rfl
  | none =>
    obtain ⟨s', hsend, hs'⟩ := send_at h ⟨bucket, c.fullKey key, .get⟩ (.status 404)
      hbucket (Client.fullKey_ne_empty hkey) fun server hserves _ =>
        ⟨server, by simp only [Server.perform, hserves.objects, hget], hserves⟩
    refine ⟨s', hs', ?_⟩
    rw [read, Call.bind_of_ok (fullKey_at h), Call.bind_of_ok hsend]
    rfl

theorem objectSize_at (h : At lenient c objects uploads s) (hbucket : bucket ≠ "")
    (hkey : key ≠ "") :
    ∃ s', At lenient c objects uploads s' ∧ objectSize bucket key s =
      match objects.get? (bucket, c.fullKey key) with
      | some content => .ok content.length s'
      | none => .error (.failed (.notFound key)) s' := by
  cases hget : objects.get? (bucket, c.fullKey key) with
  | some content =>
    obtain ⟨s', hsend, hs'⟩ := send_at h ⟨bucket, c.fullKey key, .head⟩
      (.length (some content.length)) hbucket (Client.fullKey_ne_empty hkey) fun server hserves _ =>
        ⟨server, by simp only [Server.perform, hserves.length?, hget]; rfl, hserves⟩
    refine ⟨s', hs', ?_⟩
    rw [objectSize, Call.bind_of_ok (fullKey_at h), Call.bind_of_ok hsend]
    rfl
  | none =>
    obtain ⟨s', hsend, hs'⟩ := send_at h ⟨bucket, c.fullKey key, .head⟩ (.status 404)
      hbucket (Client.fullKey_ne_empty hkey) fun server hserves _ =>
        ⟨server, by simp only [Server.perform, hserves.length?, hget]; rfl, hserves⟩
    refine ⟨s', hs', ?_⟩
    rw [objectSize, Call.bind_of_ok (fullKey_at h), Call.bind_of_ok hsend]
    rfl

/-! ## Multipart uploads -/

theorem startUpload_at (h : At lenient c objects [] s) (hbucket : bucket ≠ "")
    (hfull : full ≠ "") : ∃ id s', startUpload bucket full s = .ok id s' ∧
      At lenient c objects [⟨id, (bucket, full), []⟩] s' := by
  obtain ⟨id, hid⟩ : ∃ id, id = "upload-" ++ (s.server.issued + 1).repr := ⟨_, rfl⟩
  obtain ⟨s', hsend, hs'⟩ := send_at h ⟨bucket, full, .createUpload⟩ (.upload (some id)) hbucket
    hfull fun server hserves hissued =>
      ⟨{ server with
          issued := server.issued + 1
          uploads := server.uploads ++ [⟨id, (bucket, full), []⟩] },
        by rw [hid, ← hissued]; rfl, hserves.faults, hserves.reported, hserves.lenient,
        hserves.objects, by rw [hserves.uploads]⟩
  refine ⟨id, s', ?_, hs'⟩
  rw [startUpload, Call.bind_of_ok hsend]
  rfl

variable {sent : List (Nat × Bytes)} {body : Bytes}

theorem uploadPart_at (h : At lenient c objects [⟨id, (bucket, full), sent⟩] s)
    (hbucket : bucket ≠ "") (hfull : full ≠ "") (part : Nat) (hfits : body.length ≤ mostCopied) :
    ∃ s', uploadPart bucket full id part body s = .ok (Server.partTag id part) s' ∧
      At lenient c objects [⟨id, (bucket, full), (part, body) :: sent⟩] s' := by
  obtain ⟨s', hsend, hs'⟩ := send_at h ⟨bucket, full, .uploadPart id part body⟩
    (.part (some (Server.partTag id part))) hbucket hfull fun server hserves _ => by
      simp only [Server.perform, hserves.upload?]
      exact hserves.takePart part hfits
  refine ⟨s', ?_, hs'⟩
  rw [uploadPart, Call.bind_of_ok hsend]
  rfl

/-- A copy of a whole object is a part with its content. -/
theorem copyPart_at (h : At lenient c objects [⟨id, (bucket, full), sent⟩] s)
    (hbucket : bucket ≠ "") (hslash : '/' ∉ bucket.toList) (hfull : full ≠ "") (part : Nat)
    {source : String} (hsource : objects.get? (bucket, c.fullKey source) = some body)
    (hfits : body.length ≤ mostCopied) :
    ∃ s', copyPart bucket full id part source none s = .ok (Server.partTag id part) s' ∧
      At lenient c objects [⟨id, (bucket, full), (part, body) :: sent⟩] s' := by
  obtain ⟨s', hsend, hs'⟩ := send_at h
    ⟨bucket, full, .copyPart id part (c.copySource bucket source) none⟩
    (.part (some (Server.partTag id part))) hbucket hfull fun server hserves _ => by
      have hcopied : server.copied? (c.copySource bucket source) none = some body := by
        rw [Server.copied?_copySource hslash, hserves.content?, hsource]
        rfl
      simp only [Server.perform, hserves.upload?, hcopied]
      exact hserves.takePart part hfits
  refine ⟨s', ?_, hs'⟩
  rw [copyPart, Call.bind_of_ok (fullKey_at h), ← Client.copySource, Call.bind_of_ok hsend]
  rfl

theorem abortUpload_at (h : At lenient c objects [⟨id, (bucket, full), sent⟩] s)
    (hbucket : bucket ≠ "") (hfull : full ≠ "") :
    At lenient c objects [] (abortUpload bucket full id s) := by
  obtain ⟨s', hsend, hs'⟩ := send_at h ⟨bucket, full, .abortUpload id⟩ .done hbucket hfull
    fun server hserves _ =>
      ⟨server.endUpload id, by simp only [Server.perform, hserves.upload?], hserves.endUpload⟩
  rw [abortUpload, hsend]
  exact hs'

/-! ## Parts in order -/

/-- The listed parts are numbered from 1 on, below `next`, and have these contents. -/
structure Sent (id : String) (sent : List (Nat × Bytes)) (parts : List (Nat × String)) (next : Nat)
    (contents : List Bytes) : Prop where
  numbers : parts.map (·.1) = List.range' 1 parts.length
  next : next = parts.length + 1
  held : ∀ address, parts.map (OpenUpload.part? ⟨id, address, sent⟩) = contents.map some

namespace Sent

variable {parts : List (Nat × String)} {next : Nat} {contents : List Bytes}

theorem nil (id : String) : Sent id [] [] 1 [] := ⟨rfl, rfl, fun _ => rfl⟩

/-- A new part does not change those before it. -/
theorem add (h : Sent id sent parts next contents) (body : Bytes) :
    Sent id ((next, body) :: sent) (parts ++ [(next, Server.partTag id next)]) (next + 1)
      (contents ++ [body]) := by
  refine ⟨?_, ?_, fun address => ?_⟩
  · rw [List.map_append, h.numbers, List.length_append, List.length_singleton, List.range'_concat,
      h.next, Nat.one_mul, Nat.add_comm 1]
    rfl
  · rw [List.length_append, List.length_singleton, h.next]
  · have hold : ∀ part ∈ parts, OpenUpload.part? ⟨id, address, (next, body) :: sent⟩ part =
        OpenUpload.part? ⟨id, address, sent⟩ part := by
      intro part hpart
      have hbelow : part.1 ∈ List.range' 1 parts.length :=
        h.numbers ▸ List.mem_map_of_mem hpart
      have hother : part.1 ≠ next := by
        rw [List.mem_range'_1] at hbelow
        rw [h.next]
        omega
      rw [OpenUpload.part?, OpenUpload.part?, List.lookup_cons, beq_false_of_ne hother]
    have hnew : OpenUpload.part? ⟨id, address, (next, body) :: sent⟩
        (next, Server.partTag id next) = some body := by
      rw [OpenUpload.part?, if_pos rfl, List.lookup_cons_self]
    rw [List.map_append, List.map_append, ← h.held address, List.map_congr_left hold, List.map_cons,
      hnew]
    rfl

/-- Parts that were sent in order can be joined if they are large enough. -/
theorem joinable_iff (h : Sent id sent parts next contents) (lenient : Bool) (hsome : contents ≠ [])
    (hfew : next ≤ mostParts + 1) :
    Joinable lenient (parts.map (·.1)) contents ↔ Ample lenient contents := by
  refine ⟨fun hjoinable => hjoinable.ample, fun hample => ⟨?_, ?_, ?_, hample⟩⟩
  · rintro hnil
    have hheld := h.held ("", "")
    rw [List.map_eq_nil_iff.1 hnil, List.map_nil, eq_comm, List.map_eq_nil_iff] at hheld
    exact hsome hheld
  · rw [List.length_map]
    have := h.next
    omega
  · rw [h.numbers]
    exact List.pairwise_lt_range' 1

end Sent

variable {parts : List (Nat × String)} {part next : Nat} {contents : List Bytes}

theorem completeUpload_at (h : At lenient c objects [⟨id, (bucket, full), sent⟩] s)
    (hbucket : bucket ≠ "") (hfull : full ≠ "") (hsent : Sent id sent parts next contents)
    (hjoinable : Joinable lenient (parts.map (·.1)) contents) :
    ∃ s', completeUpload bucket full id parts s = .ok () s' ∧
      At lenient c (objects.insert (bucket, full) contents.flatten) [] s' := by
  obtain ⟨s', hsend, hs'⟩ := send_at h ⟨bucket, full, .completeUpload id parts⟩ .done hbucket
    hfull fun server hserves _ => by
      have hjoined := OpenUpload.join?_of_held lenient (hsent.held (bucket, full))
      rw [if_pos hjoinable] at hjoined
      have hended := hserves.endUpload
      refine ⟨{ server.endUpload id with
          objects := (server.endUpload id).objects.insert (bucket, full) contents.flatten },
        ?_, hended.faults, hended.reported, hended.lenient, by rw [hended.objects], hended.uploads⟩
      simp only [Server.perform, hserves.upload?, hserves.lenient, hjoined]
  refine ⟨s', ?_, hs'⟩
  rw [completeUpload, Call.bind_of_ok hsend]
  rfl

/-- Parts that the service does not take leave the upload open. -/
theorem completeUpload_refused_at (h : At lenient c objects [⟨id, (bucket, full), sent⟩] s)
    (hbucket : bucket ≠ "") (hfull : full ≠ "") (hsent : Sent id sent parts next contents)
    (hrefused : ¬ Joinable lenient (parts.map (·.1)) contents) :
    ∃ s', completeUpload bucket full id parts s = .error (.failed refusal) s' ∧
      At lenient c objects [⟨id, (bucket, full), sent⟩] s' := by
  obtain ⟨s', hsend, hs'⟩ := send_at h ⟨bucket, full, .completeUpload id parts⟩ (.status 400)
    hbucket hfull fun server hserves _ => by
      have hjoined := OpenUpload.join?_of_held lenient (hsent.held (bucket, full))
      rw [if_neg hrefused] at hjoined
      exact ⟨server, by simp only [Server.perform, hserves.upload?, hserves.lenient, hjoined],
        hserves⟩
  refine ⟨s', ?_, hs'⟩
  rw [completeUpload, Call.bind_of_ok hsend]
  rfl

/-! ## Copies -/

/-- The objects of `m`, each under the client's key for it. -/
def Mirrors (c : Client) (m objects : ObjectMap) : Prop :=
  ∀ bucket key, objects.get? (bucket, c.fullKey key) = m.get? (bucket, key)

variable {m : ObjectMap}

theorem rangesOf_of_le {size : Nat} (h : size ≤ mostCopied) : rangesOf size = [none] := by
  rw [rangesOf, CopyRange.split?, if_pos h]

theorem copySource_at (h : At lenient c objects [⟨id, (bucket, full), sent⟩] s)
    (hbucket : bucket ≠ "") (hslash : '/' ∉ bucket.toList) (hfull : full ≠ "") {source : String}
    (hsource : objects.get? (bucket, c.fullKey source) = some body)
    (hsize : body.length ≤ mostCopied) (hpart : part ≤ mostParts) :
    ∃ s', copyRanges bucket full id source (rangesOf body.length) part s =
        .ok [(part, Server.partTag id part)] s' ∧
      At lenient c objects [⟨id, (bucket, full), (part, body) :: sent⟩] s' := by
  have hranges := rangesOf_of_le hsize
  have hnumber : checkPartNumber part = .ok () :=
    checkPartNumber_eq_ok_iff.2 (Int.ofNat_le.2 hpart)
  obtain ⟨s', hcopy, hs'⟩ := copyPart_at h hbucket hslash hfull part hsource hsize
  refine ⟨s', ?_, hs'⟩
  rw [hranges, copyRanges, hnumber, Call.ofExcept_ok, Call.pure_bind, Call.bind_of_ok hcopy]
  rfl

/-- Copying the sources one after another: a missing one ends it, as it does on a map. -/
theorem copyParts_at (hbucket : bucket ≠ "") (hslash : '/' ∉ bucket.toList) (hfull : full ≠ "")
    (hmirrors : Mirrors c m objects)
    (hsizes : ∀ address content, m.get? address = some content → content.length ≤ mostCopied) :
    ∀ {sources : List String} {sent : List (Nat × Bytes)} {parts : List (Nat × String)}
      {part : Nat} {contents : List Bytes} {s : Store}, (∀ source ∈ sources, source ≠ "") →
      part + sources.length ≤ mostParts + 1 →
      At lenient c objects [⟨id, (bucket, full), sent⟩] s → Sent id sent parts part contents →
      match m.gather bucket sources with
      | .ok content => ∃ pieces more sent' s',
          copyParts bucket full id sources part s = .ok more s' ∧
          At lenient c objects [⟨id, (bucket, full), sent'⟩] s' ∧
          Sent id sent' (parts ++ more) (part + sources.length) (contents ++ pieces) ∧
          sources.map (fun source => m.get? (bucket, source)) = pieces.map some ∧
          content = pieces.flatten
      | .error error => ∃ sent' s',
          copyParts bucket full id sources part s = .error (.failed error) s' ∧
          At lenient c objects [⟨id, (bucket, full), sent'⟩] s' := by
  intro sources
  induction sources with
  | nil =>
    intro sent parts part contents s _ _ h hsent
    exact ⟨[], [], sent, s, rfl, h, by simpa using hsent, rfl, rfl⟩
  | cons source others ih =>
    intro sent parts part contents s hsources hcount h hsent
    rw [List.forall_mem_cons] at hsources
    rw [List.length_cons] at hcount
    obtain ⟨s₁, hs₁, hhead⟩ := objectSize_at h hbucket hsources.1
    rw [hmirrors] at hhead
    cases hget : m.get? (bucket, source) with
    | none =>
      rw [hget] at hhead
      have hgather : m.gather bucket (source :: others) = .error (.notFound source) := by
        rw [ObjectMap.gather, hget]
        rfl
      rw [hgather]
      exact ⟨sent, s₁, by rw [copyParts, Call.bind_of_error hhead], hs₁⟩
    | some body =>
      rw [hget] at hhead
      have hsize := hsizes _ body hget
      obtain ⟨s₂, hcopy, hs₂⟩ := copySource_at hs₁ hbucket hslash hfull
        ((hmirrors bucket source).trans hget) hsize (show part ≤ mostParts by omega)
      have hranges : (rangesOf body.length).length = 1 := by
        rw [rangesOf_of_le hsize]
        rfl
      have hrest := ih hsources.2 (by omega) hs₂ (hsent.add body)
      have hrun : copyParts bucket full id (source :: others) part s =
          (copyParts bucket full id others (part + 1) >>= fun more =>
            pure ([(part, Server.partTag id part)] ++ more)) s₂ := by
        rw [copyParts, Call.bind_of_ok hhead, Call.bind_of_ok hcopy, hranges]
      rw [ObjectMap.gather, hget]
      cases hgather : m.gather bucket others with
      | error error =>
        rw [hgather] at hrest
        obtain ⟨sent', s', hcopies, hs'⟩ := hrest
        exact ⟨sent', s', hrun.trans (Call.bind_of_error hcopies), hs'⟩
      | ok content =>
        rw [hgather] at hrest
        obtain ⟨pieces, more, sent', s', hcopies, hs', hsent', hpieces, rfl⟩ := hrest
        refine ⟨body :: pieces, _, sent', s', hrun.trans (Call.bind_of_ok hcopies), hs', ?_, ?_,
          rfl⟩
        · rw [List.append_assoc, List.append_assoc, Nat.add_assoc, Nat.add_comm 1] at hsent'
          exact hsent'
        · rw [List.map_cons, List.map_cons, hget, hpieces]

/-! ## Streams -/

/-- A buffer that was filled from the front of `content`, as far as it goes or there is any. -/
structure Filling (x : Reader.Refilled) (content : Bytes) : Prop where
  stop : x.stop = .done
  count : x.count = x.chunk.length
  steady : x.rest.Steady
  joined : x.chunk ++ x.rest.content = content
  full : x.rest.content = [] ∨ x.chunk.length = x.buffer.size
  fits : x.chunk.length ≤ x.buffer.size
  roomy : Roomy x.buffer

theorem filling_refill {r : Reader} (h : r.Steady) {b : Reader.Buffer} (hroomy : Roomy b) :
    Filling (Reader.refill b r) r.content := by
  obtain ⟨x, hx, hstop, hchunk, hcount, hsize, hsteady, -, hrest⟩ := h.refill b
  have hlength : x.chunk.length = min b.size r.content.length := by
    rw [hchunk, List.length_take]
  rw [hx]
  refine ⟨hstop, ?_, hsteady, ?_, ?_, ?_, ?_⟩
  · rw [hcount, hlength]
  · rw [hchunk, hrest, List.take_append_drop]
  · rw [hrest, hsize, hlength]
    by_cases hall : r.content.length ≤ b.size
    · exact .inl (List.drop_of_length_le hall)
    · exact .inr (by omega)
  · rw [hsize, hlength]
    exact Nat.min_le_left _ _
  · rw [Roomy, hsize]
    exact hroomy

theorem filled_eq {x : Reader.Refilled} (h : x.stop = .done) :
    filled x = (pure x : Call Store _) := by
  rw [filled, h]

theorem uploadParts_of_pos {bucket full id : String} {part : Nat} {x : Reader.Refilled}
    {parts : List (Nat × String)} {size : Nat} (hcount : x.count ≠ 0) (hpart : part ≤ mostParts) :
    uploadParts bucket full id part x parts size = (do
      let tag ← uploadPart bucket full id part x.chunk
      let next ← filled (Reader.refill (x.buffer.grow (streamPartSize (part + 1))) x.rest)
      uploadParts bucket full id (part + 1) next (parts ++ [(part, tag)]) (size + x.count)) := by
  have hnumber : checkPartNumber part = .ok () :=
    checkPartNumber_eq_ok_iff.2 (Int.ofNat_le.2 hpart)
  rw [uploadParts, if_neg hcount]
  split
  · rename_i hbad
    rw [hnumber] at hbad
    cases hbad
  · rfl

/-- A stream of at most 5 GiB goes through: its parts, all but the last, have at least 5 MiB, so
that there are not too many of them. -/
theorem uploadParts_at (hbucket : bucket ≠ "") (hfull : full ≠ "") :
    ∀ {x : Reader.Refilled} {content : Bytes} {sent : List (Nat × Bytes)}
      {parts : List (Nat × String)} {part : Nat} {contents : List Bytes} {size : Nat} {s : Store},
      Filling x content → At lenient c objects [⟨id, (bucket, full), sent⟩] s →
      Sent id sent parts part contents → part ≤ mostParts + 1 →
      size + content.length ≤ mostCopied →
      (content = [] ∨ (part - 1) * leastPartSize ≤ size) →
      ∃ parts' sent' next pieces s',
        uploadParts bucket full id part x parts size s =
          .ok (parts', size + content.length) s' ∧
        At lenient c objects [⟨id, (bucket, full), sent'⟩] s' ∧
        Sent id sent' parts' next (contents ++ pieces) ∧ Slices pieces content ∧
        next ≤ mostParts + 1 := by
  intro x content
  -- every part that is sent makes the content shorter
  induction hn : content.length using Nat.strongRecOn generalizing x content with
  | _ n ih =>
    subst hn
    intro sent parts part contents size s hx h hsent hpart hsize hfew
    by_cases hzero : x.count = 0
    · have hchunk : x.chunk = [] := List.length_eq_zero_iff.1 (hx.count ▸ hzero)
      have hcontent : content = [] := by
        rcases hx.full with hend | hroom
        · rw [← hx.joined, hchunk, hend]
          rfl
        · have := hx.roomy.1
          rw [← hroom, ← hx.count, hzero] at this
          exact absurd this (by decide)
      rw [uploadParts, if_pos hzero, hcontent]
      exact ⟨parts, sent, part, [], s, rfl, h, by rwa [List.append_nil], .nil, hpart⟩
    · have hsome : x.chunk ≠ [] := fun hnil => hzero (by rw [hx.count, hnil]; rfl)
      have hpos := List.length_pos_iff.2 hsome
      have hlen : x.chunk.length + x.rest.content.length = content.length := by
        rw [← hx.joined, List.length_append]
      have hmany : (part - 1) * leastPartSize ≤ size := hfew.resolve_left fun hnil => by
        rw [hnil, List.length_nil] at hlen
        omega
      have hnumber : part ≤ mostParts := by
        simp only [leastPartSize, mostCopied, mostParts] at hmany hsize ⊢
        omega
      obtain ⟨s₁, hupload, hs₁⟩ := uploadPart_at h hbucket hfull part
        (Nat.le_trans hx.fits hx.roomy.2)
      have hnext := filling_refill hx.steady (hx.roomy.grow (part + 1))
      -- a part that is followed by another one is as large as the buffer
      have hfew' : x.rest.content = [] ∨
          (part + 1 - 1) * leastPartSize ≤ size + x.chunk.length := by
        refine hx.full.imp_right fun hwhole => ?_
        obtain ⟨before, rfl⟩ : ∃ before, part = before + 1 := ⟨parts.length, hsent.next⟩
        rw [Nat.add_sub_cancel] at hmany
        rw [Nat.add_sub_cancel, Nat.succ_mul, hwhole]
        exact Nat.add_le_add hmany hx.roomy.1
      obtain ⟨parts', sent', next, pieces, s', hrun, hs', hsent', hslices, hmost⟩ :=
        ih x.rest.content.length (by omega) rfl hnext hs₁ (hsent.add x.chunk)
          (Nat.succ_le_succ hnumber) (by omega) hfew'
      refine ⟨parts', sent', next, x.chunk :: pieces, s', ?_, hs', ?_, ?_, hmost⟩
      · rw [uploadParts_of_pos hzero hnumber, Call.bind_of_ok hupload, filled_eq hnext.stop,
          Call.pure_bind, hx.count, ← hlen, ← Nat.add_assoc]
        exact hrun
      · rw [List.append_assoc] at hsent'
        exact hsent'
      · rw [← hx.joined]
        refine hslices.cons hsome fun hmore => ?_
        rw [hx.full.resolve_left hmore]
        exact hx.roomy

end Store

end ChunkedUpload.S3
