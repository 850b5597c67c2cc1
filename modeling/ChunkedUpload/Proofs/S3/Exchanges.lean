import ChunkedUpload.Proofs.S3.Addresses
import ChunkedUpload.Proofs.Storage.Ending
import ChunkedUpload.S3.Store

/-!
# What a store says to its service

`Server.Performed` lists what can become of one request, and every answer of a service is one of
these cases (`Server.performed_of_answer`), so what all requests keep is read off from it.
`Server.Talk s es t` is a conversation: the service in state `s` got the requests of `es` one after
another, gave the answers noted with them, and is then in state `t`. There is one lemma for each
request that the store sends (`ends_startUpload` and so on): whatever the faults of the service, the
call says just that, or nothing if the request does not get through.
-/

namespace ChunkedUpload.S3

open Call (Ends)

/-- A request with the answer to it. -/
structure Exchange where
  request : Request
  response : Response

/-- The upload and the number of a request that carries a part. -/
def Action.part? : Action → Option (String × Nat)
  | .uploadPart id part _ | .copyPart id part _ _ => some (id, part)
  | _ => none

/-- The number of the part that is carried, with the tag in the answer. -/
def Exchange.tagged? (e : Exchange) : Option (Nat × String) :=
  match e.request.action.part?, e.response with
  | some (_, part), .part (some tag) => some (part, tag)
  | _, _ => none

/-- An HTTP error, or an answer without the id or the tag that was asked for. -/
def Response.Fails : Response → Prop
  | .status _ | .upload none | .part none => True
  | _ => False

/-- The kinds of answer that a service gives, beside HTTP errors. -/
def Action.Fits : Action → Response → Prop
  | _, .status _ => True
  | .get, .content _ _ | .head, .length _ | .createUpload, .upload _ => True
  | .uploadPart .., .part _ | .copyPart .., .part _ => True
  | .put _, .done | .delete, .done | .completeUpload .., .done | .abortUpload _, .done => True
  | _, _ => False

/-- The actions that are answered with no more than that they were done. -/
def Action.Plain : Action → Prop
  | .put _ | .delete | .completeUpload .. | .abortUpload _ => True
  | _ => False

theorem Action.Fits.of_plain {action : Action} {response : Response} (h : action.Fits response)
    (hplain : action.Plain) : response = .done ∨ ∃ code, response = .status code := by
  cases response with
  | status code => exact .inr ⟨code, rfl⟩
  | done => exact .inl rfl
  | _ => cases action <;> first | exact h.elim | exact hplain.elim

theorem Action.Fits.of_part {action : Action} {response : Response} {carried : String × Nat}
    (h : action.Fits response) (hpart : action.part? = some carried) :
    (∃ tag, response = .part tag) ∨ ∃ code, response = .status code := by
  cases response with
  | status code => exact .inr ⟨code, rfl⟩
  | part tag => exact .inl ⟨tag, rfl⟩
  | _ => cases action <;> first | exact h.elim | cases hpart

namespace Server

/-- The service is asked all that is in `es` and answers it, which leads from `s` to `t`. -/
inductive Talk : Server → List Exchange → Server → Prop
  | nil (s : Server) : Talk s [] s
  | cons {s t u : Server} {e : Exchange} {es : List Exchange} :
      s.answer e.request = (e.response, t) → Talk t es u → Talk s (e :: es) u

namespace Talk

variable {s t u : Server} {es fs : List Exchange} {e : Exchange}

theorem append (h : Talk s es t) (h' : Talk t fs u) : Talk s (es ++ fs) u := by
  induction h with
  | nil => exact h'
  | cons he _ ih => exact .cons he (ih h')

theorem append_iff : Talk s (es ++ fs) u ↔ ∃ t, Talk s es t ∧ Talk t fs u := by
  constructor
  · intro h
    induction es generalizing s with
    | nil => exact ⟨s, .nil s, h⟩
    | cons e es ih =>
      cases h with
      | cons he h =>
        obtain ⟨t, h₁, h₂⟩ := ih h
        exact ⟨t, .cons he h₁, h₂⟩
  · rintro ⟨t, h₁, h₂⟩
    exact h₁.append h₂

theorem cons_iff : Talk s (e :: es) u ↔
    ∃ t, s.answer e.request = (e.response, t) ∧ Talk t es u := by
  constructor
  · rintro (_ | ⟨he, h⟩)
    exact ⟨_, he, h⟩
  · rintro ⟨t, he, h⟩
    exact .cons he h

end Talk

/-- What becomes of a request: it is refused, which changes nothing, or done, for which the service
has what it needs. -/
inductive Performed (effect : Option Effect) (s : Server) : Request → Response → Server → Prop
  | refused (request : Request) (code : Nat) : Performed effect s request (.status code) s
  | put {bucket key : String} {body : Bytes} : Performed effect s ⟨bucket, key, .put body⟩ .done
      { s with objects := s.objects.insert (bucket, key) body }
  | delete {bucket key : String} : Performed effect s ⟨bucket, key, .delete⟩ .done
      { s with objects := s.objects.erase (bucket, key) }
  | get {bucket key : String} {content : Bytes} (complete : Bool) :
      s.objects.get? (bucket, key) = some content →
      Performed effect s ⟨bucket, key, .get⟩ (.content content complete) s
  | head {bucket key : String} {size : Nat} : s.length? (bucket, key) = some size →
      Performed effect s ⟨bucket, key, .head⟩ (.length (unlessOmitted .length effect size)) s
  | createUpload {bucket key id : String} : id = "upload-" ++ (s.issued + 1).repr →
      Performed effect s ⟨bucket, key, .createUpload⟩ (.upload (unlessOmitted .uploadId effect id))
        { s with issued := s.issued + 1, uploads := s.uploads ++ [⟨id, (bucket, key), []⟩] }
  | uploadPart {bucket key id : String} {part : Nat} {body : Bytes} {upload : OpenUpload} :
      s.upload? id = some upload → body.length ≤ mostCopied →
      Performed effect s ⟨bucket, key, .uploadPart id part body⟩
        (.part (unlessOmitted .tag effect (partTag id part))) (s.addPart id part body)
  | copyPart {bucket key id source : String} {part : Nat} {range : Option CopyRange} {body : Bytes}
      {upload : OpenUpload} : s.upload? id = some upload →
      s.copied? source range = some body → body.length ≤ mostCopied →
      Performed effect s ⟨bucket, key, .copyPart id part source range⟩
        (.part (unlessOmitted .tag effect (partTag id part))) (s.addPart id part body)
  | completeUpload {bucket key id : String} {parts : List (Nat × String)} {upload : OpenUpload}
      {content : Bytes} : s.upload? id = some upload →
      upload.join? s.lenient parts = some content →
      Performed effect s ⟨bucket, key, .completeUpload id parts⟩ .done
        { s.endUpload id with objects := s.objects.insert upload.address content }
  | abortUpload {bucket key id : String} {upload : OpenUpload} : s.upload? id = some upload →
      Performed effect s ⟨bucket, key, .abortUpload id⟩ .done (s.endUpload id)

theorem performed_perform (effect : Option Effect) (request : Request) (s : Server) :
    Performed effect s request (perform effect request s).1 (perform effect request s).2 := by
  obtain ⟨bucket, key, action⟩ := request
  cases action with
  | put body => exact .put
  | delete => exact .delete
  | createUpload => exact .createUpload rfl
  | get =>
    simp only [perform]
    split
    · rename_i hget
      exact .get _ hget
    · exact .refused _ _
  | head =>
    simp only [perform]
    split
    · rename_i hlength
      exact .head hlength
    · exact .refused _ _
  | uploadPart id part body =>
    simp only [perform, takePart]
    split
    · rename_i hopen
      split
      · rename_i hfits
        exact .uploadPart hopen hfits
      · exact .refused _ _
    · exact .refused _ _
  | copyPart id part source range =>
    simp only [perform, takePart]
    split
    · rename_i hopen hcopied
      split
      · rename_i hfits
        exact .copyPart hopen hcopied hfits
      · exact .refused _ _
    · exact .refused _ _
  | completeUpload id parts =>
    simp only [perform]
    split
    · rename_i hopen
      split
      · rename_i hjoined
        exact .completeUpload hopen hjoined
      · exact .refused _ _
    · exact .refused _ _
  | abortUpload id =>
    simp only [perform]
    split
    · rename_i hopen
      exact .abortUpload hopen
    · exact .refused _ _

/-- Whatever the service answers, that is what became of the request. Nothing is left out of an
answer if no fault strikes. -/
theorem performed_of_answer {request : Request} {response : Response} {s t : Server}
    (h : s.answer request = (response, t)) : ∃ effect, (s.faults = [] → effect = none) ∧
      Performed effect { s with log := s.log ++ [request] } request response t := by
  unfold answer at h
  dsimp only at h
  split at h
  · cases h
    exact ⟨none, fun _ => rfl, .refused _ _⟩
  · refine ⟨effect? { s with log := s.log ++ [request] } request, fun hfaults => ?_, ?_⟩
    · simp [effect?, hfaults]
    · have hperformed := performed_perform
        (effect? { s with log := s.log ++ [request] } request) request
        { s with log := s.log ++ [request] }
      rw [h] at hperformed
      exact hperformed

/-- The answer is of the kind that the request is for. -/
theorem answer_fits {request : Request} {response : Response} {s t : Server}
    (h : s.answer request = (response, t)) : request.action.Fits response := by
  obtain ⟨effect, -, hperformed⟩ := performed_of_answer h
  cases hperformed with
  | refused => cases request.action <;> trivial
  | _ => trivial

theorem log_of_answer {request : Request} {response : Response} {s t : Server}
    (h : s.answer request = (response, t)) : t.log = s.log ++ [request] := by
  obtain ⟨effect, -, hperformed⟩ := performed_of_answer h
  cases hperformed <;> rfl

/-- The log has the requests of a conversation at its end. -/
theorem Talk.log {s t : Server} {es : List Exchange} (h : Talk s es t) :
    t.log = s.log ++ es.map (·.request) := by
  induction h with
  | nil => simp
  | cons he _ ih => simp [ih, log_of_answer he]

end Server

namespace Store

/-- The store says `es` to its service, which leads from `s` to `t`, and nothing else changes. -/
structure Talks (s : Store) (es : List Exchange) (t : Store) : Prop where
  client : t.client = s.client
  reachable : t.reachable = s.reachable
  talk : s.server.Talk es t.server

namespace Talks

variable {s t u : Store} {es fs : List Exchange}

theorem nil (s : Store) : Talks s [] s := ⟨rfl, rfl, .nil _⟩

theorem append (h : Talks s es t) (h' : Talks t fs u) : Talks s (es ++ fs) u :=
  ⟨h'.client.trans h.client, h'.reachable.trans h.reachable, h.talk.append h'.talk⟩

end Talks

/-- Requests about this key of this bucket get through to the service. -/
structure Reaches (s : Store) (bucket full : String) : Prop where
  bucket : bucket ≠ ""
  key : full ≠ ""
  reachable : s.reachable = true

theorem Reaches.of_talks {s t : Store} {es : List Exchange} {bucket full : String}
    (h : s.Reaches bucket full) (htalk : s.Talks es t) : t.Reaches bucket full :=
  ⟨h.bucket, h.key, htalk.reachable.trans h.reachable⟩

variable {bucket full id key source : String} {part : Nat} {s : Store}

/-- A request that gets through is one exchange; one that does not leaves everything as it was. -/
theorem ends_send (request : Request) (s : Store) : Ends (send request) s
    (fun response t => s.Reaches request.bucket request.key ∧
      s.Talks [⟨request, response⟩] t ∧ request.action.Fits response)
    (fun halt t => ¬ s.Reaches request.bucket request.key ∧ t = s ∧ halt ≠ .abandoned) := by
  unfold Ends send
  by_cases hempty : request.bucket = "" ∨ request.key = ""
  · simp only [hempty, ↓reduceIte]
    exact ⟨fun h => hempty.elim h.bucket h.key, trivial, nofun⟩
  · by_cases hreachable : s.reachable = true
    · simp only [hempty, hreachable, ↓reduceIte]
      rw [not_or] at hempty
      exact ⟨⟨hempty.1, hempty.2, hreachable⟩, ⟨rfl, hreachable.symm, .cons rfl (.nil _)⟩,
        Server.answer_fits rfl⟩
    · simp only [hempty, hreachable, ↓reduceIte]
      exact ⟨fun h => hreachable h.reachable, rfl, nofun⟩

/-- A request came to nothing: it did not get through, or the answer is a failure. -/
def Refused (s : Store) (request : Request) (t : Store) : Prop :=
  (¬ s.Reaches request.bucket request.key ∧ t = s) ∨
    ∃ response : Response, response.Fails ∧ s.Talks [⟨request, response⟩] t

/-- A call that makes one request. It succeeds on an answer that is `wanted`, and every other one
is a failure. -/
theorem ends_ask {α : Type} {request : Request} {next : Response → Call Store α}
    (wanted : α → Response → Prop) (s : Store)
    (hnext : ∀ response t, request.action.Fits response →
      (∃ a, next response t = .ok a t ∧ wanted a response) ∨
        ∃ error, next response t = .error (.failed error) t ∧ response.Fails) :
    Ends (send request >>= next) s
      (fun a t => s.Reaches request.bucket request.key ∧
        ∃ response, wanted a response ∧ s.Talks [⟨request, response⟩] t)
      (fun halt t => halt ≠ .abandoned ∧ s.Refused request t) := by
  refine (ends_send request s).andThen ?_ ?_
  · rintro halt t ⟨hreaches, rfl, hhalt⟩
    exact ⟨hhalt, .inl ⟨hreaches, rfl⟩⟩
  · rintro response t ⟨hreaches, htalk, hfits⟩
    unfold Ends
    rcases hnext response t hfits with ⟨a, h, hwanted⟩ | ⟨error, h, hfails⟩ <;> rw [h]
    · exact ⟨hreaches, response, hwanted, htalk⟩
    · exact ⟨nofun, .inr ⟨response, hfails, htalk⟩⟩

/-- A request that is only done, or refused. -/
theorem ends_askPlain {α : Type} {request : Request} {next : Response → Call Store α} {s : Store}
    (hplain : request.action.Plain) (hdone : ∀ t, ∃ a, next .done t = .ok a t)
    (hstatus : ∀ code t, ∃ error, next (.status code) t = .error (.failed error) t) :
    Ends (send request >>= next) s (fun _ t => s.Talks [⟨request, .done⟩] t)
      (fun halt t => halt ≠ .abandoned ∧ s.Refused request t) := by
  refine (ends_ask (fun _ response => response = .done) s ?_).mono ?_ fun _ _ h => h
  · intro response t hfits
    rcases hfits.of_plain hplain with rfl | ⟨code, rfl⟩
    · obtain ⟨a, ha⟩ := hdone t
      exact .inl ⟨a, ha, rfl⟩
    · obtain ⟨error, herror⟩ := hstatus code t
      exact .inr ⟨error, herror, trivial⟩
  · rintro _ t ⟨-, _, rfl, htalk⟩
    exact htalk

/-- A request that carries a part, which is answered with a tag. -/
theorem ends_askTag {request : Request} {carried : String × Nat}
    {next : Response → Call Store String} {s : Store}
    (hpart : request.action.part? = some carried)
    (htag : ∀ tag t, next (.part (some tag)) t = .ok tag t)
    (hnone : ∀ t, ∃ error, next (.part none) t = .error (.failed error) t)
    (hstatus : ∀ code t, ∃ error, next (.status code) t = .error (.failed error) t) :
    Ends (send request >>= next) s (fun tag t => s.Talks [⟨request, .part (some tag)⟩] t)
      (fun halt t => halt ≠ .abandoned ∧ s.Refused request t) := by
  refine (ends_ask (fun tag response => response = .part (some tag)) s ?_).mono ?_
    fun _ _ h => h
  · intro response t hfits
    rcases hfits.of_part hpart with ⟨tag | _, rfl⟩ | ⟨code, rfl⟩
    · obtain ⟨error, herror⟩ := hnone t
      exact .inr ⟨error, herror, trivial⟩
    · exact .inl ⟨_, htag _ t, rfl⟩
    · obtain ⟨error, herror⟩ := hstatus code t
      exact .inr ⟨error, herror, trivial⟩
  · rintro tag t ⟨-, _, rfl, htalk⟩
    exact htalk

/-- Asking for the full key changes nothing. -/
theorem ends_fullKey_bind {α : Type} {next : String → Call Store α} {good : α → Store → Prop}
    {bad : Halt → Store → Prop} (h : Ends (next (s.client.fullKey key)) s good bad) :
    Ends (fullKey key >>= next) s good bad := h

/-! ## The requests one by one -/

theorem ends_put (data : Bytes) : Ends (put bucket key data) s
    (fun _ t => s.Talks [⟨⟨bucket, s.client.fullKey key, .put data⟩, .done⟩] t)
    (fun halt t => halt ≠ .abandoned ∧ s.Refused ⟨bucket, s.client.fullKey key, .put data⟩ t) :=
  ends_askPlain trivial (fun _ => ⟨_, rfl⟩) fun _ _ => ⟨_, rfl⟩

theorem ends_delete : Ends (delete bucket key) s
    (fun _ t => s.Talks [⟨⟨bucket, s.client.fullKey key, .delete⟩, .done⟩] t)
    (fun halt t => halt ≠ .abandoned ∧ s.Refused ⟨bucket, s.client.fullKey key, .delete⟩ t) :=
  ends_askPlain trivial (fun _ => ⟨_, rfl⟩) fun _ _ => ⟨_, rfl⟩

theorem ends_completeUpload (parts : List (Nat × String)) :
    Ends (completeUpload bucket full id parts) s
      (fun _ t => s.Talks [⟨⟨bucket, full, .completeUpload id parts⟩, .done⟩] t)
      (fun halt t => halt ≠ .abandoned ∧ s.Refused ⟨bucket, full, .completeUpload id parts⟩ t) :=
  ends_askPlain trivial (fun _ => ⟨_, rfl⟩) fun _ _ => ⟨_, rfl⟩

theorem ends_objectSize (bucket key : String) (s : Store) : Ends (objectSize bucket key) s
    (fun size t => ∃ given : Option Nat, size = given.getD 0 ∧
      s.Talks [⟨⟨bucket, s.client.fullKey key, .head⟩, .length given⟩] t)
    (fun halt t => halt ≠ .abandoned ∧ s.Refused ⟨bucket, s.client.fullKey key, .head⟩ t) := by
  refine (ends_ask (fun size response => ∃ given : Option Nat, size = given.getD 0 ∧
    response = .length given) s ?_).mono ?_ fun _ _ h => h
  · intro response t hfits
    cases response with
    | length given => exact .inl ⟨_, rfl, given, rfl, rfl⟩
    | status => exact .inr ⟨_, rfl, trivial⟩
    | _ => exact hfits.elim
  · rintro size t ⟨-, _, ⟨given, hsize, rfl⟩, htalk⟩
    exact ⟨given, hsize, htalk⟩

theorem ends_startUpload : Ends (startUpload bucket full) s
    (fun id t => s.Reaches bucket full ∧
      s.Talks [⟨⟨bucket, full, .createUpload⟩, .upload (some id)⟩] t)
    (fun halt t => halt ≠ .abandoned ∧ s.Refused ⟨bucket, full, .createUpload⟩ t) := by
  refine (ends_ask (fun id response => response = .upload (some id)) s ?_).mono ?_
    fun _ _ h => h
  · intro response t hfits
    cases response with
    | upload id =>
      cases id with
      | some id => exact .inl ⟨id, rfl, rfl⟩
      | none => exact .inr ⟨_, rfl, trivial⟩
    | status => exact .inr ⟨_, rfl, trivial⟩
    | _ => exact hfits.elim
  · rintro id t ⟨hreaches, _, rfl, htalk⟩
    exact ⟨hreaches, htalk⟩

theorem ends_uploadPart (body : Bytes) : Ends (uploadPart bucket full id part body) s
    (fun tag t => s.Talks [⟨⟨bucket, full, .uploadPart id part body⟩, .part (some tag)⟩] t)
    (fun halt t => halt ≠ .abandoned ∧ s.Refused ⟨bucket, full, .uploadPart id part body⟩ t) :=
  ends_askTag rfl (fun _ _ => rfl) (fun _ => ⟨_, rfl⟩) fun _ _ => ⟨_, rfl⟩

theorem ends_copyPart (range : Option CopyRange) :
    let action := Action.copyPart id part (s.client.copySource bucket source) range
    Ends (copyPart bucket full id part source range) s
      (fun tag t => s.Talks [⟨⟨bucket, full, action⟩, .part (some tag)⟩] t)
      (fun halt t => halt ≠ .abandoned ∧ s.Refused ⟨bucket, full, action⟩ t) :=
  ends_fullKey_bind (ends_askTag rfl (fun _ _ => rfl) (fun _ => ⟨_, rfl⟩) fun _ _ => ⟨_, rfl⟩)

/-- Where requests get through, the request to drop an upload is made, whatever the answer. -/
theorem abortUpload_talks (id : String) (h : s.Reaches bucket full) :
    ∃ response, s.Talks [⟨⟨bucket, full, .abortUpload id⟩, response⟩]
      (abortUpload bucket full id s) := by
  obtain ⟨response, t, hsend, -, htalk, -⟩ :=
    ((ends_send ⟨bucket, full, .abortUpload id⟩ s).mono (fun _ _ h => h)
      fun _ _ hbad => hbad.1 h).exists_ok
  refine ⟨response, ?_⟩
  unfold abortUpload
  rw [hsend]
  exact htalk

end Store

end ChunkedUpload.S3
