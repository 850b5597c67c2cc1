import ChunkedUpload.Proofs.S3.Deliveries

/-!
# Requests that a service without faults grants

A service that no fault strikes performs what it is asked for, so a call that reaches it can only
fail over what it asks. `Carrying` is what holds while a multipart upload is open and has some
parts: the requests that carry more of them (`Carrying.ends_carry`) or ask for lengths
(`Carrying.ends_objectSize`) are granted, and the tag of each part is known beforehand
(`partExchanges`). So is the one that completes the upload, if the parts are large enough
(`Carrying.ends_completeUpload`); otherwise the upload stays open
(`Carrying.ends_completeUpload_refused`).
-/

namespace ChunkedUpload.S3

open Call (Ends)

variable {bucket full id : String} {next : Nat}

/-! ## Parts in a row -/

/-- The requests that carry payloads as the parts numbered from `next` on. -/
def partRequests (bucket full id : String) (next : Nat) (payloads : List Payload) : List Request :=
  (payloads.zipIdx next).map fun p => ⟨bucket, full, p.1.action id p.2⟩

/-- The numbers of `count` parts from `next` on, each with the tag that the service gives it. -/
def partTags (id : String) (next count : Nat) : List (Nat × String) :=
  (List.range' next count).map fun number => (number, Server.partTag id number)

/-- The requests with the answers to them. -/
def partExchanges (bucket full id : String) (next : Nat) (payloads : List Payload) :
    List Exchange :=
  (payloads.zipIdx next).map fun p =>
    ⟨⟨bucket, full, p.1.action id p.2⟩, .part (some (Server.partTag id p.2))⟩

theorem partExchanges_cons (payload : Payload) (payloads : List Payload) :
    partExchanges bucket full id next (payload :: payloads) =
      ⟨⟨bucket, full, payload.action id next⟩, .part (some (Server.partTag id next))⟩ ::
        partExchanges bucket full id (next + 1) payloads := by
  rw [partExchanges, List.zipIdx_cons, List.map_cons]
  rfl

theorem partExchanges_append (payloads payloads' : List Payload) :
    partExchanges bucket full id next (payloads ++ payloads') =
      partExchanges bucket full id next payloads ++
        partExchanges bucket full id (next + payloads.length) payloads' := by
  rw [partExchanges, List.zipIdx_append, List.map_append, Nat.add_comm]
  rfl

theorem request_partExchanges (payloads : List Payload) :
    (partExchanges bucket full id next payloads).map (·.request) =
      partRequests bucket full id next payloads :=
  List.map_map

theorem partTags_cons (id : String) (next count : Nat) :
    partTags id next (count + 1) = (next, Server.partTag id next) :: partTags id (next + 1) count :=
  rfl

theorem partTags_append (id : String) (next count count' : Nat) :
    partTags id next (count + count') = partTags id next count ++
      partTags id (next + count) count' := by
  rw [partTags, ← List.range'_append_1, List.map_append]
  rfl

/-- Whether a request carries a part. -/
def Action.Carries (action : Action) : Bool := action.part?.isSome

theorem carries_partExchanges (payloads : List Payload) :
    ∀ e ∈ partExchanges bucket full id next payloads, e.request.action.Carries = true := by
  intro e he
  obtain ⟨⟨payload, number⟩, -, rfl⟩ := List.mem_map.1 he
  show (payload.action id number).part?.isSome = true
  rw [Payload.part?_action]
  rfl

theorem Action.works_of_carries {action : Action} (h : action.Carries = true) : action.Works := by
  obtain ⟨carried, hpart⟩ := Option.isSome_iff_exists.1 h
  exact works_of_part hpart

namespace Store

variable {s t : Store} {key : String}

/-! ## Single requests -/

/-- A request that reaches a service without faults is performed. -/
theorem ends_send_performed {request : Request} (hreaches : s.Reaches request.bucket request.key)
    (hfaults : s.server.faults = []) :
    Ends (send request) s
      (fun response t => s.Talks [⟨request, response⟩] t ∧ (response, t.server) =
        Server.perform none request { s.server with log := s.server.log ++ [request] })
      (fun _ _ => False) := by
  refine (ends_send request s).mono ?_ fun _ _ hbad => hbad.1 hreaches
  rintro response t ⟨-, htalk, -⟩
  obtain ⟨u, hanswer, hnil⟩ := Server.Talk.cons_iff.1 htalk.talk
  cases hnil
  rw [Server.answer_of_faultless hfaults] at hanswer
  exact ⟨htalk, hanswer.symm⟩

theorem Talks.faultless {es : List Exchange} (h : s.Talks es t) (hfaults : s.server.faults = []) :
    t.server.faults = [] :=
  (h.talk.of_faultless hfaults).1

theorem ends_put_granted (hreaches : s.Reaches bucket (s.client.fullKey key))
    (hfaults : s.server.faults = []) (data : Bytes) :
    Ends (put bucket key data) s
      (fun object t => object = ⟨bucket, key, data.length⟩ ∧
        s.Talks [⟨⟨bucket, s.client.fullKey key, .put data⟩, .done⟩] t)
      (fun _ _ => False) := by
  refine ends_fullKey_bind ((ends_send_performed hreaches hfaults).bind ?_)
  rintro response t ⟨htalk, hperformed⟩
  obtain rfl := congrArg Prod.fst hperformed
  exact Ends.pure ⟨rfl, htalk⟩

/-- A length that the service knows is told. -/
theorem ends_objectSize_granted (hreaches : s.Reaches bucket (s.client.fullKey key))
    (hfaults : s.server.faults = []) {length : Nat}
    (hlength : s.server.length? (bucket, s.client.fullKey key) = some length) :
    Ends (objectSize bucket key) s
      (fun size t => size = length ∧
        s.Talks [⟨headOf s.client bucket key, .length (some length)⟩] t)
      (fun _ _ => False) := by
  refine ends_fullKey_bind ((ends_send_performed hreaches hfaults).bind ?_)
  rintro response t ⟨htalk, hperformed⟩
  have hlogged : ∀ log, Server.length? { s.server with log } (bucket, s.client.fullKey key) =
      some length := fun _ => hlength
  simp only [Server.perform, hlogged] at hperformed
  obtain rfl := congrArg Prod.fst hperformed
  exact Ends.pure ⟨rfl, htalk⟩

/-! ## An open upload -/

variable {contents : List Bytes}

/-- A service without faults, which is reached and has an upload open with parts of these contents,
numbered from 1 on. -/
structure Carrying (s : Store) (bucket full id : String) (contents : List Bytes) : Prop where
  reaches : s.Reaches bucket full
  faultless : s.server.faults = []
  opened : ∃ sent, s.server.upload? id = some ⟨id, (bucket, full), sent⟩ ∧
    Sent id sent (partTags id 1 contents.length) (contents.length + 1) contents

/-- The upload that is opened next has the next id. -/
theorem ends_startUpload_granted (hreaches : s.Reaches bucket full) (hsound : s.server.Sound) :
    Ends (startUpload bucket full) s
      (fun id t => id = Server.idOf (s.server.issued + 1) ∧
        s.Talks [⟨⟨bucket, full, .createUpload⟩, .upload (some id)⟩] t ∧
        t.Carrying bucket full id [])
      (fun _ _ => False) := by
  refine (ends_send_performed hreaches hsound.faultless).bind ?_
  rintro response t ⟨htalk, hperformed⟩
  obtain rfl := congrArg Prod.fst hperformed
  obtain ⟨u, hanswer, hnil⟩ := Server.Talk.cons_iff.1 htalk.talk
  cases hnil
  exact Ends.pure ⟨rfl, htalk, hreaches.of_talks htalk, htalk.faultless hsound.faultless,
    [], Server.opened_of_answer hsound.issued hanswer, .nil _⟩

namespace Carrying

variable {payload : Payload} {body : Bytes} {part : Nat}

/-- A part whose content the service has is taken. -/
theorem ends_carry (h : s.Carrying bucket full id contents) (hpart : part = contents.length + 1)
    (hyields : s.server.yields payload = some body) (hfits : body.length ≤ mostCopied) :
    Ends (send ⟨bucket, full, payload.action id part⟩) s
      (fun response t => response = .part (some (Server.partTag id part)) ∧
        s.Talks (partExchanges bucket full id part [payload]) t ∧
        t.Carrying bucket full id (contents ++ [body]))
      (fun _ _ => False) := by
  obtain ⟨sent, hopen, hsent⟩ := h.opened
  refine (ends_send_performed h.reaches h.faultless).mono ?_ fun _ _ hbad => hbad
  rintro response t ⟨htalk, hperformed⟩
  have hresponse : response = .part (some (Server.partTag id part)) := by
    have hlogged : ∀ log, Server.upload? { s.server with log } id =
        some ⟨id, (bucket, full), sent⟩ := fun _ => hopen
    have hcopied : ∀ log source range, payload = .copy source range →
        Server.copied? { s.server with log } source range = some body := by
      rintro log source range rfl
      exact hyields
    cases payload with
    | body bytes =>
      cases hyields
      simp only [Payload.action, Server.perform, hlogged, Server.takePart, if_pos hfits]
        at hperformed
      exact congrArg Prod.fst hperformed
    | copy source range =>
      simp only [Payload.action, Server.perform, hlogged, hcopied _ source range rfl,
        Server.takePart, if_pos hfits] at hperformed
      exact congrArg Prod.fst hperformed
  subst hresponse
  obtain ⟨u, hanswer, hnil⟩ := Server.Talk.cons_iff.1 htalk.talk
  cases hnil
  obtain ⟨-, content, hcontent, hopen'⟩ := Server.part_of_answer hanswer hopen
  obtain rfl := Option.some.inj (hyields.symm.trans hcontent)
  refine ⟨rfl, htalk, h.reaches.of_talks htalk, htalk.faultless h.faultless, _, hopen', ?_⟩
  have hadded := hsent.add body
  rw [List.length_append, List.length_singleton, partTags_append, Nat.add_comm 1, hpart]
  exact hadded

theorem ends_uploadPart (h : s.Carrying bucket full id contents)
    (hpart : part = contents.length + 1) (hfits : body.length ≤ mostCopied) :
    Ends (uploadPart bucket full id part body) s
      (fun tag t => tag = Server.partTag id part ∧
        s.Talks (partExchanges bucket full id part [.body body]) t ∧
        t.Carrying bucket full id (contents ++ [body]))
      (fun _ _ => False) := by
  have hyields : s.server.yields (.body body) = some body := rfl
  refine (h.ends_carry hpart hyields hfits).bind ?_
  rintro _ t ⟨rfl, hcarried⟩
  exact Ends.pure ⟨rfl, hcarried⟩

theorem ends_copyPart (h : s.Carrying bucket full id contents) (hpart : part = contents.length + 1)
    {source : String} {range : Option CopyRange}
    (hyields : s.server.yields (.copy (s.client.copySource bucket source) range) = some body)
    (hfits : body.length ≤ mostCopied) :
    Ends (copyPart bucket full id part source range) s
      (fun tag t => tag = Server.partTag id part ∧ s.Talks (partExchanges bucket full id part
          [.copy (s.client.copySource bucket source) range]) t ∧
        t.Carrying bucket full id (contents ++ [body]))
      (fun _ _ => False) := by
  refine ends_fullKey_bind ((h.ends_carry hpart hyields hfits).bind ?_)
  rintro _ t ⟨rfl, hcarried⟩
  exact Ends.pure ⟨rfl, hcarried⟩

/-- Asking for a length leaves the upload as it is. -/
theorem ends_objectSize (h : s.Carrying bucket full id contents) {key : String} {length : Nat}
    (hkey : s.client.fullKey key ≠ "")
    (hlength : s.server.length? (bucket, s.client.fullKey key) = some length) :
    Ends (objectSize bucket key) s
      (fun size t => size = length ∧
        s.Talks [⟨headOf s.client bucket key, .length (some length)⟩] t ∧
        t.Carrying bucket full id contents)
      (fun _ _ => False) := by
  have hreaches : s.Reaches bucket (s.client.fullKey key) :=
    ⟨h.reaches.bucket, hkey, h.reaches.reachable⟩
  refine (ends_objectSize_granted hreaches h.faultless hlength).mono ?_ fun _ _ hbad => hbad
  rintro size t ⟨hsize, htalk⟩
  obtain ⟨u, hanswer, hnil⟩ := Server.Talk.cons_iff.1 htalk.talk
  cases hnil
  refine ⟨hsize, htalk, h.reaches.of_talks htalk, htalk.faultless h.faultless, ?_⟩
  rw [Server.upload?, Server.uploads_of_head hanswer]
  exact h.opened

/-- Parts are joined of which all but the last are large enough, or that a lenient service gets. -/
theorem ends_completeUpload (h : s.Carrying bucket full id contents) (hsome : contents ≠ [])
    (hfew : contents.length ≤ mostParts) (hample : Ample s.server.lenient contents) :
    Ends (completeUpload bucket full id (partTags id 1 contents.length)) s
      (fun _ t => s.Talks [⟨⟨bucket, full,
          .completeUpload id (partTags id 1 contents.length)⟩, .done⟩] t ∧
        t.server.objects = s.server.objects.insert (bucket, full) contents.flatten)
      (fun _ _ => False) := by
  obtain ⟨sent, hopen, hsent⟩ := h.opened
  have hlogged : ∀ log, Server.upload? { s.server with log } id =
      some ⟨id, (bucket, full), sent⟩ := fun _ => hopen
  have hjoined := OpenUpload.join?_of_held s.server.lenient
    (hsent.held (bucket, full))
  rw [if_pos ((hsent.joinable_iff _ hsome (Nat.succ_le_succ hfew)).2 hample)] at hjoined
  refine (ends_send_performed h.reaches h.faultless).bind ?_
  rintro response t ⟨htalk, hperformed⟩
  simp only [Server.perform, hlogged, hjoined] at hperformed
  obtain ⟨rfl, hserver⟩ := Prod.mk.inj hperformed
  refine Ends.pure ⟨htalk, ?_⟩
  rw [hserver]
  rfl

/-- Other parts are not joined, and the upload stays open. -/
theorem ends_completeUpload_refused (h : s.Carrying bucket full id contents)
    (hsmall : ¬ Ample s.server.lenient contents) :
    Ends (completeUpload bucket full id (partTags id 1 contents.length)) s (fun _ _ => False)
      (fun halt t => halt = .failed refusal ∧ s.Talks [⟨⟨bucket, full,
          .completeUpload id (partTags id 1 contents.length)⟩, .status 400⟩] t ∧
        t.Carrying bucket full id contents) := by
  obtain ⟨sent, hopen, hsent⟩ := h.opened
  have hlogged : ∀ log, Server.upload? { s.server with log } id =
      some ⟨id, (bucket, full), sent⟩ := fun _ => hopen
  have hjoined := OpenUpload.join?_of_held s.server.lenient
    (hsent.held (bucket, full))
  rw [if_neg fun hjoinable => hsmall hjoinable.ample] at hjoined
  refine (ends_send_performed h.reaches h.faultless).andThen (fun _ _ hbad => hbad.elim) ?_
  rintro response t ⟨htalk, hperformed⟩
  simp only [Server.perform, hlogged, hjoined] at hperformed
  obtain ⟨rfl, hserver⟩ := Prod.mk.inj hperformed
  refine Ends.fail ⟨rfl, htalk, h.reaches.of_talks htalk, htalk.faultless h.faultless, sent, ?_,
    hsent⟩
  rw [hserver]
  exact hopen

end Carrying

end Store

end ChunkedUpload.S3
