import ChunkedUpload.Proofs.S3.Faultless

/-!
# What an exchange does to the objects

The objects of a service are changed by the requests that put, delete or complete something, when
they are answered with that it was done, and by no other exchange (`answer_keeps`, `Talk.keeps`).
The rest of this file says what each request of a multipart upload does if it is answered as it
should be: the upload that is opened is a new one (`opened_of_answer`), a part is added to its
upload (`part_of_answer`), and completing an upload puts its parts in place
(`completed_of_answer`). Upload ids are never given out twice, because those of open uploads are
counted (`Issued.talk`).
-/

namespace ChunkedUpload.S3

/-- The actions that change objects. -/
def Action.Edits : Action → Prop
  | .put _ | .delete | .completeUpload .. => True
  | _ => False

/-- An exchange that changes no object. -/
def Exchange.Quiet (e : Exchange) : Prop := e.request.action.Edits → e.response ≠ .done

theorem Action.Works.not_edits {action : Action} (h : action.Works) : ¬ action.Edits := by
  cases action <;> first | exact h.elim | exact id

theorem Exchange.quiet_of_works {e : Exchange} (h : e.request.action.Works) : e.Quiet :=
  fun hedits => absurd hedits h.not_edits

theorem Exchange.quiet_of_fails {request : Request} {response : Response} (h : response.Fails) :
    Exchange.Quiet ⟨request, response⟩ := by
  rintro - rfl
  exact h

/-- What a part is made of: bytes that are sent, or an object that is copied, or a range of it. -/
inductive Payload
  | body (bytes : Bytes)
  | copy (source : String) (range : Option CopyRange)

/-- The action that carries a payload as a part. -/
def Payload.action (id : String) (part : Nat) : Payload → Action
  | body bytes => .uploadPart id part bytes
  | copy source range => .copyPart id part source range

theorem Payload.part?_action (id : String) (part : Nat) (payload : Payload) :
    (payload.action id part).part? = some (id, part) := by
  cases payload <;> rfl

namespace Server

variable {s t u : Server} {request : Request} {response : Response} {es : List Exchange}
  {bucket full id : String}

/-- The service keeps its objects, and what it is set up with is the same. -/
structure Keeps (s t : Server) : Prop where
  objects : t.objects = s.objects
  reported : t.reported = s.reported
  faults : t.faults = s.faults
  lenient : t.lenient = s.lenient

namespace Keeps

theorem refl (s : Server) : Keeps s s := ⟨rfl, rfl, rfl, rfl⟩

theorem trans (h : Keeps s t) (h' : Keeps t u) : Keeps s u :=
  ⟨h'.objects.trans h.objects, h'.reported.trans h.reported, h'.faults.trans h.faults,
    h'.lenient.trans h.lenient⟩

theorem length?_eq (h : Keeps s t) (address : Address) : t.length? address = s.length? address := by
  rw [length?, length?, h.objects, h.reported]

theorem copied?_eq (h : Keeps s t) (source : String) (range : Option CopyRange) :
    t.copied? source range = s.copied? source range := by
  have hcontent : t.content? = s.content? := by
    funext address
    rw [content?, content?, h.length?_eq, h.objects]
  rw [copied?, copied?, hcontent]

end Keeps

/-- What a service is set up with stays as it is. -/
theorem answer_setup (h : s.answer request = (response, t)) :
    t.reported = s.reported ∧ t.faults = s.faults ∧ t.lenient = s.lenient := by
  obtain ⟨effect, -, hperformed⟩ := performed_of_answer h
  cases hperformed <;> exact ⟨rfl, rfl, rfl⟩

/-- A request that is not done, or does not edit, leaves the objects alone. -/
theorem answer_keeps (h : s.answer request = (response, t))
    (hquiet : Exchange.Quiet ⟨request, response⟩) : s.Keeps t := by
  obtain ⟨hreported, hfaults, hlenient⟩ := answer_setup h
  refine ⟨?_, hreported, hfaults, hlenient⟩
  obtain ⟨effect, -, hperformed⟩ := performed_of_answer h
  cases hperformed with
  | put | delete | completeUpload => exact absurd rfl (hquiet trivial)
  | _ => rfl

theorem Talk.keeps (h : Talk s es t) (hquiet : ∀ e ∈ es, e.Quiet) : s.Keeps t := by
  induction h with
  | nil => exact .refl _
  | cons he _ ih =>
    rw [List.forall_mem_cons] at hquiet
    exact (answer_keeps he hquiet.1).trans (ih hquiet.2)

/-! ## Requests that are answered as they should be -/

theorem put_of_answer {body : Bytes} (h : s.answer ⟨bucket, full, .put body⟩ = (.done, t)) :
    t.objects = s.objects.insert (bucket, full) body := by
  obtain ⟨effect, -, hperformed⟩ := performed_of_answer h
  cases hperformed
  rfl

/-- A length that is told is the one the service has, but it may be left out. -/
theorem length_of_answer {given : Option Nat}
    (h : s.answer ⟨bucket, full, .head⟩ = (.length given, t)) :
    ∃ size, s.length? (bucket, full) = some size ∧
      (given = some size ∨ given = none ∧ s.faults ≠ []) := by
  obtain ⟨effect, hnone, hperformed⟩ := performed_of_answer h
  cases hperformed with
  | @head _ _ size hlength =>
    refine ⟨size, hlength, ?_⟩
    unfold unlessOmitted
    split
    · exact .inr ⟨rfl, fun hfaults => by simp_all⟩
    · exact .inl rfl

/-- The ids of the open uploads were given out before. -/
def Issued (s : Server) : Prop := ∀ id ∈ s.openIds, ∃ k ≤ s.issued, id = idOf k

theorem Issued.of_subset {ids : List String} (h : s.Issued) (hids : t.openIds = ids)
    (hsubset : ids ⊆ s.openIds) (hissued : t.issued = s.issued) : t.Issued := by
  rintro id hid
  rw [hissued]
  exact h id (hsubset (hids ▸ hid))

theorem Issued.answer (h : s.Issued) (he : s.answer request = (response, t)) : t.Issued := by
  obtain ⟨effect, -, hperformed⟩ := performed_of_answer he
  cases hperformed with
  | refused | put | delete | get | head => exact h
  | createUpload hid =>
    intro id hmem
    simp only [openIds, List.map_append, List.map_cons, List.map_nil, List.mem_append,
      List.mem_singleton] at hmem
    rcases hmem with hold | rfl
    · obtain ⟨k, hk, rfl⟩ := h id hold
      exact ⟨k, Nat.le_succ_of_le hk, rfl⟩
    · exact ⟨s.issued + 1, Nat.le_refl _, hid⟩
  | uploadPart | copyPart => exact h.of_subset (openIds_addPart ..) (List.Subset.refl _) rfl
  | completeUpload | abortUpload =>
    exact h.of_subset (openIds_endUpload ..) (fun _ hmem => (List.mem_filter.1 hmem).1) rfl

/-- Whatever is asked, ids that are given out stay counted. -/
theorem Issued.talk (h : s.Issued) (htalk : Talk s es t) : t.Issued := by
  induction htalk with
  | nil => exact h
  | cons he _ ih => exact ih (h.answer he)

theorem upload?_eq_none (h : id ∉ s.openIds) : s.upload? id = none := by
  rw [upload?, List.find?_eq_none]
  rintro upload hmem hid
  exact h (List.mem_map.2 ⟨upload, hmem, of_decide_eq_true hid⟩)

/-- An answer tells a value as it is, or leaves it out. -/
theorem unlessOmitted_eq {α : Type} (omission : Omission) (effect : Option Effect) (value : α) :
    unlessOmitted omission effect value = none ∨
      unlessOmitted omission effect value = some value := by
  unfold unlessOmitted
  split
  · exact .inl rfl
  · exact .inr rfl

/-- An upload that is opened is a new one without parts. -/
theorem opened_of_answer (hissued : s.Issued)
    (h : s.answer ⟨bucket, full, .createUpload⟩ = (.upload (some id), t)) :
    t.upload? id = some ⟨id, (bucket, full), []⟩ := by
  obtain ⟨effect, -, hperformed⟩ := performed_of_answer h
  generalize hgiven : Response.upload (some id) = response at hperformed
  cases hperformed with
  | refused => cases hgiven
  | createUpload hid =>
    rename_i next
    obtain rfl : id = next := by
      rcases unlessOmitted_eq .uploadId effect next with hnone | hsome
      · rw [hnone] at hgiven
        cases hgiven
      · rw [hsome] at hgiven
        cases hgiven
        rfl
    have hnew : id ∉ s.openIds := by
      intro hmem
      obtain ⟨k, hk, heq⟩ := hissued id hmem
      have hlater : s.issued + 1 = k := idOf_inj (hid.symm.trans heq)
      omega
    have hnone : s.uploads.find? (·.id = id) = none := upload?_eq_none hnew
    simp only [upload?, List.find?_append, hnone, Option.none_or]
    exact List.find?_cons_of_pos (decide_eq_true rfl)

theorem upload?_addPart {upload : OpenUpload} {part : Nat} {body : Bytes}
    (h : s.upload? id = some upload) :
    (s.addPart id part body).upload? id =
      some { upload with parts := (part, body) :: upload.parts } := by
  rw [upload?] at h
  have hid : upload.id = id := by simpa using List.find?_some h
  have hsame : ((fun u : OpenUpload => decide (u.id = id)) ∘
      fun u => if u.id = id then { u with parts := (part, body) :: u.parts } else u) =
      fun u => decide (u.id = id) := by
    funext u
    simp only [Function.comp_apply]
    split <;> rfl
  rw [upload?, addPart, List.find?_map, hsame, h, Option.map_some, if_pos hid]

theorem uploads_of_head (h : s.answer ⟨bucket, full, .head⟩ = (response, t)) :
    t.uploads = s.uploads := by
  obtain ⟨effect, -, hperformed⟩ := performed_of_answer h
  cases hperformed <;> rfl

/-- The content that a payload has for the service. -/
def yields (s : Server) : Payload → Option Bytes
  | .body bytes => some bytes
  | .copy source range => s.copied? source range

theorem Keeps.yields_eq (h : Keeps s t) (payload : Payload) :
    t.yields payload = s.yields payload := by
  cases payload with
  | body => rfl
  | copy source range => exact h.copied?_eq source range

/-- A part that is answered with a tag was added to its upload, or replaced there, under that
tag. -/
theorem part_of_answer {payload : Payload} {part : Nat} {tag : Option String} {upload : OpenUpload}
    (h : s.answer ⟨bucket, full, payload.action id part⟩ = (.part tag, t))
    (hopen : s.upload? id = some upload) :
    (tag = none ∨ tag = some (partTag id part)) ∧ ∃ body, s.yields payload = some body ∧
      t.upload? id = some { upload with parts := (part, body) :: upload.parts } := by
  obtain ⟨effect, -, hperformed⟩ := performed_of_answer h
  cases payload with
  | body bytes =>
    cases hperformed
    exact ⟨unlessOmitted_eq .., bytes, rfl, upload?_addPart hopen⟩
  | copy source range =>
    cases hperformed with
    | @copyPart _ _ _ _ _ _ body _ _ hcopied _ =>
      exact ⟨unlessOmitted_eq .., body, hcopied, upload?_addPart hopen⟩

/-- A completed upload is in place of what was at its address, and nothing else changes. -/
theorem completed_of_answer {parts : List (Nat × String)} {upload : OpenUpload}
    (h : s.answer ⟨bucket, full, .completeUpload id parts⟩ = (.done, t))
    (hopen : s.upload? id = some upload) :
    ∃ content, upload.join? s.lenient parts = some content ∧
      t.objects = s.objects.insert upload.address content := by
  obtain ⟨effect, -, hperformed⟩ := performed_of_answer h
  cases hperformed with
  | completeUpload hfound hjoined =>
    obtain rfl := Option.some.inj (hopen.symm.trans hfound)
    exact ⟨_, hjoined, rfl⟩

end Server

end ChunkedUpload.S3
