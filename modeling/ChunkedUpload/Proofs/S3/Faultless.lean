import ChunkedUpload.Proofs.Part.Names
import ChunkedUpload.Proofs.Reader.Ending
import ChunkedUpload.Proofs.S3.OpenUploads
import ChunkedUpload.Proofs.Upload.Leftovers

/-!
# What an upload leaves at a service without faults

A service that no fault strikes gives every multipart upload an id of its own and drops those that
it is asked to drop. So the calls of an upload leave no multipart upload open, as long as they end
by themselves. A stream that stalls leaves one open just if its first part was read in full, and
deletes do not end it (`tidy`).
-/

namespace ChunkedUpload.S3

open Call (Ends)

/-! ## A service without faults -/

namespace Server

variable {s t : Server} {es : List Exchange} {bucket full id : String}

/-- The id that is given out after `number - 1` others. -/
def idOf (number : Nat) : String := "upload-" ++ number.repr

theorem idOf_inj {n k : Nat} (h : idOf n = idOf k) : n = k := by
  have hchars := congrArg String.toList h
  rw [idOf, idOf, String.toList_append, String.toList_append] at hchars
  exact Decimal.repr_inj (String.toList_injective (List.append_cancel_left hchars))

/-- No fault strikes, and the ids of the open uploads were given out before. -/
structure Sound (s : Server) : Prop where
  faultless : s.faults = []
  issued : ∀ id ∈ s.openIds, ∃ k ≤ s.issued, id = idOf k

theorem answer_of_faultless (h : s.faults = []) (request : Request) :
    s.answer request = perform none request { s with log := s.log ++ [request] } := by
  have heffect : effect? { s with log := s.log ++ [request] } request = none := by
    simp [effect?, h]
  unfold answer
  simp only [heffect]

theorem Talk.of_faultless (h : Talk s es t) (hfaults : s.faults = []) :
    t.faults = [] ∧ s.issued ≤ t.issued ∧ Names es := by
  induction h with
  | nil => exact ⟨hfaults, Nat.le_refl _, nofun⟩
  | @cons s t u e es he _ ih =>
    obtain ⟨request, response⟩ := e
    obtain ⟨effect, hnone, hperformed⟩ := performed_of_answer he
    obtain rfl := hnone hfaults
    have hkept : t.faults = s.faults ∧ s.issued ≤ t.issued ∧ response ≠ .upload none := by
      cases hperformed with
      | createUpload hid => exact ⟨rfl, Nat.le_succ _, nofun⟩
      | _ => exact ⟨rfl, Nat.le_refl _, nofun⟩
    obtain ⟨hlater, hmore, hnames⟩ := ih (hkept.1.trans hfaults)
    exact ⟨hlater, Nat.le_trans hkept.2.1 hmore, List.forall_mem_cons.2 ⟨hkept.2.2, hnames⟩⟩

theorem id_of_created {response : Response}
    (h : s.answer ⟨bucket, full, .createUpload⟩ = (response, t)) (hfaults : s.faults = []) :
    response = .upload (some (idOf (s.issued + 1))) := by
  rw [answer_of_faultless hfaults] at h
  cases h
  rfl

theorem done_of_dropped {response : Response}
    (h : s.answer ⟨bucket, full, .abortUpload id⟩ = (response, t)) (hfaults : s.faults = [])
    (hopen : id ∈ s.openIds) : response = .done := by
  have hfound : ∃ upload, s.upload? id = some upload := by
    obtain ⟨upload, hmem, rfl⟩ := List.mem_map.1 hopen
    rw [← Option.isSome_iff_exists, upload?, List.find?_isSome]
    exact ⟨upload, hmem, by simp⟩
  obtain ⟨upload, hfound⟩ := hfound
  rw [answer_of_faultless hfaults, perform] at h
  have hsame : upload? { s with log := s.log ++ [⟨bucket, full, .abortUpload id⟩] } id =
      some upload := hfound
  simp only [hsame] at h
  cases h
  rfl

end Server

variable {bucket full : String} {es : List Exchange}

/-- A settled upload is dropped when that is asked for, because it is still open then. -/
theorem Settled.closes {heads after : List Request} {s t : Server}
    (h : Settled bucket full heads after es) (htalk : s.Talk es t) (hfaults : s.faults = [])
    (hafter : ∀ request ∈ after, request.action = .head) : t.openIds ⊆ s.openIds := by
  obtain ⟨-, -, hnames⟩ := htalk.of_faultless hfaults
  rw [htalk.openIds hnames]
  refine h.change_of_dropped hnames (fun id broken answer hbreaks hes => ?_) hafter _
  rw [hes, ← List.cons_append] at htalk hnames
  obtain ⟨u, hfront, hlast⟩ := Server.Talk.append_iff.1 htalk
  obtain ⟨v, hanswer, -⟩ := Server.Talk.cons_iff.1 hlast
  obtain ⟨hfaults', -, hnames'⟩ := hfront.of_faultless hfaults
  refine Server.done_of_dropped hanswer hfaults' ?_
  rw [hfront.openIds hnames', List.foldl_cons, hbreaks.change]
  exact List.mem_append_right _ (List.mem_singleton_self id)

namespace Store

/-- An upload that is left open has the id that was given out for it. -/
theorem LeftOpen.opens {s t : Server} (h : LeftOpen bucket full es) (htalk : s.Talk es t)
    (hfaults : s.faults = []) : t.openIds = s.openIds ++ [Server.idOf (s.issued + 1)] := by
  obtain ⟨-, -, hnames⟩ := htalk.of_faultless hfaults
  rw [htalk.openIds hnames]
  obtain ⟨id, carried, hstops, rfl⟩ := h
  obtain ⟨u, hanswer, -⟩ := Server.Talk.cons_iff.1 htalk
  have hid := Server.id_of_created hanswer hfaults
  cases hid
  rw [List.foldl_cons, change_of_works hstops.works]
  rfl

/-! ## Calls of an upload -/

/-- No fault strikes, and no upload is open but those of `ids`, whose ids were given out before. -/
structure Clean (ids : List String) (s : Store) : Prop where
  faultless : s.server.faults = []
  issued : ∀ id ∈ ids, ∃ k ≤ s.server.issued, id = Server.idOf k
  closed : s.server.openIds ⊆ ids

/-- Another upload is open just if the first part of `rest` is a full one. -/
structure Littered (ids : List String) (rest : Bytes) (s : Store) : Prop where
  faultless : s.server.faults = []
  opened : (∃ id ∈ s.server.openIds, id ∉ ids) ↔ leastPartSize ≤ rest.length

/-- The store says something that opens no upload and ends none. -/
def Quiet (s t : Store) : Prop :=
  ∃ es, s.Talks es t ∧ ∀ ids, es.foldl Exchange.change ids = ids

variable {ids : List String} {s t : Store} {key : String}

theorem Quiet.openIds (h : s.Quiet t) (hfaults : s.server.faults = []) :
    t.server.faults = [] ∧ t.server.openIds = s.server.openIds := by
  obtain ⟨es, htalk, hquiet⟩ := h
  obtain ⟨hkept, -, hnames⟩ := htalk.talk.of_faultless hfaults
  exact ⟨hkept, (htalk.talk.openIds hnames).trans (hquiet _)⟩

theorem Refused.quiet {request : Request} (h : s.Refused request t)
    (hquiet : ∀ ids response, Exchange.change ids ⟨request, response⟩ = ids) : s.Quiet t := by
  obtain ⟨es, htalk, rfl | ⟨response, -, rfl⟩⟩ := h.talks
  · exact ⟨_, htalk, fun _ => rfl⟩
  · exact ⟨_, htalk, fun ids => hquiet ids response⟩

theorem put_quiet (s : Store) (bucket key : String) (data : Bytes) :
    Call.Settles (put bucket key data) s s.Quiet := by
  refine (ends_put data).mono (fun _ t htalk => ⟨_, htalk, fun _ => rfl⟩) fun halt t hbad => ?_
  exact ⟨hbad.1, hbad.2.quiet fun _ _ => rfl⟩

theorem delete_quiet (s : Store) (bucket key : String) :
    Call.Settles (delete bucket key) s s.Quiet := by
  refine ends_delete.mono (fun _ t htalk => ⟨_, htalk, fun _ => rfl⟩) fun halt t hbad => ?_
  exact ⟨hbad.1, hbad.2.quiet fun _ _ => rfl⟩

namespace Clean

theorem of_sound (h : s.server.Sound) : Clean s.server.openIds s :=
  ⟨h.faultless, h.issued, List.Subset.refl _⟩

theorem talks (h : Clean ids s) (htalk : s.Talks es t)
    (hclosed : t.server.openIds ⊆ s.server.openIds) : Clean ids t := by
  obtain ⟨hfaults, hissued, -⟩ := htalk.talk.of_faultless h.faultless
  refine ⟨hfaults, fun id hid => ?_, fun id hid => h.closed (hclosed hid)⟩
  obtain ⟨k, hk, rfl⟩ := h.issued id hid
  exact ⟨k, Nat.le_trans hk hissued, rfl⟩

theorem quiet (h : Clean ids s) (hquiet : s.Quiet t) : Clean ids t := by
  have hsame := (hquiet.openIds h.faultless).2
  obtain ⟨es, htalk, -⟩ := hquiet
  exact h.talks htalk fun id hid => hsame ▸ hid

theorem stream_talk {c : Client} (h : Clean ids s) (htalk : s.Talks es t)
    (hstream : StreamTalk c bucket key es) : Clean ids t := by
  rcases hstream with rfl | ⟨body, answer, rfl⟩ | hsettled
  · exact h.quiet ⟨_, htalk, fun _ => rfl⟩
  · exact h.quiet ⟨_, htalk, fun _ => rfl⟩
  · exact h.talks htalk (hsettled.closes htalk.talk h.faultless nofun)

theorem compose_talk {c : Client} {sources : List String} (h : Clean ids s)
    (htalk : s.Talks es t) (hcompose : ComposeTalk c bucket sources key es) : Clean ids t := by
  rcases hcompose with rfl | hsettled
  · exact h.quiet ⟨_, htalk, fun _ => rfl⟩
  · exact h.talks htalk (hsettled.closes htalk.talk h.faultless (by simp [headOf]))

/-- A call that was abandoned while it waited for the first part has left nothing. -/
theorem abandoned_early {contents : Reader} (h : Clean ids s)
    (hstalled : (Reader.refill ⟨streamPartSize 1, []⟩ contents).stop = .stalled) :
    Littered ids contents.flow s := by
  have hshort : contents.flow.length < streamPartSize 1 :=
    Reader.length_flow_of_stalled hstalled
  have hsize : streamPartSize 1 = leastPartSize := by decide
  refine ⟨h.faultless, fun hopen => ?_, fun hlong => ?_⟩
  · obtain ⟨id, hid, hnew⟩ := hopen
    exact absurd (h.closed hid) hnew
  · omega

/-- Later on it has left its upload open. -/
theorem abandoned_late {contents : Reader} (h : Clean ids s) (htalk : s.Talks es t)
    (hcount : leastPartSize ≤ (Reader.refill ⟨streamPartSize 1, []⟩ contents).count)
    (hopen : LeftOpen bucket full es) : Littered ids contents.flow t := by
  obtain ⟨hfaults, -, -⟩ := htalk.talk.of_faultless h.faultless
  have hlong : leastPartSize ≤ contents.flow.length := by
    rw [Reader.refill_count] at hcount
    omega
  refine ⟨hfaults, fun _ => hlong, fun _ => ⟨Server.idOf (s.server.issued + 1), ?_, ?_⟩⟩
  · rw [hopen.opens htalk.talk h.faultless]
    exact List.mem_append_right _ (List.mem_singleton_self _)
  · intro hid
    obtain ⟨k, hk, heq⟩ := h.issued _ hid
    have := Server.idOf_inj heq
    omega

theorem stream (h : Clean ids s) (bucket key : String) (contents : Reader) :
    Ends (createFromReader bucket key contents) s (fun _ => Clean ids)
      (fun halt t => halt ≠ .abandoned ∧ Clean ids t ∨
        halt = .abandoned ∧ Littered ids contents.flow t) := by
  refine (ends_createFromReader s bucket key contents).mono ?_ ?_
  · intro _ t hgood
    obtain ⟨es, htalk, hstream⟩ := hgood
    exact h.stream_talk htalk hstream
  · intro halt t hbad
    obtain ⟨es, htalk, ⟨hhalt, hstream⟩ | ⟨hhalt, -, ⟨hstalled, rfl⟩ | ⟨hcount, hopen⟩⟩⟩ := hbad
    · exact .inl ⟨hhalt, h.stream_talk htalk hstream⟩
    · exact .inr ⟨hhalt, (h.quiet ⟨_, htalk, fun _ => rfl⟩).abandoned_early hstalled⟩
    · exact .inr ⟨hhalt, h.abandoned_late htalk hcount hopen⟩

theorem compose (h : Clean ids s) (bucket : String) (sources : List String)
    (destination : String) :
    Call.Settles (Store.compose bucket sources destination) s (Clean ids) := by
  refine (ends_compose s bucket sources destination).mono ?_ ?_
  · intro _ t hgood
    obtain ⟨es, htalk, hcompose⟩ := hgood
    exact h.compose_talk htalk hcompose
  · intro halt t hbad
    obtain ⟨hhalt, es, htalk, hcompose⟩ := hbad
    exact ⟨hhalt, h.compose_talk htalk hcompose⟩

end Clean

theorem Littered.quiet {rest : Bytes} (h : Littered ids rest s) (hquiet : s.Quiet t) :
    Littered ids rest t := by
  obtain ⟨hfaults, hsame⟩ := hquiet.openIds h.faultless
  exact ⟨hfaults, by rw [hsame]; exact h.opened⟩

/-- A service without faults takes the parts of an upload and has no more uploads open than before,
unless a stream stalls that has a full first part. -/
theorem tidy (ids : List String) (bucket destination : String) :
    Tidy Store bucket destination (fun _ => Clean ids) (Littered ids) where
  create data _ h := (put_quiet _ _ _ data).mono fun _ hquiet => h.quiet hquiet
  stream contents _ h := h.stream _ _ contents
  compose _ h := h.compose _ _ _
  delete _ _ h := (delete_quiet _ _ _).mono fun _ hquiet => h.quiet hquiet
  delete_littered _ _ h := (delete_quiet _ _ _).mono fun _ hquiet => h.quiet hquiet

end Store

end ChunkedUpload.S3
