import ChunkedUpload.Proofs.S3.Settlement

/-!
# Which multipart uploads stay open

The requests that change which uploads are open are those that open one, complete it or drop it
(`Exchange.change`); a conversation changes them one exchange after the other (`Talk.openIds`). So
a call that settles its upload leaves none open that was not open before, unless the service refuses
to drop one or keeps its id to itself (`multipart_uploads_settled`).
-/

namespace ChunkedUpload.S3

open Call (Ends)

/-- The ids of the open uploads. -/
def Server.openIds (s : Server) : List String := s.uploads.map (·.id)

/-- What an exchange makes of the ids of the open uploads. -/
def Exchange.change (ids : List String) (e : Exchange) : List String :=
  match e.request.action, e.response with
  | .createUpload, .upload (some id) => ids ++ [id]
  | .completeUpload id _, .done | .abortUpload id, .done => ids.filter (· ≠ id)
  | _, _ => ids

namespace Server

theorem openIds_addPart (id : String) (part : Nat) (body : Bytes) (s : Server) :
    (s.addPart id part body).openIds = s.openIds := by
  simp only [openIds, addPart, List.map_map]
  refine List.map_congr_left fun u _ => ?_
  simp only [Function.comp_apply]
  split <;> rfl

theorem openIds_endUpload (id : String) (s : Server) :
    (s.endUpload id).openIds = s.openIds.filter (· ≠ id) := by
  simp only [openIds, endUpload, List.filter_map]
  rfl

/-- One answer, if it does not keep a new id back. -/
theorem openIds_answer {s t : Server} {e : Exchange} (h : s.answer e.request = (e.response, t))
    (hnamed : e.response ≠ .upload none) : t.openIds = e.change s.openIds := by
  obtain ⟨request, response⟩ := e
  obtain ⟨effect, -, hperformed⟩ := performed_of_answer h
  cases hperformed with
  | refused =>
    obtain ⟨bucket, key, action⟩ := request
    cases action <;> rfl
  | put | delete | get | head => rfl
  | createUpload hid =>
    by_cases heffect : effect = some (.leaveOut .uploadId)
    · simp [unlessOmitted, heffect] at hnamed
    · simp [unlessOmitted, heffect, Exchange.change, openIds]
  | uploadPart | copyPart => exact openIds_addPart ..
  | completeUpload | abortUpload => exact openIds_endUpload ..

/-- A conversation changes the open uploads one exchange after the other. -/
theorem Talk.openIds {s t : Server} {es : List Exchange} (h : Talk s es t)
    (hnamed : ∀ e ∈ es, e.response ≠ .upload none) :
    t.openIds = es.foldl Exchange.change s.openIds := by
  induction h with
  | nil => rfl
  | cons he _ ih =>
    rw [ih fun e hmem => hnamed e (by simp [hmem]), openIds_answer he (hnamed _ (by simp))]
    rfl

end Server

/-! ## What a settled upload leaves -/

variable {bucket full id : String} {heads after : List Request} {next : Nat} {es : List Exchange}

/-- The requests that are made while an upload is open: for parts and for lengths. -/
def Action.Works : Action → Prop
  | .uploadPart .. | .copyPart .. | .head => True
  | _ => False

theorem Action.works_of_part {action : Action} {carried : String × Nat}
    (h : action.part? = some carried) : action.Works := by
  cases action <;> trivial

theorem Carries.works {parts : List (Nat × String)}
    (h : Carries bucket full id heads next es parts) : ∀ e ∈ es, e.request.action.Works := by
  induction h with
  | nil => nofun
  | part hpart _ ih => exact List.forall_mem_cons.2 ⟨Action.works_of_part hpart, ih⟩
  | head _ ih => exact List.forall_mem_cons.2 ⟨trivial, ih⟩

theorem Stops.works (h : Stops bucket full id heads next es) :
    ∀ e ∈ es, e.request.action.Works := by
  induction h with
  | early => nofun
  | part_fails hpart _ => exact List.forall_mem_singleton.2 (Action.works_of_part hpart)
  | head_fails => exact List.forall_mem_singleton.2 trivial
  | part hpart _ ih => exact List.forall_mem_cons.2 ⟨Action.works_of_part hpart, ih⟩
  | head _ ih => exact List.forall_mem_cons.2 ⟨trivial, ih⟩

/-- They open no upload and end none. -/
theorem change_of_works (h : ∀ e ∈ es, e.request.action.Works) (ids : List String) :
    es.foldl Exchange.change ids = ids := by
  induction es with
  | nil => rfl
  | cons e es ih =>
    obtain ⟨he, hes⟩ := List.forall_mem_cons.1 h
    have hchange : e.change ids = ids := by
      obtain ⟨⟨bucket, key, action⟩, response⟩ := e
      cases action <;> first | rfl | exact he.elim
    rw [List.foldl_cons, hchange]
    exact ih hes

/-- Completing an upload that is refused leaves it open. -/
theorem Breaks.change (h : Breaks bucket full id heads es) (ids : List String) :
    es.foldl Exchange.change ids = ids := by
  cases h with
  | unfinished hstops => exact change_of_works hstops.works ids
  | @refused _ _ response hcarries hfails =>
    rw [List.foldl_append, change_of_works hcarries.works]
    cases response <;> first | exact hfails.elim | rfl

/-- The service names every upload that it opens. -/
def Names (es : List Exchange) : Prop := ∀ e ∈ es, e.response ≠ .upload none

/-- The service drops every upload that it is asked to drop. -/
def Drops (es : List Exchange) : Prop :=
  ∀ e ∈ es, ∀ id, e.request.action = .abortUpload id → e.response = .done

/-- An upload that was opened and then ended is not open any more. -/
theorem filter_concat_subset (ids : List String) (id : String) :
    (ids ++ [id]).filter (· ≠ id) ⊆ ids := by
  intro x hx
  simp only [List.mem_filter, List.mem_append, List.mem_singleton, decide_eq_true_eq] at hx
  exact hx.1.resolve_right hx.2

/-- A settled upload is not open any more, if the service names it and drops it when asked to. -/
theorem Settled.change_of_dropped (h : Settled bucket full heads after es) (hnames : Names es)
    (hdropped : ∀ id broken answer, Breaks bucket full id heads broken →
      es = ⟨⟨bucket, full, .createUpload⟩, .upload (some id)⟩ ::
        (broken ++ [⟨⟨bucket, full, .abortUpload id⟩, answer⟩]) → answer = .done)
    (hafter : ∀ request ∈ after, request.action = .head) (ids : List String) :
    es.foldl Exchange.change ids ⊆ ids := by
  cases h with
  | @unopened response hfails =>
    have hnamed : response ≠ .upload none := hnames ⟨_, response⟩ (List.mem_singleton.2 rfl)
    have hids : Exchange.change ids ⟨⟨bucket, full, .createUpload⟩, response⟩ = ids := by
      cases response with
      | upload id => cases id with
        | none => exact absurd rfl hnamed
        | some id => exact hfails.elim
      | _ => rfl
    rw [List.foldl_cons, hids]
    exact List.Subset.refl ids
  | @completed id es answers hcompleted hanswers =>
    obtain ⟨carried, parts, hcarries, rfl⟩ := hcompleted
    have hworks : ∀ e ∈ answers, e.request.action.Works := by
      intro e he
      rw [hafter e.request (hanswers ▸ List.mem_map_of_mem he)]
      trivial
    rw [List.foldl_cons, List.foldl_append, List.foldl_append, change_of_works hcarries.works,
      change_of_works hworks]
    exact filter_concat_subset ids id
  | @dropped id es hends =>
    obtain ⟨broken, answer, hbreaks, rfl⟩ := hends
    obtain rfl := hdropped id broken answer hbreaks rfl
    rw [List.foldl_cons, List.foldl_append, hbreaks.change]
    exact filter_concat_subset ids id

theorem Settled.change (h : Settled bucket full heads after es) (hnames : Names es)
    (hdrops : Drops es) (hafter : ∀ request ∈ after, request.action = .head) (ids : List String) :
    es.foldl Exchange.change ids ⊆ ids := by
  refine h.change_of_dropped hnames (fun id broken answer _ hes => ?_) hafter ids
  exact hdrops ⟨⟨bucket, full, .abortUpload id⟩, answer⟩ (by simp [hes]) id rfl

/-! ## What an upload is completed with -/

/-- The parts that a request to complete an upload lists. -/
def Exchange.lists? (e : Exchange) : Option (List (Nat × String)) :=
  match e.request.action with
  | .completeUpload _ parts => some parts
  | _ => none

/-- The requests in between list nothing. -/
theorem lists_of_works (h : ∀ e ∈ es, e.request.action.Works) :
    es.filterMap (·.lists?) = [] := by
  refine List.filterMap_eq_nil_iff.2 fun e he => ?_
  have hworks := h e he
  unfold Exchange.lists?
  cases haction : e.request.action <;> first | rfl | (rw [haction] at hworks; exact hworks.elim)

/-- Asking for lengths lists nothing and has no tags. -/
theorem filterMap_of_heads (h : ∀ e ∈ es, e.request.action = .head) :
    es.filterMap (·.lists?) = [] ∧ es.filterMap (·.tagged?) = [] := by
  refine ⟨lists_of_works fun e he => ?_, List.filterMap_eq_nil_iff.2 fun e he => ?_⟩
  · rw [h e he]
    trivial
  · rw [Exchange.tagged?, h e he]
    rfl

/-- The parts listed are those that were sent, in order, each with the tag that the service gave. -/
def ListsSent (es : List Exchange) : Prop :=
  ∀ parts ∈ es.filterMap (·.lists?), parts = es.filterMap (·.tagged?) ∧
    parts.map (·.1) = List.range' 1 parts.length

theorem Carries.listsSent {parts : List (Nat × String)} {opening completing : Exchange}
    {rest : List Exchange} (h : Carries bucket full id heads 1 es parts)
    (hopening : opening.lists? = none ∧ opening.tagged? = none)
    (hcompleting : completing.lists? = some parts ∧ completing.tagged? = none)
    (hrest : rest.filterMap (·.lists?) = [] ∧ rest.filterMap (·.tagged?) = []) :
    ListsSent (opening :: (es ++ completing :: rest)) := by
  unfold ListsSent
  rw [List.filterMap_cons_none hopening.1, List.filterMap_cons_none hopening.2,
    List.filterMap_append, List.filterMap_append, List.filterMap_cons_some hcompleting.1,
    List.filterMap_cons_none hcompleting.2, hrest.1, hrest.2, lists_of_works h.works, h.tagged]
  intro listed hlisted
  obtain rfl : listed = parts := by simpa using hlisted
  exact ⟨(List.append_nil _).symm, h.numbers⟩

theorem Settled.listsSent (h : Settled bucket full heads after es)
    (hafter : ∀ request ∈ after, request.action = .head) : ListsSent es := by
  cases h with
  | unopened =>
    intro parts hparts
    cases hparts
  | completed hcompleted hanswers =>
    obtain ⟨carried, parts, hcarries, rfl⟩ := hcompleted
    rw [List.append_assoc]
    refine hcarries.listsSent ⟨rfl, rfl⟩ ⟨rfl, rfl⟩ (filterMap_of_heads fun e he => ?_)
    exact hafter _ (hanswers ▸ List.mem_map_of_mem he)
  | dropped hdropped =>
    obtain ⟨broken, answer, hbreaks, rfl⟩ := hdropped
    cases hbreaks with
    | unfinished hstops =>
      unfold ListsSent
      rw [List.filterMap_cons_none rfl, List.filterMap_append, lists_of_works hstops.works]
      intro parts hparts
      cases hparts
    | refused hcarries =>
      rw [List.append_assoc]
      exact hcarries.listsSent ⟨rfl, rfl⟩ ⟨rfl, rfl⟩ ⟨rfl, rfl⟩

/-! ## Every call -/

namespace Store

/-- What a call says to its service on the way from `s` to `t`, and what that means for uploads. -/
structure Closes (s : Store) (es : List Exchange) (t : Store) : Prop where
  talks : s.Talks es t
  log : t.server.log = s.server.log ++ es.map (·.request)
  lists : ListsSent es
  /-- Unless the service keeps a new id to itself or does not drop an upload, none is open that was
  not open before. -/
  closes : Names es → Drops es → t.server.openIds ⊆ s.server.openIds

theorem Talks.closes {s t : Store} (h : s.Talks es t) (hlists : ListsSent es)
    (hchange : Names es → Drops es → ∀ ids, es.foldl Exchange.change ids ⊆ ids) :
    s.Closes es t := by
  refine ⟨h, h.talk.log, hlists, fun hnames hdrops => ?_⟩
  rw [h.talk.openIds hnames]
  exact hchange hnames hdrops _

/-- A call that says nothing leaves the open uploads as they are. -/
theorem Talks.closes_nil {s t : Store} (h : s.Talks [] t) : s.Closes [] t :=
  h.closes nofun fun _ _ ids => List.Subset.refl ids

theorem Talks.closes_put {s t : Store} {body : Bytes} {answer : Response}
    (h : s.Talks [⟨⟨bucket, full, .put body⟩, answer⟩] t) :
    s.Closes [⟨⟨bucket, full, .put body⟩, answer⟩] t :=
  h.closes nofun fun _ _ ids => List.Subset.refl ids

theorem Talks.closes_settled {s t : Store} (h : s.Talks es t)
    (hsettled : Settled bucket full heads after es)
    (hafter : ∀ request ∈ after, request.action = .head) : s.Closes es t :=
  h.closes (hsettled.listsSent hafter) fun hnames hdrops => hsettled.change hnames hdrops hafter

theorem Talks.closes_stream {s t : Store} {c : Client} {key : String} (h : s.Talks es t)
    (hstream : StreamTalk c bucket key es) : s.Closes es t := by
  rcases hstream with rfl | ⟨body, answer, rfl⟩ | hsettled
  · exact h.closes_nil
  · exact h.closes_put
  · exact h.closes_settled hsettled nofun

theorem Talks.closes_compose {s t : Store} {c : Client} {sources : List String}
    {destination : String} (h : s.Talks es t)
    (hcompose : ComposeTalk c bucket sources destination es) : s.Closes es t := by
  rcases hcompose with rfl | hsettled
  · exact h.closes_nil
  · exact h.closes_settled hsettled (by simp [headOf])

/-- Whatever the service answers, a stream and a compose open at most one multipart upload, send its
parts in order up to the first failure, and then complete it with just these parts or drop it.
Nothing more is said about it after that. A stream that stalls is the exception: the call that waits
for it is abandoned. -/
theorem multipart_uploads_settled (s : Store) (bucket : String) :
    (∀ (key : String) (contents : Reader),
      (contents.Responsive → ¬ Call.Abandons (createFromReader bucket key contents) s) ∧
      (¬ Call.Abandons (createFromReader bucket key contents) s →
        ∃ es, s.Closes es (Call.final (createFromReader bucket key contents s)) ∧
          StreamTalk s.client bucket key es)) ∧
    ∀ (sources : List String) (destination : String),
      ¬ Call.Abandons (compose bucket sources destination) s ∧
      ∃ es, s.Closes es (Call.final (compose bucket sources destination s)) ∧
        ComposeTalk s.client bucket sources destination es := by
  constructor
  · intro key contents
    have hends := ends_createFromReader s bucket key contents
    constructor
    · intro hresponsive
      refine (hends.mono (fun _ _ h => h) ?_).not_abandons
      rintro halt t ⟨es, -, ⟨hhalt, -⟩ | ⟨-, hstalls, -⟩⟩
      · exact hhalt
      · exact absurd hresponsive hstalls
    · intro habandons
      let P (t : Store) : Prop := ∃ es, s.Closes es t ∧ StreamTalk s.client bucket key es
      have hends : Ends (createFromReader bucket key contents) s (fun _ => P) fun _ => P := by
        refine (hends.of_not_abandons habandons).mono ?_ ?_
        · rintro _ t ⟨es, htalk, hstream⟩
          exact ⟨es, htalk.closes_stream hstream, hstream⟩
        · rintro halt t ⟨hhalt, es, htalk, ⟨-, hstream⟩ | ⟨habandoned, -⟩⟩
          · exact ⟨es, htalk.closes_stream hstream, hstream⟩
          · exact absurd habandoned hhalt
      exact hends.final
  · intro sources destination
    have hends := ends_compose s bucket sources destination
    refine ⟨(hends.mono (fun _ _ h => h) fun _ _ h => h.1).not_abandons, ?_⟩
    let P (t : Store) : Prop :=
      ∃ es, s.Closes es t ∧ ComposeTalk s.client bucket sources destination es
    have hends : Ends (compose bucket sources destination) s (fun _ => P) fun _ => P := by
      refine hends.mono ?_ ?_
      · rintro _ t ⟨es, htalk, hcompose⟩
        exact ⟨es, htalk.closes_compose hcompose, hcompose⟩
      · rintro halt t ⟨-, es, htalk, hcompose⟩
        exact ⟨es, htalk.closes_compose hcompose, hcompose⟩
    exact hends.final

/-- A stream of two full parts to a service that refuses the second one. -/
theorem multipart_uploads_settled_struck :
    let s : Store := ⟨⟨none, "", ""⟩, { faults := [⟨.uploadPart, some 2, none, .status 500⟩] }, true⟩
    let contents : Reader := ⟨[.data (List.replicate (2 * leastPartSize) 0) none], [], 0⟩
    contents.Responsive ∧ ¬ Call.Abandons (createFromReader "b" "k" contents) s ∧
      ∃ es, s.Closes es (Call.final (createFromReader "b" "k" contents s)) ∧
        StreamTalk s.client "b" "k" es := by
  intro s contents
  have hresponsive : contents.Responsive := by simp [Reader.Responsive, Reader.Step.Answers, contents]
  have hsettled := (multipart_uploads_settled s "b").1 "k" contents
  exact ⟨hresponsive, hsettled.1 hresponsive, hsettled.2 (hsettled.1 hresponsive)⟩

end Store

end ChunkedUpload.S3
