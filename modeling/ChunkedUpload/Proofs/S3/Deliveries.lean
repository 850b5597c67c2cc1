import ChunkedUpload.Proofs.Reader.Ending
import ChunkedUpload.Proofs.S3.Multipart
import ChunkedUpload.Proofs.S3.Objects

/-!
# What is delivered to a service

`Delivers` is a conversation that carries parts, with what each part is made of. A stream whose end
is final is cut into bodies (`Slices`), and objects are copied whole or in the ranges that their
lengths ask for (`Copies`). `ends_stream` and `ends_joining` say what a call delivers that succeeds,
and that any other call was `Fruitless`: it has made no object, unless only the last question of a
compose remained unanswered.
-/

namespace ChunkedUpload.S3

open Call (Ends)

variable {bucket full id : String} {next : Nat} {es fs : List Exchange}
  {payloads payloads' : List Payload} {parts parts' : List (Nat × String)}

/-- The parts numbered from `next` on, which are made of `payloads`, each answered with its tag, and
lengths that are asked for and told in between. -/
inductive Delivers (bucket full id : String) :
    Nat → List Exchange → List Payload → List (Nat × String) → Prop
  | nil (next : Nat) : Delivers bucket full id next [] [] []
  | part {payload : Payload} {tag : String} {next : Nat} {es : List Exchange}
      {payloads : List Payload} {parts : List (Nat × String)} : next ≤ mostParts →
      Delivers bucket full id (next + 1) es payloads parts →
      Delivers bucket full id next
        (⟨⟨bucket, full, payload.action id next⟩, .part (some tag)⟩ :: es) (payload :: payloads)
        ((next, tag) :: parts)
  | head {key : String} {given : Option Nat} {next : Nat} {es : List Exchange}
      {payloads : List Payload} {parts : List (Nat × String)} :
      Delivers bucket full id next es payloads parts →
      Delivers bucket full id next (⟨⟨bucket, key, .head⟩, .length given⟩ :: es) payloads parts

namespace Delivers

theorem append (h : Delivers bucket full id next es payloads parts)
    (h' : Delivers bucket full id (next + parts.length) fs payloads' parts') :
    Delivers bucket full id next (es ++ fs) (payloads ++ payloads') (parts ++ parts') := by
  induction h with
  | nil => exact h'
  | part hnext _ ih =>
    refine .part hnext (ih ?_)
    simpa [Nat.add_assoc, Nat.add_comm 1] using h'
  | head _ ih => exact .head (ih h')

theorem works (h : Delivers bucket full id next es payloads parts) :
    ∀ e ∈ es, e.request.action.Works := by
  induction h with
  | nil => nofun
  | part _ _ ih => exact List.forall_mem_cons.2 ⟨Action.works_of_part (Payload.part?_action ..), ih⟩
  | head _ ih => exact List.forall_mem_cons.2 ⟨trivial, ih⟩

theorem numbers (h : Delivers bucket full id next es payloads parts) :
    parts.map (·.1) = List.range' next parts.length := by
  induction h with
  | nil => rfl
  | part _ _ ih => simp [List.range'_succ, ih]
  | head _ ih => exact ih

theorem length_eq (h : Delivers bucket full id next es payloads parts) :
    parts.length = payloads.length := by
  induction h with
  | nil => rfl
  | part _ _ ih => simp [ih]
  | head _ ih => exact ih

theorem length_le (h : Delivers bucket full id next es payloads parts) :
    parts = [] ∨ next + parts.length ≤ mostParts + 1 := by
  induction h with
  | nil => exact .inl rfl
  | part hnext _ ih =>
    refine .inr ?_
    rcases ih with rfl | ih <;> simp only [List.length_cons, List.length_nil] <;> omega
  | head _ ih => exact ih

end Delivers

/-! ## How an upload goes on -/

/-- A multipart upload that is completed with all that was delivered. -/
def Uploaded (bucket full : String) (fit : List Payload → Prop) (es : List Exchange) : Prop :=
  ∃ id carried payloads parts, Delivers bucket full id 1 carried payloads parts ∧ fit payloads ∧
    es = ⟨⟨bucket, full, .createUpload⟩, .upload (some id)⟩ ::
      (carried ++ [⟨⟨bucket, full, .completeUpload id parts⟩, .done⟩])

/-- An open upload that is not completed, and dropped at best. -/
inductive Broken (bucket full id : String) (fit : List Payload → Prop) : List Exchange → Prop
  | unfinished {es after : List Exchange} : (∀ e ∈ es, e.request.action.Works) →
      (∀ e ∈ after, e.request.action = .abortUpload id) → Broken bucket full id fit (es ++ after)
  | refused {es after : List Exchange} {payloads : List Payload} {parts : List (Nat × String)}
      {response : Response} : Delivers bucket full id 1 es payloads parts → fit payloads →
      response.Fails → (∀ e ∈ after, e.request.action = .abortUpload id) →
      Broken bucket full id fit
        (es ++ ⟨⟨bucket, full, .completeUpload id parts⟩, response⟩ :: after)

/-- What a call says that makes no object. -/
inductive Fruitless (bucket full : String) (fit : List Payload → Prop) : List Exchange → Prop
  | silent : Fruitless bucket full fit []
  | unwritten {body : Bytes} {response : Response} : response.Fails →
      Fruitless bucket full fit [⟨⟨bucket, full, .put body⟩, response⟩]
  | unopened {response : Response} : response.Fails →
      Fruitless bucket full fit [⟨⟨bucket, full, .createUpload⟩, response⟩]
  | broken {id : String} {es : List Exchange} : Broken bucket full id fit es →
      Fruitless bucket full fit (⟨⟨bucket, full, .createUpload⟩, .upload (some id)⟩ :: es)

theorem quiet_of_aborts (h : ∀ e ∈ es, e.request.action = .abortUpload id) :
    ∀ e ∈ es, e.Quiet := by
  intro e he hedits
  rw [h e he] at hedits
  exact hedits.elim

theorem Fruitless.quiet {fit : List Payload → Prop} (h : Fruitless bucket full fit es) :
    ∀ e ∈ es, e.Quiet := by
  have hworks : ∀ {es : List Exchange}, (∀ e ∈ es, e.request.action.Works) → ∀ e ∈ es, e.Quiet :=
    fun h e he => Exchange.quiet_of_works (h e he)
  cases h with
  | silent => nofun
  | unwritten hfails | unopened hfails =>
    exact List.forall_mem_singleton.2 (Exchange.quiet_of_fails hfails)
  | broken hbroken =>
    refine List.forall_mem_cons.2 ⟨fun hedits => hedits.elim, ?_⟩
    cases hbroken with
    | unfinished hes hafter =>
      exact List.forall_mem_append.2 ⟨hworks hes, quiet_of_aborts hafter⟩
    | refused hdelivers _ hfails hafter =>
      exact List.forall_mem_append.2 ⟨hworks hdelivers.works,
        List.forall_mem_cons.2 ⟨Exchange.quiet_of_fails hfails, quiet_of_aborts hafter⟩⟩

/-- What the delivered parts hold at the service, one after another. -/
theorem Delivers.gathers {s t : Server} (h : Delivers bucket full id next es payloads parts)
    (htalk : s.Talk es t) {address : Address} {sent : List (Nat × Bytes)}
    {listed : List (Nat × String)} {held : List Bytes}
    (hopen : s.upload? id = some ⟨id, address, sent⟩)
    (hsent : Store.Sent id sent listed next held) :
    ∃ (contents : List Bytes) (sent' : List (Nat × Bytes)),
      payloads.map s.yields = contents.map some ∧
      t.upload? id = some ⟨id, address, sent'⟩ ∧
      Store.Sent id sent' (listed ++ parts) (next + parts.length) (held ++ contents) := by
  induction h generalizing s sent listed held with
  | nil =>
    cases htalk
    exact ⟨[], sent, rfl, hopen, by simpa using hsent⟩
  | @part payload tag next es payloads parts _ _ ih =>
    obtain ⟨u, hanswer, hlater⟩ := Server.Talk.cons_iff.1 htalk
    obtain ⟨htag, body, hyields, hopen'⟩ := Server.part_of_answer hanswer hopen
    obtain rfl : tag = Server.partTag id next := Option.some.inj (htag.resolve_left nofun)
    have hkeeps := Server.answer_keeps hanswer (Exchange.quiet_of_works
      (Action.works_of_part (Payload.part?_action id next payload)))
    obtain ⟨contents, sent', hcontents, hopen'', hsent'⟩ := ih hlater hopen' (hsent.add body)
    refine ⟨body :: contents, sent', ?_, hopen'', ?_⟩
    · have hsame : u.yields = s.yields := funext hkeeps.yields_eq
      rw [List.map_cons, List.map_cons, hyields, ← hcontents, hsame]
    · simpa [Nat.add_assoc, Nat.add_comm 1] using hsent'
  | head _ ih =>
    obtain ⟨u, hanswer, htalk⟩ := Server.Talk.cons_iff.1 htalk
    have hkeeps := Server.answer_keeps hanswer (fun hedits => hedits.elim)
    have hsame : u.yields = s.yields := funext hkeeps.yields_eq
    rw [← hsame]
    refine ih htalk ?_ hsent
    rw [Server.upload?, Server.uploads_of_head hanswer]
    exact hopen

/-- An upload that is completed makes an object of what its parts are made of. -/
theorem Uploaded.objects {s t : Server} {fit : List Payload → Prop}
    (h : Uploaded bucket full fit es) (htalk : s.Talk es t) (hissued : s.Issued) :
    ∃ (payloads : List Payload) (contents : List Bytes),
      fit payloads ∧ payloads.map s.yields = contents.map some ∧
      t.objects = s.objects.insert (bucket, full) contents.flatten := by
  obtain ⟨id, carried, payloads, parts, hdelivers, hfit, rfl⟩ := h
  obtain ⟨u, hopened, htalk⟩ := Server.Talk.cons_iff.1 htalk
  obtain ⟨v, hcarried, hlast⟩ := Server.Talk.append_iff.1 htalk
  obtain ⟨w, hcompleted, hnil⟩ := Server.Talk.cons_iff.1 hlast
  cases hnil
  have hkeeps := Server.answer_keeps hopened (fun hedits => hedits.elim)
  have hkeeps' := hcarried.keeps fun e he => Exchange.quiet_of_works (hdelivers.works e he)
  obtain ⟨contents, sent, hcontents, hopen, hsent⟩ :=
    hdelivers.gathers hcarried (Server.opened_of_answer hissued hopened) (.nil id)
  rw [List.nil_append, List.nil_append] at hsent
  refine ⟨payloads, contents, hfit, ?_, ?_⟩
  · rw [← hcontents, show u.yields = s.yields from funext hkeeps.yields_eq]
  · obtain ⟨content, hjoined, hobjects⟩ := Server.completed_of_answer hcompleted hopen
    rw [OpenUpload.join?_of_held _ (hsent.held (bucket, full))] at hjoined
    obtain ⟨-, hcontent⟩ := Option.ite_none_right_eq_some.1 hjoined
    cases hcontent
    rw [hobjects, hkeeps'.objects, hkeeps.objects]

/-! ## Streams -/

namespace Store

variable {s t u : Store} {part : Nat}

/-- What is said before a failure makes no object. -/
theorem works_of_stops {heads : List Request}
    (h : ∃ es, s.Talks es t ∧ Stops bucket full id heads part es) :
    ∃ es, s.Talks es t ∧ ∀ e ∈ es, e.request.action.Works := by
  obtain ⟨es, htalk, hstops⟩ := h
  exact ⟨es, htalk, hstops.works⟩

open Reader (Loaded) in
/-- A stream whose end is final is sent to its end, if nothing fails. -/
theorem ends_uploadParts_slices (part : Nat) : ∀ {x : Reader.Refilled} {flow : Bytes}
    {ending : Reader.Stop} (parts : List (Nat × String)) (size : Nat) (s : Store),
    Loaded flow ending x → Roomy x.buffer →
    Ends (uploadParts bucket full id part x parts size) s
      (fun sent t => ∃ es bodies tagged, s.Talks es t ∧
        Delivers bucket full id part es (bodies.map .body) tagged ∧ sent.1 = parts ++ tagged ∧
        Slices bodies flow ∧ ending = .done)
      (fun _ _ => True) := by
  -- the induction is on the numbers that are left, of which each part takes one
  induction hleft : mostParts + 1 - part using Nat.strongRecOn generalizing part with
  | _ left ih =>
    intro x flow ending parts size s hx hroomy
    have hleast : 0 < leastPartSize := by decide
    rw [uploadParts]
    split
    · rename_i hcount
      obtain ⟨hflow, hdone⟩ := hx.eq_chunk (hcount ▸ Nat.lt_of_lt_of_le hleast hroomy.1)
      have hchunk : x.chunk = [] := List.length_eq_zero_iff.1 (hx.count ▸ hcount)
      refine Ends.pure ⟨[], [], [], .nil s, .nil part, (List.append_nil _).symm, ?_, hdone⟩
      rw [hflow, hchunk]
      exact .nil
    · rename_i hcount
      split
      · exact Ends.fail trivial
      · rename_i hnumber
        have hmost := checkPartNumber_eq_ok_iff.1 hnumber
        refine (ends_uploadPart x.chunk).andThen (fun _ _ _ => trivial) ?_
        intro tag t htalk
        refine (ends_filled _ t).andThen (fun _ _ _ => trivial) ?_
        rintro _ _ ⟨rfl, rfl, hdone⟩
        have hnext := hx.final.refill hdone
        rw [hx.rest] at hnext
        refine (ih _ (by omega) (part + 1) rfl _ _ _ hnext (hroomy.grow _)).mono ?_ fun _ _ h => h
        rintro sent u ⟨es, bodies, tagged, htalk', hdelivers, hsent, hslices, hending⟩
        refine ⟨_, x.chunk :: bodies, (part, tag) :: tagged, htalk.append htalk',
          @Delivers.part _ _ _ (.body x.chunk) tag _ _ _ _ (Int.ofNat_le.1 hmost) hdelivers,
          by simp [hsent], ?_, hending⟩
        rw [← hx.joined]
        refine hslices.cons (hx.chunk_ne_nil hcount) fun hmore => ?_
        rw [hx.full hmore]
        exact hroomy

/-- The end of an open upload: it is completed with all parts, or dropped unless it is abandoned. -/
theorem ends_finish {α β : Type} {carry : Call Store α} {finish : α → Call Store β}
    {fit : List Payload → Prop} (listed : α → List (Nat × String))
    (hreaches : s.Reaches bucket full)
    (hcarry : Ends carry s
      (fun a t => ∃ es payloads, s.Talks es t ∧
        Delivers bucket full id 1 es payloads (listed a) ∧ fit payloads)
      (fun _ t => ∃ es, s.Talks es t ∧ ∀ e ∈ es, e.request.action.Works))
    (hfinish : ∀ a t, Ends (finish a) t
      (fun _ u => t.Talks [⟨⟨bucket, full, .completeUpload id (listed a)⟩, .done⟩] u)
      (fun halt u => halt ≠ .abandoned ∧
        t.Refused ⟨bucket, full, .completeUpload id (listed a)⟩ u)) :
    Ends (Call.onFailure (abortUpload bucket full id) (carry >>= finish)) s
      (fun _ t => ∃ es payloads parts,
        s.Talks (es ++ [⟨⟨bucket, full, .completeUpload id parts⟩, .done⟩]) t ∧
        Delivers bucket full id 1 es payloads parts ∧ fit payloads)
      (fun _ t => ∃ es, s.Talks es t ∧ Broken bucket full id fit es) := by
  have hcarry : Ends carry s
      (fun a t => ∃ es, s.Talks es t ∧
        ∃ payloads, Delivers bucket full id 1 es payloads (listed a) ∧ fit payloads)
      (fun halt t => (∃ es, s.Talks es t ∧ ∀ e ∈ es, e.request.action.Works) ∧
        (halt = .abandoned → True)) := by
    refine hcarry.mono ?_ fun _ _ h => ⟨h, fun _ => trivial⟩
    rintro a t ⟨es, payloads, htalk, h⟩
    exact ⟨es, htalk, payloads, h⟩
  refine (ends_settle listed hreaches hcarry hfinish).mono ?_ ?_
  · rintro _ t ⟨a, es, ⟨payloads, h⟩, htalk⟩
    exact ⟨es, payloads, listed a, htalk, h⟩
  · rintro _ t (⟨-, es, answer, htalk, hends⟩ | ⟨-, -, es, htalk, hworks⟩)
    · have hlast : ∀ e ∈ [Exchange.mk ⟨bucket, full, .abortUpload id⟩ answer],
          e.request.action = .abortUpload id := List.forall_mem_singleton.2 rfl
      refine ⟨_, htalk, ?_⟩
      rcases hends with hworks | ⟨a, sent, response, ⟨payloads, hdelivers, hfit⟩, hfails, rfl⟩
      · exact .unfinished hworks hlast
      · rw [List.append_assoc]
        exact .refused hdelivers hfit hfails hlast
    · exact ⟨es, htalk, List.append_nil es ▸ .unfinished hworks (List.forall_mem_nil _)⟩

/-- The parts of a stream, from the first one on, and the end of their upload. -/
theorem ends_sendParts_slices {x : Reader.Refilled} {flow : Bytes} {ending : Reader.Stop}
    {fit : List Payload → Prop} (hreaches : s.Reaches bucket full)
    (hloaded : Reader.Loaded flow ending x) (hroomy : Roomy x.buffer)
    (hfit : ending = .done → ∀ bodies, Slices bodies flow → fit (bodies.map .body)) :
    Ends (Call.onFailure (abortUpload bucket full id) do
        let (parts, size) ← uploadParts bucket full id 1 x [] 0
        completeUpload bucket full id parts
        pure size) s
      (fun _ t => ∃ es payloads parts,
        s.Talks (es ++ [⟨⟨bucket, full, .completeUpload id parts⟩, .done⟩]) t ∧
        Delivers bucket full id 1 es payloads parts ∧ fit payloads)
      (fun _ t => ∃ es, s.Talks es t ∧ Broken bucket full id fit es) := by
  have hcarry : Ends (uploadParts bucket full id 1 x [] 0) s
      (fun sent t => ∃ es payloads, s.Talks es t ∧
        Delivers bucket full id 1 es payloads sent.1 ∧ fit payloads)
      (fun _ t => ∃ es, s.Talks es t ∧ ∀ e ∈ es, e.request.action.Works) := by
    refine ((ends_uploadParts_slices 1 [] 0 s hloaded hroomy).and
      (ends_uploadParts 1 x [] 0 s)).mono ?_ fun _ _ h => works_of_stops h.2.1
    rintro sent t ⟨⟨es, bodies, tagged, htalk, hdelivers, hsent, hslices, hending⟩, -⟩
    rw [List.nil_append] at hsent
    exact ⟨es, _, htalk, hsent ▸ hdelivers, hfit hending bodies hslices⟩
  refine ends_finish Prod.fst hreaches hcarry ?_
  rintro ⟨parts, size⟩ t
  exact (ends_completeUpload parts).bind fun _ _ h => Ends.pure h

/-- The parts, of which there is one at least, are the whole of a stream, which ends without a
failure. -/
def Streams (contents : Reader) (payloads : List Payload) : Prop :=
  contents.ending = .done ∧
    ∃ bodies, payloads = bodies.map .body ∧ bodies ≠ [] ∧ Slices bodies contents.flow

theorem Refused.fruitless {request : Request} {fit : List Payload → Prop}
    (h : s.Refused request t)
    (hone : ∀ response : Response, response.Fails →
      Fruitless bucket full fit [⟨request, response⟩]) :
    ∃ es, s.Talks es t ∧ Fruitless bucket full fit es := by
  obtain ⟨es, htalk, rfl | ⟨response, hfails, rfl⟩⟩ := h.talks
  · exact ⟨_, htalk, .silent⟩
  · exact ⟨_, htalk, hone response hfails⟩

/-- What is said to write a stream whose end is final. -/
theorem ends_stream (s : Store) (bucket key : String) {contents : Reader}
    (hfinal : contents.Final) :
    Ends (createFromReader bucket key contents) s
      (fun _ t => ∃ es, s.Talks es t ∧
        (contents.ending = .done ∧
            es = [⟨⟨bucket, s.client.fullKey key, .put contents.flow⟩, .done⟩] ∨
          Uploaded bucket (s.client.fullKey key) (Streams contents) es))
      (fun _ t => ∃ es, s.Talks es t ∧
        Fruitless bucket (s.client.fullKey key) (Streams contents) es) := by
  refine (ends_filled _ s).andThen ?_ ?_
  · rintro _ _ ⟨rfl, -⟩
    exact ⟨[], .nil _, .silent⟩
  · rintro _ s ⟨rfl, rfl, hdone⟩
    have hloaded := hfinal.refill hdone
    have hroomy : Roomy (Reader.refill ⟨streamPartSize 1, []⟩ contents).buffer :=
      roomy_streamPartSize 1 _
    generalize Reader.refill ⟨streamPartSize 1, []⟩ contents = x at hloaded hroomy
    split
    · rename_i hshort
      obtain ⟨hflow, hending⟩ := hloaded.eq_chunk (Nat.lt_of_lt_of_le hshort hroomy.1)
      rw [← hflow]
      refine (ends_put _).mono ?_ fun _ t hbad => hbad.2.fruitless fun _ => .unwritten
      intro _ t htalk
      exact ⟨_, htalk, .inl ⟨hending, rfl⟩⟩
    · rename_i hlong
      have hsome : contents.flow ≠ [] := by
        intro hnil
        have hchunk : x.chunk = [] := (List.append_eq_nil_iff.1 (hloaded.joined.trans hnil)).1
        rw [hloaded.count, hchunk] at hlong
        exact hlong (by decide)
      refine ends_fullKey_bind (ends_startUpload.andThen
        (fun _ t hbad => hbad.2.fruitless fun _ => .unopened) ?_)
      rintro id t ⟨hreaches, htalk⟩
      have hfit : contents.ending = .done → ∀ bodies, Slices bodies contents.flow →
          Streams contents (bodies.map .body) := by
        intro hending bodies hslices
        refine ⟨hending, bodies, rfl, ?_, hslices⟩
        rintro rfl
        exact hsome hslices.joined.symm
      refine (ends_sendParts_slices (hreaches.of_talks htalk) hloaded hroomy hfit).andThen ?_ ?_
      · rintro _ u ⟨es, htalk', hbroken⟩
        exact ⟨_, htalk.append htalk', .broken hbroken⟩
      · rintro size u ⟨es, payloads, parts, htalk', hdelivers, hfit⟩
        exact Ends.pure ⟨_, htalk.append htalk',
          .inr ⟨id, es, payloads, parts, hdelivers, hfit, rfl⟩⟩

/-! ## Joining objects -/

/-- `sources` as they are copied, one after another, from a service that tells their lengths: each
one whole or in ranges. A length that the service leaves out counts as nothing. -/
inductive Copies (s : Server) (c : Client) (bucket : String) : List String → List Payload → Prop
  | nil : Copies s c bucket [] []
  | cons {source : String} {length size : Nat} {sources : List String}
      {payloads : List Payload} : s.length? (bucket, c.fullKey source) = some length →
      size = length ∨ size = 0 ∧ s.faults ≠ [] → Copies s c bucket sources payloads →
      Copies s c bucket (source :: sources)
        ((rangesOf size).map (.copy (c.copySource bucket source)) ++ payloads)

theorem Copies.of_keeps {s t : Server} {c : Client} {sources : List String}
    (h : Copies t c bucket sources payloads) (hkeeps : s.Keeps t) :
    Copies s c bucket sources payloads := by
  induction h with
  | nil => exact .nil
  | cons hlength hsize _ ih =>
    rw [hkeeps.length?_eq] at hlength
    rw [hkeeps.faults] at hsize
    exact .cons hlength hsize ih

/-- The ranges of one source are copied to its end, if nothing fails. -/
theorem ends_copyRanges_delivers {c : Client} (source : String) :
    ∀ (ranges : List (Option CopyRange)) (part : Nat) (s : Store), s.client = c →
    Ends (copyRanges bucket full id source ranges part) s
      (fun parts t => ∃ es, s.Talks es t ∧ Delivers bucket full id part es
        (ranges.map (.copy (c.copySource bucket source))) parts)
      (fun _ _ => True)
  | [], part, s, _ => Ends.pure ⟨[], .nil s, .nil part⟩
  | range :: ranges, part, s, hclient => by
    subst hclient
    refine Ends.ofExcept_bind (fun _ hnumber => ?_) fun _ _ => trivial
    have hmost := checkPartNumber_eq_ok_iff.1 hnumber
    refine (ends_copyPart range).andThen (fun _ _ _ => trivial) ?_
    intro tag t htalk
    refine (ends_copyRanges_delivers source ranges (part + 1) t htalk.client).andThen
      (fun _ _ h => h) ?_
    rintro parts u ⟨es, htalk', hdelivers⟩
    exact Ends.pure ⟨_, htalk.append htalk',
      @Delivers.part _ _ _ (.copy _ range) tag _ _ _ _ (Int.ofNat_le.1 hmost) hdelivers⟩

/-- The sources are copied to the last one, if nothing fails. -/
theorem ends_copyParts_copies {c : Client} : ∀ (sources : List String) (part : Nat) (s : Store),
    s.client = c →
    Ends (copyParts bucket full id sources part) s
      (fun parts t => ∃ es payloads, s.Talks es t ∧
        Delivers bucket full id part es payloads parts ∧ Copies s.server c bucket sources payloads)
      (fun _ _ => True)
  | [], part, s, _ => Ends.pure ⟨[], [], .nil s, .nil part, .nil⟩
  | source :: sources, part, s, hclient => by
    subst hclient
    refine (ends_objectSize bucket source s).andThen (fun _ _ _ => trivial) ?_
    rintro size t ⟨given, hgiven, htalk⟩
    refine (ends_copyRanges_delivers source _ part t htalk.client).andThen (fun _ _ h => h) ?_
    rintro parts u ⟨es, htalk', hdelivers⟩
    have hlength : parts.length = (rangesOf size).length := by
      rw [hdelivers.length_eq, List.length_map]
    have htold := htalk.append htalk'
    rw [← hlength]
    refine (ends_copyParts_copies sources _ u htold.client).andThen (fun _ _ h => h) ?_
    rintro parts' v ⟨fs, payloads, htalk'', hdelivers', hcopies⟩
    refine Ends.pure ⟨_, _, htold.append htalk'', .head (hdelivers.append hdelivers'), ?_⟩
    have hworks : ∀ e ∈ Exchange.mk ⟨bucket, s.client.fullKey source, .head⟩ (.length given) :: es,
        e.request.action.Works := List.forall_mem_cons.2 ⟨trivial, hdelivers.works⟩
    have hkeeps := htold.talk.keeps fun e he => Exchange.quiet_of_works (hworks e he)
    obtain ⟨u', hanswer, -⟩ := Server.Talk.cons_iff.1 htalk.talk
    obtain ⟨length, hlength, rfl | ⟨rfl, hfaults⟩⟩ := Server.length_of_answer hanswer
    · exact .cons hlength (.inl hgiven) (hcopies.of_keeps hkeeps)
    · exact .cons hlength (.inr ⟨hgiven, hfaults⟩) (hcopies.of_keeps hkeeps)

/-- What is said to join objects. If that fails when the new object is there already, its length was
not told. -/
theorem ends_joining (s : Store) (bucket : String) (sources : List String) (destination : String) :
    Ends (compose bucket sources destination) s
      (fun _ t => ∃ es given,
        s.Talks (es ++ [⟨headOf s.client bucket destination, .length given⟩]) t ∧
        Uploaded bucket (s.client.fullKey destination)
          (Copies s.server s.client bucket sources) es)
      (fun _ t => (∃ es, s.Talks es t ∧ Fruitless bucket (s.client.fullKey destination)
          (Copies s.server s.client bucket sources) es) ∨
        ∃ es response, s.Talks (es ++ [⟨headOf s.client bucket destination, response⟩]) t ∧
          response.Fails ∧ Uploaded bucket (s.client.fullKey destination)
            (Copies s.server s.client bucket sources) es) := by
  refine Ends.ofExcept_bind (fun _ _ => ?_) fun _ _ => .inl ⟨[], .nil s, .silent⟩
  refine ends_fullKey_bind (ends_startUpload.andThen
    (fun _ t hbad => .inl (hbad.2.fruitless fun _ => .unopened)) ?_)
  rintro id t ⟨hreaches, htalk⟩
  have hkeeps : s.server.Keeps t.server :=
    htalk.talk.keeps (List.forall_mem_singleton.2 fun hedits => hedits.elim)
  have hcarry : Ends (copyParts bucket (s.client.fullKey destination) id sources 1) t
      (fun parts u => ∃ es payloads, t.Talks es u ∧
        Delivers bucket (s.client.fullKey destination) id 1 es payloads parts ∧
        Copies s.server s.client bucket sources payloads)
      (fun _ u => ∃ es, t.Talks es u ∧ ∀ e ∈ es, e.request.action.Works) := by
    refine ((ends_copyParts_copies sources 1 t htalk.client).and
      (ends_copyParts s.client sources 1 t htalk.client)).mono ?_ fun _ _ h => works_of_stops h.2.2
    rintro parts u ⟨⟨es, payloads, htalk', hdelivers, hcopies⟩, -⟩
    exact ⟨es, payloads, htalk', hdelivers, hcopies.of_keeps hkeeps⟩
  refine (ends_finish (fun parts => parts) (hreaches.of_talks htalk) hcarry fun parts _ =>
    ends_completeUpload parts).andThen ?_ ?_
  · rintro _ u ⟨es, htalk', hbroken⟩
    exact .inl ⟨_, htalk.append htalk', .broken hbroken⟩
  · rintro _ u ⟨es, payloads, parts, htalk', hdelivers, hcopies⟩
    have htold := htalk.append htalk'
    have huploaded : Uploaded bucket (s.client.fullKey destination)
        (Copies s.server s.client bucket sources) _ :=
      ⟨id, es, payloads, parts, hdelivers, hcopies, rfl⟩
    have hhead := ends_objectSize bucket destination u
    rw [htold.client] at hhead
    refine hhead.andThen ?_ ?_
    · rintro _ v ⟨-, ⟨hunreached, -⟩ | ⟨response, hfails, htalk''⟩⟩
      · exact absurd ⟨hreaches.bucket, hreaches.key, htold.reachable.trans hreaches.reachable⟩
          hunreached
      · exact .inr ⟨_, response, htold.append htalk'', hfails, huploaded⟩
    · rintro size v ⟨given, -, htalk''⟩
      exact Ends.pure ⟨_, given, htold.append htalk'', huploaded⟩

end Store

end ChunkedUpload.S3
