import ChunkedUpload.Proofs.Reader.Responsive
import ChunkedUpload.Proofs.S3.Exchanges

/-!
# Multipart uploads are settled

Whatever the service answers, a call that opens a multipart upload sends its parts in order and then
completes the upload or drops it (`Settled`). `Carries` and `Stops` say what goes on between the
opening and the end, if all goes well and if it does not; each loop that sends parts has one lemma
(`ends_uploadParts`, `ends_copyRanges`, `ends_copyParts`).
-/

namespace ChunkedUpload.S3

open Call (Ends)

/-! ## What a call says -/

variable {bucket full id : String}

/-- The parts of an upload numbered from `next` on, each answered with its tag, and the requests
`heads` in between, answered too. `parts` are the numbers with the tags. -/
inductive Carries (bucket full id : String) :
    List Request → Nat → List Exchange → List (Nat × String) → Prop
  | nil (next : Nat) : Carries bucket full id [] next [] []
  | part {action : Action} {tag : String} {heads : List Request} {next : Nat}
      {es : List Exchange} {parts : List (Nat × String)} : action.part? = some (id, next) →
      Carries bucket full id heads (next + 1) es parts →
      Carries bucket full id heads next (⟨⟨bucket, full, action⟩, .part (some tag)⟩ :: es)
        ((next, tag) :: parts)
  | head {key : String} {size : Option Nat} {heads : List Request} {next : Nat}
      {es : List Exchange} {parts : List (Nat × String)} :
      Carries bucket full id heads next es parts →
      Carries bucket full id (⟨bucket, key, .head⟩ :: heads) next
        (⟨⟨bucket, key, .head⟩, .length size⟩ :: es) parts

/-- The same up to the first failure: of a request, which is then the last one, or of something
else, before all was sent. -/
inductive Stops (bucket full id : String) : List Request → Nat → List Exchange → Prop
  | early (heads : List Request) (next : Nat) : Stops bucket full id heads next []
  | part_fails {action : Action} {response : Response} {heads : List Request} {next : Nat} :
      action.part? = some (id, next) → response.Fails →
      Stops bucket full id heads next [⟨⟨bucket, full, action⟩, response⟩]
  | head_fails {key : String} {response : Response} {heads : List Request} {next : Nat} :
      response.Fails →
      Stops bucket full id (⟨bucket, key, .head⟩ :: heads) next
        [⟨⟨bucket, key, .head⟩, response⟩]
  | part {action : Action} {tag : String} {heads : List Request} {next : Nat}
      {es : List Exchange} : action.part? = some (id, next) →
      Stops bucket full id heads (next + 1) es →
      Stops bucket full id heads next (⟨⟨bucket, full, action⟩, .part (some tag)⟩ :: es)
  | head {key : String} {size : Option Nat} {heads : List Request} {next : Nat}
      {es : List Exchange} : Stops bucket full id heads next es →
      Stops bucket full id (⟨bucket, key, .head⟩ :: heads) next
        (⟨⟨bucket, key, .head⟩, .length size⟩ :: es)

/-- All parts are sent, and the upload is completed with just these. -/
def Completed (bucket full id : String) (heads : List Request) (es : List Exchange) : Prop :=
  ∃ carried parts, Carries bucket full id heads 1 carried parts ∧
    es = carried ++ [⟨⟨bucket, full, .completeUpload id parts⟩, .done⟩]

/-- The upload is not completed: not all parts were sent, or completing it failed. -/
inductive Breaks (bucket full id : String) (heads : List Request) : List Exchange → Prop
  | unfinished {carried : List Exchange} : Stops bucket full id heads 1 carried →
      Breaks bucket full id heads carried
  | refused {carried : List Exchange} {parts : List (Nat × String)} {response : Response} :
      Carries bucket full id heads 1 carried parts → response.Fails →
      Breaks bucket full id heads
        (carried ++ [⟨⟨bucket, full, .completeUpload id parts⟩, response⟩])

/-- An upload that is not completed is dropped. -/
def Dropped (bucket full id : String) (heads : List Request) (es : List Exchange) : Prop :=
  ∃ broken answer, Breaks bucket full id heads broken ∧
    es = broken ++ [⟨⟨bucket, full, .abortUpload id⟩, answer⟩]

/-- One multipart upload from the request to open it on. `after` is what is asked once it is
completed. -/
inductive Settled (bucket full : String) (heads after : List Request) : List Exchange → Prop
  | unopened {response : Response} : response.Fails →
      Settled bucket full heads after [⟨⟨bucket, full, .createUpload⟩, response⟩]
  | completed {id : String} {es answers : List Exchange} : Completed bucket full id heads es →
      answers.map (·.request) = after →
      Settled bucket full heads after
        (⟨⟨bucket, full, .createUpload⟩, .upload (some id)⟩ :: (es ++ answers))
  | dropped {id : String} {es : List Exchange} : Dropped bucket full id heads es →
      Settled bucket full heads after
        (⟨⟨bucket, full, .createUpload⟩, .upload (some id)⟩ :: es)

/-- The request for the length of an object. -/
def headOf (c : Client) (bucket key : String) : Request := ⟨bucket, c.fullKey key, .head⟩

/-- What is said to write a stream: nothing, one request with all of it, or one multipart upload. -/
def StreamTalk (c : Client) (bucket key : String) (es : List Exchange) : Prop :=
  es = [] ∨ (∃ body answer, es = [⟨⟨bucket, c.fullKey key, .put body⟩, answer⟩]) ∨
    Settled bucket (c.fullKey key) [] [] es

/-- What is said to join objects: nothing, or one multipart upload. The length of each source is
asked for before it is copied, and that of the new object in the end. -/
def ComposeTalk (c : Client) (bucket : String) (sources : List String) (destination : String)
    (es : List Exchange) : Prop :=
  es = [] ∨ Settled bucket (c.fullKey destination) (sources.map (headOf c bucket))
    [headOf c bucket destination] es

/-- An upload after which nothing is asked. -/
theorem Settled.of_completed {heads : List Request} {es : List Exchange}
    (h : Completed bucket full id heads es) :
    Settled bucket full heads [] (⟨⟨bucket, full, .createUpload⟩, .upload (some id)⟩ :: es) := by
  have hsettled : Settled bucket full heads [] (_ :: (es ++ [])) := .completed h rfl
  rwa [List.append_nil] at hsettled

namespace Carries

variable {heads heads' : List Request} {next : Nat} {es fs : List Exchange}
  {parts parts' : List (Nat × String)}

theorem append (h : Carries bucket full id heads next es parts)
    (h' : Carries bucket full id heads' (next + parts.length) fs parts') :
    Carries bucket full id (heads ++ heads') next (es ++ fs) (parts ++ parts') := by
  induction h with
  | nil => exact h'
  | part hpart _ ih =>
    refine .part hpart (ih ?_)
    simpa [Nat.add_assoc, Nat.add_comm 1] using h'
  | head _ ih => exact .head (ih h')

theorem stops (h : Carries bucket full id heads next es parts)
    (h' : Stops bucket full id heads' (next + parts.length) fs) :
    Stops bucket full id (heads ++ heads') next (es ++ fs) := by
  induction h with
  | nil => exact h'
  | part hpart _ ih =>
    refine .part hpart (ih ?_)
    simpa [Nat.add_assoc, Nat.add_comm 1] using h'
  | head _ ih => exact .head (ih h')

/-- The parts are numbered without gaps or repeats. -/
theorem numbers (h : Carries bucket full id heads next es parts) :
    parts.map (·.1) = List.range' next parts.length := by
  induction h with
  | nil => rfl
  | part _ _ ih => simp [List.range'_succ, ih]
  | head _ ih => exact ih

/-- The tags are those that the service gave for the numbers. -/
theorem tagged (h : Carries bucket full id heads next es parts) :
    es.filterMap (·.tagged?) = parts := by
  induction h with
  | nil => rfl
  | @part action tag _ next es parts hpart _ ih =>
    have htag : Exchange.tagged? ⟨⟨bucket, full, action⟩, .part (some tag)⟩ = some (next, tag) := by
      simp [Exchange.tagged?, hpart]
    rw [List.filterMap_cons_some htag, ih]
  | head _ ih => simpa [Exchange.tagged?, Action.part?] using ih

end Carries

namespace Store

variable {heads : List Request} {part : Nat} {s t u : Store} {request : Request}

/-! ## Sending the parts -/

/-- A refused request is the last one, if it was made at all. -/
theorem Refused.talks (h : s.Refused request t) : ∃ es, s.Talks es t ∧
    (es = [] ∨ ∃ response : Response, response.Fails ∧ es = [⟨request, response⟩]) := by
  rcases h with ⟨-, rfl⟩ | ⟨response, hfails, htalk⟩
  · exact ⟨[], .nil t, .inl rfl⟩
  · exact ⟨_, htalk, .inr ⟨response, hfails, rfl⟩⟩

theorem Refused.stops_part {action : Action} (h : s.Refused ⟨bucket, full, action⟩ t)
    (hpart : action.part? = some (id, part)) :
    ∃ es, s.Talks es t ∧ Stops bucket full id heads part es := by
  obtain ⟨es, htalk, rfl | ⟨response, hfails, rfl⟩⟩ := h.talks
  · exact ⟨_, htalk, .early heads part⟩
  · exact ⟨_, htalk, .part_fails hpart hfails⟩

theorem Refused.stops_head {key : String} (h : s.Refused ⟨bucket, key, .head⟩ t) :
    ∃ es, s.Talks es t ∧ Stops bucket full id (⟨bucket, key, .head⟩ :: heads) part es := by
  obtain ⟨es, htalk, rfl | ⟨response, hfails, rfl⟩⟩ := h.talks
  · exact ⟨_, htalk, .early _ part⟩
  · exact ⟨_, htalk, .head_fails hfails⟩

theorem ends_filled (x : Reader.Refilled) (s : Store) :
    Ends (filled x) s (fun y t => y = x ∧ t = s ∧ x.stop = .done)
      (fun halt t => t = s ∧ (halt = .abandoned → x.stop = .stalled)) := by
  unfold Ends filled
  cases hstop : x.stop with
  | done => exact ⟨rfl, rfl, rfl⟩
  | failed error => exact ⟨rfl, nofun⟩
  | stalled => exact ⟨rfl, fun _ => rfl⟩

/-- The stream is sent part by part, the first of which was read already. -/
theorem ends_uploadParts (part : Nat) : ∀ (x : Reader.Refilled) (parts : List (Nat × String))
    (size : Nat) (s : Store),
    Ends (uploadParts bucket full id part x parts size) s
      (fun sent t => ∃ es tagged, s.Talks es t ∧ Carries bucket full id [] part es tagged ∧
        sent.1 = parts ++ tagged)
      (fun halt t => (∃ es, s.Talks es t ∧ Stops bucket full id [] part es) ∧
        (halt = .abandoned → ¬ x.rest.Responsive)) := by
  -- the induction is on the numbers that are left, of which each part takes one
  induction hleft : mostParts + 1 - part using Nat.strongRecOn generalizing part with
  | _ left ih =>
    intro x parts size s
    rw [uploadParts]
    split
    · exact Ends.pure ⟨[], [], .nil s, .nil part, by simp⟩
    · split
      · exact Ends.fail ⟨⟨[], .nil s, .early _ part⟩, by simp⟩
      · rename_i hnumber
        have hmost := checkPartNumber_eq_ok_iff.1 hnumber
        refine (ends_uploadPart x.chunk).andThen ?_ ?_
        · rintro halt t ⟨hhalt, hrefused⟩
          exact ⟨hrefused.stops_part rfl, fun h => absurd h hhalt⟩
        · intro tag t htalk
          refine (ends_filled _ t).andThen ?_ ?_
          · rintro halt _ ⟨rfl, hstalled⟩
            refine ⟨⟨_, htalk, .part rfl (.early _ _)⟩, fun hhalt hresponsive => ?_⟩
            exact (hresponsive.refill _).1 (hstalled hhalt)
          · rintro _ _ ⟨rfl, rfl, -⟩
            refine (ih _ (by omega) (part + 1) rfl _ _ _ _).mono ?_ ?_
            · rintro sent u ⟨es, tagged, htalk', hcarries, hsent⟩
              exact ⟨_, _, htalk.append htalk', .part rfl hcarries, by simp [hsent]⟩
            · rintro halt u ⟨⟨es, htalk', hstops⟩, hhalt⟩
              refine ⟨⟨_, htalk.append htalk', .part rfl hstops⟩, fun h hresponsive => ?_⟩
              exact hhalt h (hresponsive.refill _).2

/-- The ranges of one source are copied one after another. -/
theorem ends_copyRanges (source : String) (heads : List Request) :
    ∀ (ranges : List (Option CopyRange)) (part : Nat) (s : Store),
    Ends (copyRanges bucket full id source ranges part) s
      (fun parts t => ∃ es, s.Talks es t ∧ Carries bucket full id [] part es parts ∧
        parts.length = ranges.length)
      (fun halt t => halt ≠ .abandoned ∧ ∃ es, s.Talks es t ∧ Stops bucket full id heads part es)
  | [], part, s => Ends.pure ⟨[], .nil s, .nil part, rfl⟩
  | range :: ranges, part, s => by
    refine Ends.ofExcept_bind (fun _ _ => ?_) fun _ _ => ⟨nofun, [], .nil s, .early heads part⟩
    refine (ends_copyPart range).andThen ?_ ?_
    · rintro halt t ⟨hhalt, hrefused⟩
      exact ⟨hhalt, hrefused.stops_part rfl⟩
    · intro tag t htalk
      refine (ends_copyRanges source heads ranges (part + 1) t).andThen ?_ ?_
      · rintro halt u ⟨hhalt, es, htalk', hstops⟩
        exact ⟨hhalt, _, htalk.append htalk', .part rfl hstops⟩
      · rintro parts u ⟨es, htalk', hcarries, hlength⟩
        exact Ends.pure ⟨_, htalk.append htalk', .part rfl hcarries, by simp [hlength]⟩

/-- The sources are copied one after another, each after its length was asked for. -/
theorem ends_copyParts (c : Client) : ∀ (sources : List String) (part : Nat) (s : Store),
    s.client = c →
    Ends (copyParts bucket full id sources part) s
      (fun parts t => ∃ es, s.Talks es t ∧
        Carries bucket full id (sources.map (headOf c bucket)) part es parts)
      (fun halt t => halt ≠ .abandoned ∧ ∃ es, s.Talks es t ∧
        Stops bucket full id (sources.map (headOf c bucket)) part es)
  | [], part, s, _ => Ends.pure ⟨[], .nil s, .nil part⟩
  | source :: sources, part, s, hclient => by
    subst hclient
    refine (ends_objectSize bucket source s).andThen ?_ ?_
    · rintro halt t ⟨hhalt, hrefused⟩
      exact ⟨hhalt, hrefused.stops_head⟩
    · rintro size t ⟨_, -, htalk⟩
      refine (ends_copyRanges source (sources.map (headOf s.client bucket)) _ part
        t).andThen ?_ ?_
      · rintro halt u ⟨hhalt, es, htalk', hstops⟩
        exact ⟨hhalt, _, htalk.append htalk', .head hstops⟩
      · rintro parts u ⟨es, htalk', hcarries, hlength⟩
        have hclient : u.client = s.client := htalk'.client.trans htalk.client
        rw [← hlength]
        refine (ends_copyParts s.client sources _ u hclient).andThen ?_ ?_
        · rintro halt v ⟨hhalt, fs, htalk'', hstops⟩
          exact ⟨hhalt, _, htalk.append (htalk'.append htalk''), .head (hcarries.stops hstops)⟩
        · rintro parts' v ⟨fs, htalk'', hcarries'⟩
          exact Ends.pure ⟨_, htalk.append (htalk'.append htalk''),
            .head (hcarries.append hcarries')⟩

/-! ## Whole uploads -/

/-- How an open upload ends: `carry` sends the parts, which `finish` lists, and if either fails the
upload is dropped. Only a call that is abandoned leaves it open, before all parts were sent, and
only if `stalls` holds. -/
theorem ends_settle {α β : Type} {carry : Call Store α} {finish : α → Call Store β}
    {carried : α → List Exchange → Prop} {stopped : List Exchange → Prop} {stalls : Prop}
    (listed : α → List (Nat × String)) (hreaches : s.Reaches bucket full)
    (hcarry : Ends carry s (fun a t => ∃ es, s.Talks es t ∧ carried a es)
      (fun halt t => (∃ es, s.Talks es t ∧ stopped es) ∧ (halt = .abandoned → stalls)))
    (hfinish : ∀ a t, Ends (finish a) t
      (fun _ u => t.Talks [⟨⟨bucket, full, .completeUpload id (listed a)⟩, .done⟩] u)
      (fun halt u => halt ≠ .abandoned ∧
        t.Refused ⟨bucket, full, .completeUpload id (listed a)⟩ u)) :
    Ends (Call.onFailure (abortUpload bucket full id) (carry >>= finish)) s
      (fun _ t => ∃ a es, carried a es ∧
        s.Talks (es ++ [⟨⟨bucket, full, .completeUpload id (listed a)⟩, .done⟩]) t)
      (fun halt t =>
        (halt ≠ .abandoned ∧ ∃ es answer,
          s.Talks (es ++ [⟨⟨bucket, full, .abortUpload id⟩, answer⟩]) t ∧
          (stopped es ∨ ∃ a sent response, carried a sent ∧ Response.Fails response ∧
            es = sent ++ [⟨⟨bucket, full, .completeUpload id (listed a)⟩, response⟩])) ∨
        (halt = .abandoned ∧ stalls ∧ ∃ es, s.Talks es t ∧ stopped es)) := by
  -- what is known when the call fails, before the upload is dropped
  have hcall : Ends (carry >>= finish) s
      (fun _ t => ∃ a es, carried a es ∧
        s.Talks (es ++ [⟨⟨bucket, full, .completeUpload id (listed a)⟩, .done⟩]) t)
      (fun halt t => ∃ es, s.Talks es t ∧
        ((halt = .abandoned → stalls) ∧ stopped es ∨ halt ≠ .abandoned ∧
          ∃ a sent response, carried a sent ∧ Response.Fails response ∧
            es = sent ++ [⟨⟨bucket, full, .completeUpload id (listed a)⟩, response⟩])) := by
    refine hcarry.andThen ?_ ?_
    · rintro halt t ⟨⟨es, htalk, hstopped⟩, hhalt⟩
      exact ⟨es, htalk, .inl ⟨hhalt, hstopped⟩⟩
    · rintro a t ⟨es, htalk, hcarried⟩
      refine (hfinish a t).mono ?_ ?_
      · intro _ u htalk'
        exact ⟨a, es, hcarried, htalk.append htalk'⟩
      · rintro halt u ⟨hhalt, ⟨hunreached, -⟩ | ⟨response, hfails, htalk'⟩⟩
        · exact absurd (hreaches.of_talks htalk) hunreached
        · exact ⟨_, htalk.append htalk', .inr ⟨hhalt, a, es, response, hcarried, hfails, rfl⟩⟩
  refine hcall.onFailure ?_ ?_
  · rintro error t ⟨es, htalk, hends⟩
    obtain ⟨answer, htalk'⟩ := abortUpload_talks id (hreaches.of_talks htalk)
    exact .inl ⟨nofun, es, answer, htalk.append htalk', hends.imp (·.2) (·.2)⟩
  · rintro t ⟨es, htalk, ⟨hhalt, hstopped⟩ | ⟨hhalt, -⟩⟩
    · exact .inr ⟨rfl, hhalt rfl, es, htalk, hstopped⟩
    · exact absurd rfl hhalt

/-- An open upload is completed or dropped, unless it is abandoned. -/
theorem ends_completed {α β : Type} {carry : Call Store α} {finish : α → Call Store β}
    {heads : List Request} {stalls : Prop}
    (listed : α → List (Nat × String)) (hreaches : s.Reaches bucket full)
    (hcarry : Ends carry s
      (fun a t => ∃ es, s.Talks es t ∧ Carries bucket full id heads 1 es (listed a))
      (fun halt t => (∃ es, s.Talks es t ∧ Stops bucket full id heads 1 es) ∧
        (halt = .abandoned → stalls)))
    (hfinish : ∀ a t, Ends (finish a) t
      (fun _ u => t.Talks [⟨⟨bucket, full, .completeUpload id (listed a)⟩, .done⟩] u)
      (fun halt u => halt ≠ .abandoned ∧
        t.Refused ⟨bucket, full, .completeUpload id (listed a)⟩ u)) :
    Ends (Call.onFailure (abortUpload bucket full id) (carry >>= finish)) s
      (fun _ t => ∃ es, s.Talks es t ∧ Completed bucket full id heads es)
      (fun halt t => ∃ es, s.Talks es t ∧
        (halt ≠ .abandoned ∧ Dropped bucket full id heads es ∨
          halt = .abandoned ∧ stalls ∧ Stops bucket full id heads 1 es)) := by
  refine (ends_settle listed hreaches hcarry hfinish).mono ?_ ?_
  · rintro _ t ⟨a, es, hcarries, htalk⟩
    exact ⟨_, htalk, es, listed a, hcarries, rfl⟩
  · rintro halt t (⟨hhalt, es, answer, htalk, hends⟩ | ⟨hhalt, hstalls, es, htalk, hstops⟩)
    · refine ⟨_, htalk, .inl ⟨hhalt, es, answer, ?_, rfl⟩⟩
      rcases hends with hstops | ⟨a, sent, response, hcarries, hfails, rfl⟩
      · exact .unfinished hstops
      · exact .refused hcarries hfails
    · exact ⟨es, htalk, .inr ⟨hhalt, hstalls, hstops⟩⟩

/-- What a call may say that leaves an upload open. -/
def LeftOpen (bucket full : String) (es : List Exchange) : Prop :=
  ∃ id carried, Stops bucket full id [] 1 carried ∧
    es = ⟨⟨bucket, full, .createUpload⟩, .upload (some id)⟩ :: carried

/-- The parts of a stream, from the first one on, and the end of their upload. -/
theorem ends_sendParts {x : Reader.Refilled} (hreaches : s.Reaches bucket full) :
    Ends (Call.onFailure (abortUpload bucket full id) do
        let (parts, size) ← uploadParts bucket full id 1 x [] 0
        completeUpload bucket full id parts
        pure size) s
      (fun _ t => ∃ es, s.Talks es t ∧ Completed bucket full id [] es)
      (fun halt t => ∃ es, s.Talks es t ∧
        (halt ≠ .abandoned ∧ Dropped bucket full id [] es ∨
          halt = .abandoned ∧ ¬ x.rest.Responsive ∧ Stops bucket full id [] 1 es)) := by
  have hcarry : Ends (uploadParts bucket full id 1 x [] 0) s
      (fun sent t => ∃ es, s.Talks es t ∧ Carries bucket full id [] 1 es sent.1)
      (fun halt t => (∃ es, s.Talks es t ∧ Stops bucket full id [] 1 es) ∧
        (halt = .abandoned → ¬ x.rest.Responsive)) := by
    refine (ends_uploadParts 1 x [] 0 s).mono ?_ fun _ _ h => h
    rintro sent t ⟨es, tagged, htalk, hcarries, hsent⟩
    rw [List.nil_append] at hsent
    exact ⟨es, htalk, hsent ▸ hcarries⟩
  refine ends_completed Prod.fst hreaches hcarry ?_
  rintro ⟨parts, size⟩ t
  exact Ends.bind (ends_completeUpload parts) fun _ _ h => Ends.pure h

/-- A stream is written with one request, or with one multipart upload. If the call is abandoned, it
was waiting for the first part or has left an upload open. -/
theorem ends_createFromReader (s : Store) (bucket key : String) (contents : Reader) :
    Ends (createFromReader bucket key contents) s
      (fun _ t => ∃ es, s.Talks es t ∧ StreamTalk s.client bucket key es)
      (fun halt t => ∃ es, s.Talks es t ∧
        (halt ≠ .abandoned ∧ StreamTalk s.client bucket key es ∨
          halt = .abandoned ∧ ¬ contents.Responsive ∧
            ((Reader.refill ⟨streamPartSize 1, []⟩ contents).stop = .stalled ∧ es = [] ∨
              leastPartSize ≤ (Reader.refill ⟨streamPartSize 1, []⟩ contents).count ∧
                LeftOpen bucket (s.client.fullKey key) es))) := by
  refine (ends_filled _ s).andThen ?_ ?_
  · rintro halt _ ⟨rfl, hstalled⟩
    refine ⟨[], .nil _, ?_⟩
    by_cases hhalt : halt = .abandoned
    · exact .inr ⟨hhalt, fun h => (h.refill _).1 (hstalled hhalt), .inl ⟨hstalled hhalt, rfl⟩⟩
    · exact .inl ⟨hhalt, .inl rfl⟩
  · rintro _ s ⟨rfl, rfl, -⟩
    split
    · refine (ends_put _).mono ?_ ?_
      · intro _ t htalk
        exact ⟨_, htalk, .inr (.inl ⟨_, _, rfl⟩)⟩
      · rintro halt t ⟨hhalt, hrefused⟩
        obtain ⟨es, htalk, rfl | ⟨response, -, rfl⟩⟩ := hrefused.talks
        · exact ⟨_, htalk, .inl ⟨hhalt, .inl rfl⟩⟩
        · exact ⟨_, htalk, .inl ⟨hhalt, .inr (.inl ⟨_, response, rfl⟩)⟩⟩
    · rename_i hcount
      refine ends_fullKey_bind (ends_startUpload.andThen ?_ ?_)
      · rintro halt t ⟨hhalt, hrefused⟩
        obtain ⟨es, htalk, rfl | ⟨response, hfails, rfl⟩⟩ := hrefused.talks
        · exact ⟨_, htalk, .inl ⟨hhalt, .inl rfl⟩⟩
        · exact ⟨_, htalk, .inl ⟨hhalt, .inr (.inr (.unopened hfails))⟩⟩
      · rintro id t ⟨hreaches, htalk⟩
        refine (ends_sendParts (hreaches.of_talks htalk)).andThen ?_ ?_
        · rintro halt u ⟨es, htalk', ⟨hhalt, hdropped⟩ | ⟨hhalt, hstalls, hstops⟩⟩
          · exact ⟨_, htalk.append htalk', .inl ⟨hhalt, .inr (.inr (.dropped hdropped))⟩⟩
          · refine ⟨_, htalk.append htalk', .inr ⟨hhalt, fun h => hstalls (h.refill _).2, .inr ?_⟩⟩
            exact ⟨by omega, id, es, hstops, rfl⟩
        · rintro size u ⟨es, htalk', hcompleted⟩
          exact Ends.pure ⟨_, htalk.append htalk', .inr (.inr (.of_completed hcompleted))⟩

/-- Objects are joined with one multipart upload. -/
theorem ends_compose (s : Store) (bucket : String) (sources : List String) (destination : String) :
    Ends (compose bucket sources destination) s
      (fun _ t => ∃ es, s.Talks es t ∧ ComposeTalk s.client bucket sources destination es)
      (fun halt t => halt ≠ .abandoned ∧
        ∃ es, s.Talks es t ∧ ComposeTalk s.client bucket sources destination es) := by
  refine Ends.ofExcept_bind (fun _ _ => ?_) fun _ _ => ⟨nofun, [], .nil s, .inl rfl⟩
  refine ends_fullKey_bind (ends_startUpload.andThen ?_ ?_)
  · rintro halt t ⟨hhalt, hrefused⟩
    obtain ⟨es, htalk, rfl | ⟨response, hfails, rfl⟩⟩ := hrefused.talks
    · exact ⟨hhalt, _, htalk, .inl rfl⟩
    · exact ⟨hhalt, _, htalk, .inr (.unopened hfails)⟩
  · rintro id t ⟨hreaches, htalk⟩
    have hreaches' := hreaches.of_talks htalk
    have hcarry : Ends (copyParts bucket (s.client.fullKey destination) id sources 1) t
        (fun parts u => ∃ es, t.Talks es u ∧ Carries bucket (s.client.fullKey destination) id
          (sources.map (headOf s.client bucket)) 1 es parts)
        (fun halt u => (∃ es, t.Talks es u ∧ Stops bucket (s.client.fullKey destination) id
          (sources.map (headOf s.client bucket)) 1 es) ∧ (halt = .abandoned → False)) :=
      (ends_copyParts s.client sources 1 t htalk.client).mono (fun _ _ h => h)
        fun _ _ h => ⟨h.2, h.1⟩
    refine (ends_completed (fun parts => parts) hreaches' hcarry fun _ _ =>
      ends_completeUpload _).andThen ?_ ?_
    · rintro halt u ⟨es, htalk', ⟨hhalt, hdropped⟩ | ⟨-, hstalls, -⟩⟩
      · exact ⟨hhalt, _, htalk.append htalk', .inr (.dropped hdropped)⟩
      · exact hstalls.elim
    · rintro _ u ⟨es, htalk', hcompleted⟩
      have htalk := htalk.append htalk'
      have hhead := ends_objectSize bucket destination u
      rw [htalk.client] at hhead
      refine hhead.andThen ?_ ?_
      · rintro halt v ⟨hhalt, ⟨hunreached, -⟩ | ⟨response, -, htalk''⟩⟩
        · exact absurd ⟨hreaches.bucket, hreaches.key, htalk.reachable.trans hreaches.reachable⟩
            hunreached
        · exact ⟨hhalt, _, htalk.append htalk'', .inr (.completed hcompleted rfl)⟩
      · rintro size v ⟨answer, -, htalk''⟩
        exact Ends.pure ⟨_, htalk.append htalk'', .inr (.completed hcompleted rfl)⟩

end Store

end ChunkedUpload.S3
