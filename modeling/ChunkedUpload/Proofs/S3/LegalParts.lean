import ChunkedUpload.Proofs.S3.CopyRanges
import ChunkedUpload.Proofs.S3.WholeObjects

/-!
# Uploads are completed with legal parts

A service refuses to complete an upload with parts that are not numbered from 1 on, that are too
many, or one of which is too small or too large; only the last one may be small. `LegalParts` says
this of the lengths that the parts had when they were sent (`Server.partSent?`), and `Server.Lawful`
of every upload that some requests complete. A stream is cut into legal parts, however long it is
(`ends_stream_lawful`). Objects are joined with legal parts if all but the last one are large enough
(`ends_compose_lawful`): those that are too large are copied in ranges that are not too small.
-/

namespace ChunkedUpload.S3

open Call (Ends)

/-! ## What a service asks of parts -/

/-- The key that a copy source names behind a bucket and a slash. This takes the source for an
object of the bucket, as it was meant. A service takes what is before the first slash for the bucket
(`Server.sourceAddress?`): the same for a bucket without a slash (`sourceKey?_of_address`), another
object for one with. -/
def sourceKey? (bucket source : String) : Option String :=
  Percent.decode? (String.ofList (source.toList.drop (bucket.toList.length + 1)))

/-- A service that takes the source for an object of this bucket reads the same key. -/
theorem sourceKey?_of_address {bucket source key : String}
    (h : Server.sourceAddress? source = some (bucket, key)) :
    sourceKey? bucket source = some key := by
  simp only [Server.sourceAddress?, Option.bind_eq_bind, Option.bind_eq_some_iff,
    Option.some.injEq, Prod.mk.injEq] at h
  obtain ⟨_, hkey, hbucket, rfl⟩ := h
  have hfront : source.toList.takeWhile (· ≠ '/') = bucket.toList := by
    rw [← hbucket, String.toList_ofList]
  have hsplit : bucket.toList ++ source.toList.dropWhile (· ≠ '/') = source.toList := by
    rw [← hfront, List.takeWhile_append_dropWhile]
  have hdrop : source.toList.drop bucket.toList.length = source.toList.dropWhile (· ≠ '/') :=
    (congrArg (List.drop _) hsplit).symm.trans List.drop_left
  rw [sourceKey?, ← List.drop_drop, hdrop]
  exact hkey

theorem sourceKey?_copySource (c : Client) (bucket source : String) :
    sourceKey? bucket (c.copySource bucket source) = some (c.fullKey source) := by
  have hfront : (c.copySource bucket source).toList =
      (bucket.toList ++ ['/']) ++ (Percent.encode (c.fullKey source)).toList := by
    simp [Client.copySource]
  have hdrop : (c.copySource bucket source).toList.drop (bucket.toList.length + 1) =
      (Percent.encode (c.fullKey source)).toList := by
    rw [hfront]
    exact List.drop_left' (by simp)
  rw [sourceKey?, hdrop, String.ofList_toList, Percent.decode?_encode]

/-- What an action carries as a part. -/
def Action.payload? : Action → Option Payload
  | .uploadPart _ _ body => some (.body body)
  | .copyPart _ _ source range => some (.copy source range)
  | _ => none

theorem Payload.payload?_action (id : String) (part : Nat) (payload : Payload) :
    (payload.action id part).payload? = some payload := by
  cases payload <;> rfl

/-- The actions that complete an upload. -/
def Action.Completes : Action → Prop
  | .completeUpload .. => True
  | _ => False

theorem Action.Works.not_completes {action : Action} (h : action.Works) : ¬ action.Completes := by
  cases action <;> first | exact h.elim | exact id

/-- Parts with which an upload can be completed, where `length?` tells how long a part is. -/
structure LegalParts (length? : Nat → Option Nat) (parts : List (Nat × String)) : Prop where
  nonempty : parts ≠ []
  numbers : parts.map (·.1) = List.range' 1 parts.length
  count : parts.length ≤ mostParts
  sizes : ∀ part ∈ parts.dropLast, ∃ n, length? part.1 = some n ∧
    leastPartSize ≤ n ∧ n ≤ mostCopied

theorem LegalParts.mono {length? length?' : Nat → Option Nat} {parts : List (Nat × String)}
    (h : LegalParts length? parts)
    (hmono : ∀ number n, length? number = some n → length?' number = some n) :
    LegalParts length?' parts := by
  refine ⟨h.nonempty, h.numbers, h.count, fun part hpart => ?_⟩
  obtain ⟨n, hn, hsize⟩ := h.sizes part hpart
  exact ⟨n, hmono _ n hn, hsize⟩

namespace Server

variable {s t : Server} {es : List Exchange} {requests requests' before after : List Request}
  {bucket key full id : String} {number : Nat}

/-- How long a part is: as long as the body, as the range, or as the object of the requested bucket
that is copied whole (`sourceKey?`). -/
def partLength? (s : Server) (bucket : String) : Payload → Option Nat
  | .body bytes => some bytes.length
  | .copy _ (some range) => some range.length
  | .copy source none => do
    let key ← sourceKey? bucket source
    (s.objects.get? (bucket, key)).map List.length

/-- How long part `number` of upload `id` was when it was sent last, if these requests are what a
service gets. -/
def partSent? (id : String) (number : Nat) : List Request → Server → Option Nat
  | [], _ => none
  | request :: requests, s =>
    (partSent? id number requests (s.answer request).2).or
      (if request.action.part? = some (id, number) then
        request.action.payload?.bind (s.partLength? request.bucket)
      else none)

/-- Where these requests complete an upload, its parts are legal as they were sent before. -/
def Lawful (s : Server) (requests : List Request) : Prop :=
  ∀ before bucket key id parts after,
    requests = before ++ ⟨bucket, key, .completeUpload id parts⟩ :: after →
    LegalParts (fun number => s.partSent? id number before) parts

theorem Keeps.partLength?_eq (h : Keeps s t) (bucket : String) (payload : Payload) :
    t.partLength? bucket payload = s.partLength? bucket payload := by
  unfold partLength?
  rw [h.objects]

/-- What was sent later counts. -/
theorem Talk.partSent?_append (h : Talk s es t) (id : String) (number : Nat)
    (requests : List Request) : s.partSent? id number (es.map (·.request) ++ requests) =
      (t.partSent? id number requests).or (s.partSent? id number (es.map (·.request))) := by
  induction h with
  | nil => exact Option.or_none.symm
  | cons he _ ih =>
    rw [List.map_cons, List.cons_append, partSent?, partSent?, he, ih, Option.or_assoc]

example : partSent? "u" 1 [⟨"b", "k", .uploadPart "u" 1 [5, 6]⟩, ⟨"b", "k", .uploadPart "u" 2 [7]⟩,
    ⟨"b", "k", .copyPart "u" 1 "b/k" (some ⟨2, 9⟩)⟩] {} = some 8 := by
  cbv

/-! ## Lawful requests -/

theorem Lawful.of_unfinished (h : ∀ request ∈ requests, ¬ request.action.Completes) :
    s.Lawful requests := by
  rintro before bucket key id parts after rfl
  exact absurd trivial (h _ (List.mem_append_right _ List.mem_cons_self))

/-- Requests that complete just one upload. -/
theorem Lawful.of_completed {parts : List (Nat × String)}
    (hbefore : ∀ request ∈ before, ¬ request.action.Completes)
    (hafter : ∀ request ∈ after, ¬ request.action.Completes)
    (hlegal : LegalParts (fun number => s.partSent? id number before) parts) :
    s.Lawful (before ++ ⟨bucket, key, .completeUpload id parts⟩ :: after) := by
  intro before' bucket' key' id' parts' after' hsplit
  rcases List.append_eq_append_iff.1 hsplit with ⟨between, rfl, hrest⟩ | ⟨between, rfl, hrest⟩
  · cases between with
    | nil =>
      cases hrest
      rwa [List.append_nil]
    | cons first between =>
      obtain ⟨-, rfl⟩ := List.cons.inj hrest
      exact absurd trivial (hafter _ (List.mem_append_right _ List.mem_cons_self))
  · cases between with
    | nil =>
      cases hrest
      rwa [List.append_nil] at hlegal
    | cons first between =>
      obtain ⟨rfl, -⟩ := List.cons.inj hrest
      exact absurd trivial (hbefore _ (List.mem_append_right _ List.mem_cons_self))

/-- What is lawful from where lawful requests end is lawful altogether. -/
theorem Lawful.append (h : s.Lawful (es.map (·.request))) (htalk : Talk s es t)
    (h' : t.Lawful requests) : s.Lawful (es.map (·.request) ++ requests) := by
  intro before bucket key id parts after hsplit
  rcases List.append_eq_append_iff.1 hsplit with ⟨between, rfl, hrest⟩ | ⟨between, hfront, hrest⟩
  · refine (h' _ _ _ _ _ _ hrest).mono fun number n hn => ?_
    rw [htalk.partSent?_append, hn, Option.some_or]
  · cases between with
    | nil =>
      refine (h' [] _ _ _ _ _ hrest.symm).mono fun number n hn => ?_
      cases hn
    | cons first between =>
      obtain ⟨rfl, -⟩ := List.cons.inj hrest
      exact h _ _ _ _ _ _ hfront

end Server

/-! ## Delivered parts -/

variable {s t : Server} {es : List Exchange} {bucket full id : String} {next : Nat}
  {payloads : List Payload} {parts : List (Nat × String)}

/-- A payload of a length that a part may have which others follow. -/
def Server.Sized (s : Server) (bucket : String) (payload : Payload) : Prop :=
  ∃ n, s.partLength? bucket payload = some n ∧ leastPartSize ≤ n ∧ n ≤ mostCopied

theorem Server.Sized.of_keeps {payload : Payload} (h : s.Sized bucket payload)
    (hkeeps : s.Keeps t) : t.Sized bucket payload := by
  rw [Sized, hkeeps.partLength?_eq]
  exact h

/-- Payloads that make legal parts if there are not too many of them. -/
structure Server.Suits (s : Server) (bucket : String) (payloads : List Payload) : Prop where
  nonempty : payloads ≠ []
  sizes : ∀ payload ∈ payloads.dropLast, s.Sized bucket payload

theorem Server.Suits.of_keeps (h : s.Suits bucket payloads) (hkeeps : s.Keeps t) :
    t.Suits bucket payloads :=
  ⟨h.nonempty, fun payload hpayload => (h.sizes payload hpayload).of_keeps hkeeps⟩

namespace Delivers

/-- Parts that are delivered have other numbers than those before them. -/
theorem unsent (h : Delivers bucket full id next es payloads parts) {number : Nat}
    (hnumber : number < next) (s : Server) :
    s.partSent? id number (es.map (·.request)) = none := by
  induction h generalizing s with
  | nil => rfl
  | part _ _ ih =>
    rw [List.map_cons, Server.partSent?, ih (Nat.lt_succ_of_lt hnumber), Option.none_or,
      Payload.part?_action, if_neg]
    simpa using Nat.ne_of_gt hnumber
  | head _ ih =>
    rw [List.map_cons, Server.partSent?, ih hnumber]
    rfl

/-- Each part is as long as its payload. -/
theorem sizes (h : Delivers bucket full id next es payloads parts) (htalk : s.Talk es t)
    (hsized : ∀ payload ∈ payloads.dropLast, s.Sized bucket payload) :
    ∀ part ∈ parts.dropLast, ∃ n, s.partSent? id part.1 (es.map (·.request)) = some n ∧
      leastPartSize ≤ n ∧ n ≤ mostCopied := by
  induction h generalizing s with
  | nil => nofun
  | @part payload tag next es payloads parts _ hrest ih =>
    obtain ⟨u, hanswer, htalk⟩ := Server.Talk.cons_iff.1 htalk
    have hkeeps := Server.answer_keeps hanswer (Exchange.quiet_of_works
      (Action.works_of_part (Payload.part?_action id next payload)))
    have hsame := hrest.length_eq
    cases parts with
    | nil => nofun
    | cons second parts =>
      have hmore : payloads ≠ [] := by
        rintro rfl
        cases hsame
      rw [List.dropLast_cons_of_ne_nil hmore, List.forall_mem_cons] at hsized
      rw [List.dropLast_cons_of_ne_nil (List.cons_ne_nil _ _), List.forall_mem_cons]
      refine ⟨?_, fun part hpart => ?_⟩
      · -- nothing that is sent after it has its number
        obtain ⟨n, hn, hsize⟩ := hsized.1
        refine ⟨n, ?_, hsize⟩
        rw [List.map_cons, Server.partSent?, hanswer, hrest.unsent (Nat.lt_succ_self next),
          Option.none_or, Payload.part?_action, if_pos rfl, Payload.payload?_action]
        exact hn
      · obtain ⟨n, hn, hsize⟩ :=
          ih htalk (fun payload hmem => (hsized.2 payload hmem).of_keeps hkeeps) part hpart
        refine ⟨n, ?_, hsize⟩
        rw [List.map_cons, Server.partSent?, hanswer, hn, Option.some_or]
  | head _ ih =>
    obtain ⟨u, hanswer, htalk⟩ := Server.Talk.cons_iff.1 htalk
    have hkeeps := Server.answer_keeps hanswer (fun hedits => hedits.elim)
    intro part hpart
    obtain ⟨n, hn, hsize⟩ :=
      ih htalk (fun payload hmem => (hsized payload hmem).of_keeps hkeeps) part hpart
    refine ⟨n, ?_, hsize⟩
    rw [List.map_cons, Server.partSent?, hanswer, hn, Option.some_or]

theorem legal (h : Delivers bucket full id 1 es payloads parts) (htalk : s.Talk es t)
    (hsuits : s.Suits bucket payloads) :
    LegalParts (fun number => s.partSent? id number (es.map (·.request))) parts := by
  have hsome : parts ≠ [] := by
    rintro rfl
    exact hsuits.nonempty (List.length_eq_zero_iff.1 h.length_eq.symm)
  refine ⟨hsome, h.numbers, ?_, h.sizes htalk hsuits.sizes⟩
  rcases h.length_le with hnil | hle
  · exact absurd hnil hsome
  · omega

end Delivers

/-- An upload that is opened, and that is tried to complete with all that was delivered. -/
theorem lawful_of_delivers {carried after : List Exchange} {opened response : Response}
    (hdelivers : Delivers bucket full id 1 carried payloads parts)
    (hafter : ∀ e ∈ after, ¬ e.request.action.Completes)
    (htalk : s.Talk (⟨⟨bucket, full, .createUpload⟩, opened⟩ ::
      (carried ++ ⟨⟨bucket, full, .completeUpload id parts⟩, response⟩ :: after)) t)
    (hsuits : s.Suits bucket payloads) :
    s.Lawful (⟨bucket, full, .createUpload⟩ :: (carried.map (·.request) ++
      ⟨bucket, full, .completeUpload id parts⟩ :: after.map (·.request))) := by
  obtain ⟨u, hopened, htalk⟩ := Server.Talk.cons_iff.1 htalk
  obtain ⟨v, hcarried, -⟩ := Server.Talk.append_iff.1 htalk
  have hkeeps := Server.answer_keeps hopened (fun hedits => hedits.elim)
  have hlegal := hdelivers.legal hcarried (hsuits.of_keeps hkeeps)
  rw [← List.cons_append]
  refine .of_completed ?_ (List.forall_mem_map.2 hafter) (hlegal.mono fun number n hn => ?_)
  · refine List.forall_mem_cons.2 ⟨fun h => h, List.forall_mem_map.2 fun e he => ?_⟩
    exact (hdelivers.works e he).not_completes
  · rw [Server.partSent?, hopened, hn, Option.some_or]

theorem Uploaded.lawful {fit : List Payload → Prop} (h : Uploaded bucket full fit es)
    (htalk : s.Talk es t) (hfit : ∀ payloads, fit payloads → s.Suits bucket payloads) :
    s.Lawful (es.map (·.request)) := by
  obtain ⟨id, carried, payloads, parts, hdelivers, hpayloads, rfl⟩ := h
  simpa using lawful_of_delivers hdelivers (List.forall_mem_nil _) htalk (hfit _ hpayloads)

theorem Fruitless.lawful {fit : List Payload → Prop} (h : Fruitless bucket full fit es)
    (htalk : s.Talk es t) (hfit : ∀ payloads, fit payloads → s.Suits bucket payloads) :
    s.Lawful (es.map (·.request)) := by
  have haborts : ∀ {after : List Exchange} {id : String},
      (∀ e ∈ after, e.request.action = .abortUpload id) →
      ∀ e ∈ after, ¬ e.request.action.Completes := by
    intro after id h e he
    rw [h e he]
    exact fun h => h
  cases h with
  | silent => exact .of_unfinished nofun
  | unwritten | unopened => exact .of_unfinished (List.forall_mem_singleton.2 fun h => h)
  | broken hbroken =>
    cases hbroken with
    | unfinished hes hafter =>
      refine .of_unfinished (List.forall_mem_cons.2 ⟨fun h => h, List.forall_mem_map.2 ?_⟩)
      exact List.forall_mem_append.2 ⟨fun e he => (hes e he).not_completes, haborts hafter⟩
    | refused hdelivers hpayloads _ hafter =>
      simpa using lawful_of_delivers hdelivers (haborts hafter) htalk (hfit _ hpayloads)

/-! ## What is sent and copied -/

/-- No fault strikes, the ids of the open uploads were given out before, and the lengths that are
told are the true ones. -/
structure Server.Faithful (s : Server) : Prop extends Sound s where
  truthful : s.reported = []

namespace Server

theorem Talk.setup (h : Talk s es t) : t.reported = s.reported ∧ t.faults = s.faults := by
  induction h with
  | nil => exact ⟨rfl, rfl⟩
  | cons he _ ih =>
    obtain ⟨hreported, hfaults, -⟩ := answer_setup he
    exact ⟨ih.1.trans hreported, ih.2.trans hfaults⟩

theorem Faithful.talk (h : s.Faithful) (htalk : Talk s es t) : t.Faithful where
  faultless := htalk.setup.2.trans h.faultless
  issued := Issued.talk h.issued htalk
  truthful := htalk.setup.1.trans h.truthful

theorem Faithful.length?_eq (h : s.Faithful) (address : Address) :
    s.length? address = (s.objects.get? address).map List.length := by
  rw [length?, h.truthful]
  rfl

end Server

namespace Store

variable {s t u : Store} {key : String} {sources : List String}

theorem Streams.suits {contents : Reader} (h : Streams contents payloads) (s : Server)
    (bucket : String) : s.Suits bucket payloads := by
  obtain ⟨-, bodies, rfl, hbodies, hslices⟩ := h
  refine ⟨fun hnil => hbodies (List.map_eq_nil_iff.1 hnil), fun payload hpayload => ?_⟩
  rw [← List.map_dropLast] at hpayload
  obtain ⟨body, hbody, rfl⟩ := List.mem_map.1 hpayload
  exact ⟨body.length, rfl, hslices.sizes body hbody⟩

/-- The object is there, and large enough for a part that others follow. -/
def Large (s : Server) (c : Client) (bucket source : String) : Prop :=
  ∃ content, s.objects.get? (bucket, c.fullKey source) = some content ∧
    leastPartSize ≤ content.length

/-- A large object gives no small part, whether it is copied whole or in ranges. -/
theorem sized_of_large {s : Server} {c : Client} {source : String} {size : Nat}
    {range : Option CopyRange} (hlarge : Large s c bucket source)
    (hsize : (s.objects.get? (bucket, c.fullKey source)).map List.length = some size)
    (hrange : range ∈ rangesOf size) :
    s.Sized bucket (.copy (c.copySource bucket source) range) := by
  obtain ⟨content, hget, hleast⟩ := hlarge
  rcases mem_rangesOf hrange with ⟨rfl, hmost⟩ | ⟨piece, rfl, hpiece⟩
  · rw [hget] at hsize
    cases hsize
    refine ⟨content.length, ?_, hleast, hmost⟩
    rw [Server.partLength?, sourceKey?_copySource, Option.bind_eq_bind, Option.bind_some, hget]
    rfl
  · exact ⟨piece.length, rfl, hpiece⟩

/-- Copies make legal parts if all sources but the last are large. -/
theorem Copies.suits {s : Server} {c : Client} (h : Copies s c bucket sources payloads)
    (hfaithful : s.Faithful) (hsome : sources ≠ [])
    (hlarge : ∀ source ∈ sources.dropLast, Large s c bucket source) :
    s.Suits bucket payloads := by
  induction h with
  | nil => exact absurd rfl hsome
  | @cons source length size sources payloads hlength hsize hrest ih =>
    obtain rfl : size = length := hsize.resolve_right fun h => h.2 hfaithful.faultless
    rw [hfaithful.length?_eq] at hlength
    have hranges : (rangesOf size).map (Payload.copy (c.copySource bucket source)) ≠ [] :=
      fun hnil => rangesOf_ne_nil size (List.map_eq_nil_iff.1 hnil)
    refine ⟨fun hnil => hranges (List.append_eq_nil_iff.1 hnil).1, fun payload hpayload => ?_⟩
    cases sources with
    | nil =>
      -- the pieces of the last object are large, unless it is copied whole
      cases hrest
      rw [List.append_nil, ← List.map_dropLast] at hpayload
      obtain ⟨range, hrange, rfl⟩ := List.mem_map.1 hpayload
      have hmem : range ∈ rangesOf size := (List.dropLast_sublist _).subset hrange
      rcases mem_rangesOf hmem with ⟨rfl, hmost⟩ | ⟨piece, rfl, hpiece⟩
      · rw [rangesOf_of_le hmost] at hrange
        cases hrange
      · exact ⟨piece.length, rfl, hpiece⟩
    | cons second sources =>
      have hmore : second :: sources ≠ [] := List.cons_ne_nil _ _
      rw [List.dropLast_cons_of_ne_nil hmore, List.forall_mem_cons] at hlarge
      have hsuits := ih hmore hlarge.2
      rw [List.dropLast_append_of_ne_nil hsuits.nonempty, List.mem_append] at hpayload
      rcases hpayload with hpayload | hpayload
      · obtain ⟨range, hrange, rfl⟩ := List.mem_map.1 hpayload
        exact sized_of_large hlarge.1 hlength hrange
      · exact hsuits.sizes payload hpayload

/-! ## The calls of a store -/

/-- What is said between two states completes uploads with legal parts only. -/
def Lawfully (s t : Store) : Prop :=
  ∃ es, s.Talks es t ∧ s.server.Lawful (es.map (·.request))

theorem Lawfully.refl (s : Store) : s.Lawfully s := ⟨[], .nil s, .of_unfinished nofun⟩

theorem Lawfully.trans (h : s.Lawfully t) (h' : t.Lawfully u) : s.Lawfully u := by
  obtain ⟨es, htalk, hlawful⟩ := h
  obtain ⟨fs, htalk', hlawful'⟩ := h'
  refine ⟨es ++ fs, htalk.append htalk', ?_⟩
  rw [List.map_append]
  exact hlawful.append htalk.talk hlawful'

theorem lawfully_of_fruitless {full : String} {fit : List Payload → Prop}
    (h : Fruitless bucket full fit es) (htalk : s.Talks es t)
    (hfit : ∀ payloads, fit payloads → s.server.Suits bucket payloads) : s.Lawfully t :=
  ⟨es, htalk, h.lawful htalk.talk hfit⟩

theorem ends_create_lawful (s : Store) (bucket key : String) (data : Bytes)
    (uncompressed : Bool) : Ends (create bucket key data uncompressed) s (fun _ => s.Lawfully)
      (fun _ => s.Lawfully) := by
  refine (ends_put data).mono ?_ ?_
  · intro _ t htalk
    exact ⟨_, htalk, .of_unfinished (List.forall_mem_singleton.2 fun h => h)⟩
  · rintro _ t ⟨-, hrefused⟩
    obtain ⟨es, htalk, rfl | ⟨response, -, rfl⟩⟩ := hrefused.talks
    · exact ⟨_, htalk, .of_unfinished nofun⟩
    · exact ⟨_, htalk, .of_unfinished (List.forall_mem_singleton.2 fun h => h)⟩

/-- A stream whose end is final is sent in legal parts, if in parts at all. -/
theorem ends_stream_lawful (s : Store) (bucket key : String) {contents : Reader}
    (hfinal : contents.Final) :
    Ends (createFromReader bucket key contents) s (fun _ => s.Lawfully)
      (fun _ => s.Lawfully) := by
  refine (ends_stream s bucket key hfinal).mono ?_ ?_
  · rintro _ t ⟨es, htalk, ⟨-, rfl⟩ | huploaded⟩
    · exact ⟨_, htalk, .of_unfinished (List.forall_mem_singleton.2 fun h => h)⟩
    · exact ⟨es, htalk, huploaded.lawful htalk.talk fun _ h => h.suits _ _⟩
  · rintro _ t ⟨es, htalk, hfruitless⟩
    exact lawfully_of_fruitless hfruitless htalk fun _ h => h.suits _ _

/-- Objects are joined with legal parts if all of them but the last are large. -/
theorem ends_compose_lawful (hfaithful : s.server.Faithful) (hsome : sources ≠ [])
    (hlarge : ∀ source ∈ sources.dropLast, Large s.server s.client bucket source) :
    Ends (compose bucket sources key) s (fun _ => s.Lawfully) (fun _ => s.Lawfully) := by
  have hfit : ∀ payloads, Copies s.server s.client bucket sources payloads →
      s.server.Suits bucket payloads := fun _ h => h.suits hfaithful hsome hlarge
  have hhead : ∀ {es : List Exchange} {response : Response} {t : Store},
      s.Talks (es ++ [⟨headOf s.client bucket key, response⟩]) t →
      Uploaded bucket (s.client.fullKey key) (Copies s.server s.client bucket sources) es →
      s.Lawfully t := by
    intro es response t htalk huploaded
    obtain ⟨u, htold, -⟩ := Server.Talk.append_iff.1 htalk.talk
    refine ⟨_, htalk, ?_⟩
    rw [List.map_append]
    exact (huploaded.lawful htold hfit).append htold
      (.of_unfinished (List.forall_mem_singleton.2 fun h => h))
  refine (ends_joining s bucket sources key).mono ?_ ?_
  · rintro _ t ⟨es, given, htalk, huploaded⟩
    exact hhead htalk huploaded
  · rintro _ t (⟨es, htalk, hfruitless⟩ | ⟨es, response, htalk, -, huploaded⟩)
    · exact lawfully_of_fruitless hfruitless htalk hfit
    · exact hhead htalk huploaded

end Store

end ChunkedUpload.S3
