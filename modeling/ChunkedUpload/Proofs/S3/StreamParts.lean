import Mathlib.Order.Bounds.Basic
import Mathlib.Order.Monotone.Basic
import ChunkedUpload.Proofs.S3.Granted
import ChunkedUpload.Proofs.S3.WholeObjects

/-!
# A stream is sent once, in the parts of its schedule

`capacity m` is what the first `m` parts of a stream can hold. A stream needs the fewest parts that
hold it: all but the last are full, and the last one has what is left (`StreamParts`). A service
without faults is sent just these, or one object if the stream does not fill the first part
(`stream_sent_once`). The buffer grows with the parts, so it always has the size of the next one
(`ends_uploadParts_granted`).
-/

namespace ChunkedUpload.S3

open Call (Ends)
open Reader (Loaded)

/-! ## The schedule -/

/-- How many bytes the first `parts` parts of a stream hold. -/
def capacity : Nat → Nat
  | 0 => 0
  | parts + 1 => capacity parts + streamPartSize (parts + 1)

theorem streamPartSize_le {a b : Int} (h : a ≤ b) : streamPartSize a ≤ streamPartSize b := by
  have hparts : (a.toNat - 1) / partsPerDoubling ≤ (b.toNat - 1) / partsPerDoubling :=
    Nat.div_le_div_right (by omega)
  have hdoublings : doublings a ≤ doublings b := by
    unfold doublings
    omega
  rw [streamPartSize, streamPartSize, Nat.shiftLeft_eq, Nat.shiftLeft_eq]
  exact Nat.mul_le_mul_left _ (Nat.pow_le_pow_right Nat.two_pos hdoublings)

theorem leastPartSize_le (number : Int) : leastPartSize ≤ streamPartSize number := Nat.le_shiftLeft

theorem streamPartSize_pos (number : Int) : 0 < streamPartSize number :=
  Nat.lt_of_lt_of_le (by decide) (leastPartSize_le number)

theorem capacity_strictMono : StrictMono capacity :=
  strictMono_nat_of_lt_succ fun parts => Nat.lt_add_of_pos_right (streamPartSize_pos (parts + 1))

/-- `bodies` are `flow`, cut into the parts that follow the first `before` ones. A part that is
followed by more is full. -/
inductive Scheduled : Nat → List Bytes → Bytes → Prop
  | nil (before : Nat) : Scheduled before [] []
  | cons {before : Nat} {body flow : Bytes} {bodies : List Bytes} : body ≠ [] →
      body.length ≤ streamPartSize (before + 1) →
      (flow ≠ [] → body.length = streamPartSize (before + 1)) →
      Scheduled (before + 1) bodies flow → Scheduled before (body :: bodies) (body ++ flow)

namespace Scheduled

variable {before : Nat} {bodies : List Bytes} {flow : Bytes}

theorem joined (h : Scheduled before bodies flow) : bodies.flatten = flow := by
  induction h with
  | nil => rfl
  | cons _ _ _ _ ih => rw [List.flatten_cons, ih]

theorem ne_nil (h : Scheduled before bodies flow) (hbodies : bodies ≠ []) : flow ≠ [] := by
  cases h with
  | nil => exact absurd rfl hbodies
  | cons hbody => exact List.append_ne_nil_of_left_ne_nil hbody _

theorem nonempty (h : Scheduled before bodies flow) : ∀ body ∈ bodies, body ≠ [] := by
  induction h with
  | nil => nofun
  | cons hbody _ _ _ ih => exact List.forall_mem_cons.2 ⟨hbody, ih⟩

theorem full (h : Scheduled before bodies flow) : ∀ (n : Nat) (hn : n + 1 < bodies.length),
    bodies[n].length = streamPartSize (before + n + 1 : Nat) := by
  induction h with
  | nil => nofun
  | @cons before body flow bodies _ _ hfull hrest ih =>
    intro n hn
    cases n with
    | zero =>
      have hmore : bodies ≠ [] := by
        rintro rfl
        exact absurd hn (by simp)
      exact hfull (hrest.ne_nil hmore)
    | succ n =>
      rw [List.getElem_cons_succ, ih n (by simpa using hn), Nat.add_right_comm before 1 n,
        ← Nat.add_assoc]

/-- The parts hold the flow. -/
theorem le_capacity (h : Scheduled before bodies flow) :
    capacity before + flow.length ≤ capacity (before + bodies.length) := by
  induction h with
  | nil => exact Nat.le_refl _
  | @cons before body flow bodies hbody hle hfull hrest ih =>
    rw [List.length_cons, ← Nat.add_assoc, Nat.add_right_comm, List.length_append]
    rw [capacity] at ih
    omega

/-- Fewer parts do not. -/
theorem capacity_lt (h : Scheduled before bodies flow) : ∀ n < bodies.length,
    capacity (before + n) < capacity before + flow.length := by
  induction h with
  | nil => nofun
  | @cons before body flow bodies hbody _ hfull hrest ih =>
    intro n hn
    rw [List.length_append]
    cases n with
    | zero =>
      have := List.length_pos_iff.2 hbody
      rw [Nat.add_zero]
      omega
    | succ n =>
      have hn : n < bodies.length := by simpa using hn
      have hmore : bodies ≠ [] := List.ne_nil_of_length_pos (Nat.zero_lt_of_lt hn)
      have hless := ih n hn
      rw [capacity, ← hfull (hrest.ne_nil hmore), Nat.add_right_comm before 1 n] at hless
      rw [← Nat.add_assoc]
      omega

end Scheduled

/-- `bodies` are `flow` in the fewest parts that hold it: all of them full but the last, which is
not empty. -/
structure StreamParts (flow : Bytes) (bodies : List Bytes) : Prop where
  fewest : IsLeast {parts | flow.length ≤ capacity parts} bodies.length
  full : ∀ (n : Nat) (hn : n + 1 < bodies.length), bodies[n].length = streamPartSize (n + 1)
  last : ∀ body ∈ bodies.getLast?, body ≠ []
  joined : bodies.flatten = flow

/-- All parts but the last are large enough for parts that others follow. -/
theorem StreamParts.large {bodies : List Bytes} {flow : Bytes} (h : StreamParts flow bodies) :
    ∀ body ∈ bodies.dropLast, leastPartSize ≤ body.length := by
  intro body hbody
  obtain ⟨n, hn, rfl⟩ := List.mem_iff_getElem.1 hbody
  rw [List.length_dropLast] at hn
  rw [List.getElem_dropLast, h.full n (by omega)]
  exact (roomy_streamPartSize (n + 1) []).1

theorem Scheduled.streamParts {bodies : List Bytes} {flow : Bytes} (h : Scheduled 0 bodies flow) :
    StreamParts flow bodies := by
  refine ⟨⟨?_, fun parts hparts => ?_⟩, fun n hn => ?_, fun body hbody => ?_, h.joined⟩
  · have hle := h.le_capacity
    rwa [Nat.zero_add, capacity, Nat.zero_add] at hle
  · refine Nat.le_of_not_lt fun hfew => ?_
    have hless := h.capacity_lt parts hfew
    rw [Nat.zero_add, capacity, Nat.zero_add] at hless
    exact Nat.not_le_of_lt hless hparts
  · have hfull := h.full n hn
    rwa [Nat.zero_add] at hfull
  · exact h.nonempty body (List.mem_of_getLast? hbody)

/-! ## Sending -/

namespace Store

variable {s : Store} {bucket key full id : String}

theorem ends_filled_done {x : Reader.Refilled} (h : x.stop = .done) (s : Store) :
    Ends (filled x) s (fun y t => y = x ∧ t = s) fun _ _ => False := by
  rw [filled_eq h]
  exact Ends.pure ⟨rfl, rfl⟩

/-- A buffer is filled from a stream that ends well. -/
theorem refill_stop {r : Reader} (h : r.ending = .done) (b : Reader.Buffer) :
    (Reader.refill b r).stop = .done := by
  have hstop : (Reader.refill b r).stop = if b.size ≤ r.flow.length then .done else r.ending :=
    Reader.fill_stop b.size r
  rw [hstop, h, ite_self]

/-- The rest of a stream is sent after the first `before` parts, if there is room for it. -/
theorem ends_uploadParts_granted : ∀ {before : Nat} {x : Reader.Refilled} {flow : Bytes}
    (parts : List (Nat × String)) (size : Nat) (s : Store), Loaded flow .done x →
    x.buffer.size = streamPartSize (before + 1) →
    ∀ {contents : List Bytes}, s.Carrying bucket full id contents → before = contents.length →
    capacity before + flow.length ≤ capacity mostParts →
    Ends (uploadParts bucket full id (before + 1) x parts size) s
      (fun sent t => ∃ bodies, Scheduled before bodies flow ∧
        sent = (parts ++ partTags id (before + 1) bodies.length, size + flow.length) ∧
        s.Talks (partExchanges bucket full id (before + 1) (bodies.map .body)) t ∧
        t.Carrying bucket full id (contents ++ bodies))
      (fun _ _ => False) := by
  intro before x flow
  -- every part takes some bytes of what is left
  induction hleft : flow.length using Nat.strongRecOn generalizing before x flow with
  | _ left ih =>
    subst hleft
    intro parts size s hx hsize contents h hbefore hroom
    by_cases hcount : x.count = 0
    · have hpos := streamPartSize_pos (before + 1)
      have hchunk : x.chunk = [] := List.length_eq_zero_iff.1 (hx.count ▸ hcount)
      have hflow : flow = [] := (hx.eq_chunk (by omega)).1.trans hchunk
      rw [uploadParts, if_pos hcount]
      refine Ends.pure ⟨[], hflow ▸ .nil before, ?_, .nil s, by rwa [List.append_nil]⟩
      rw [hflow]
      exact Prod.ext (List.append_nil _).symm rfl
    · have hchunk := hx.chunk_ne_nil hcount
      have hsome := List.length_pos_iff.2 hchunk
      have hlength : x.chunk.length + x.rest.flow.length = flow.length := by
        rw [← hx.joined, List.length_append]
      have hmost : before < mostParts :=
        capacity_strictMono.lt_iff_lt.1 (by omega)
      rw [uploadParts_of_pos hcount hmost]
      have hfits : x.chunk.length ≤ mostCopied := by
        rw [← hx.count]
        exact Nat.le_trans (hsize ▸ hx.room) (roomy_streamPartSize (before + 1) []).2
      refine (h.ends_uploadPart (congrArg (· + 1) hbefore) hfits).bind ?_
      rintro _ t ⟨rfl, htalk, ht⟩
      have hstop := refill_stop hx.rest (x.buffer.grow (streamPartSize (before + 1 + 1)))
      refine (ends_filled_done hstop t).bind ?_
      rintro _ _ ⟨rfl, rfl⟩
      have hnext := hx.final.refill hstop
      rw [hx.rest] at hnext
      have hgrown : x.buffer.size ≤ streamPartSize (before + 1 + 1) :=
        hsize ▸ streamPartSize_le (by omega)
      have hfull : x.rest.flow ≠ [] → x.chunk.length = streamPartSize (before + 1) :=
        fun hmore => (hx.full hmore).trans hsize
      have hroom' : capacity (before + 1) + x.rest.flow.length ≤ capacity mostParts := by
        by_cases hmore : x.rest.flow = []
        · rw [hmore]
          exact capacity_strictMono.monotone hmost
        · rw [capacity, ← hfull hmore]
          omega
      have hafter : before + 1 = (contents ++ [x.chunk]).length := by
        rw [List.length_append, List.length_singleton, hbefore]
      refine (ih _ (by omega) rfl _ _ _ hnext (Nat.max_eq_right hgrown) ht hafter hroom').mono ?_
        fun _ _ hbad => hbad
      rintro _ u ⟨bodies, hbodies, rfl, htalk', hu⟩
      rw [List.append_assoc] at hu
      refine ⟨x.chunk :: bodies, ?_, ?_, ?_, hu⟩
      · rw [← hx.joined]
        exact .cons hchunk (hx.count ▸ hsize ▸ hx.room) hfull hbodies
      · rw [List.length_cons, partTags_cons, List.append_assoc, hx.count, Nat.add_assoc size,
          hlength]
        rfl
      · rw [List.map_cons, partExchanges_cons]
        exact htalk.append htalk'

/-- What a service is asked for that gets a stream in parts. -/
def uploadRequests (bucket full id : String) (payloads : List Payload) : List Request :=
  ⟨bucket, full, .createUpload⟩ :: (partRequests bucket full id 1 payloads ++
    [⟨bucket, full, .completeUpload id (partTags id 1 payloads.length)⟩])

/-- The parts of a stream and the end of their upload. -/
theorem ends_sendParts_granted {x : Reader.Refilled} {flow : Bytes} (hx : Loaded flow .done x)
    (hsize : x.buffer.size = streamPartSize 1) (h : s.Carrying bucket full id [])
    (hsome : flow ≠ []) (hroom : flow.length ≤ capacity mostParts) :
    Ends (Call.onFailure (abortUpload bucket full id) do
        let (parts, size) ← uploadParts bucket full id 1 x [] 0
        completeUpload bucket full id parts
        pure size) s
      (fun size t => size = flow.length ∧ ∃ bodies es, StreamParts flow bodies ∧ s.Talks es t ∧
        es.map (·.request) = partRequests bucket full id 1 (bodies.map .body) ++
          [⟨bucket, full, .completeUpload id (partTags id 1 (bodies.map Payload.body).length)⟩])
      (fun _ _ => False) := by
  have hroom' : capacity 0 + flow.length ≤ capacity mostParts := by rwa [capacity, Nat.zero_add]
  have hsize' : x.buffer.size = streamPartSize ((0 : Nat) + 1) := hsize
  refine Ends.onFailure (?_ : Ends _ s _ fun _ _ => False) (fun _ _ hbad => hbad) fun _ hbad => hbad
  refine (ends_uploadParts_granted [] 0 s hx hsize' h rfl hroom').bind ?_
  rintro _ t ⟨bodies, hbodies, rfl, htalk, ht⟩
  have hparts := hbodies.streamParts
  have hnonempty : bodies ≠ [] := by
    rintro rfl
    exact hsome hparts.joined.symm
  refine (ht.ends_completeUpload hnonempty (hparts.fewest.2 hroom) (.inr hparts.large)).bind ?_
  rintro _ u ⟨htalk', -⟩
  refine Ends.pure ⟨Nat.zero_add _, bodies, _, hparts, htalk.append htalk', ?_⟩
  rw [List.map_append, request_partExchanges, List.length_map]
  rfl

/-- A stream that yields `flow` is written to a service without faults. -/
theorem ends_createFromReader_granted {contents : Reader} {flow : Bytes}
    (hreaches : s.Reaches bucket (s.client.fullKey key)) (hsound : s.server.Sound)
    (hfinal : contents.Final) (hyields : contents.Yields flow)
    (hroom : flow.length ≤ capacity mostParts) :
    Ends (createFromReader bucket key contents) s
      (fun object t => object = ⟨bucket, key, flow.length⟩ ∧ ∃ es, s.Talks es t ∧
        (flow.length < leastPartSize ∧
            es.map (·.request) = [⟨bucket, s.client.fullKey key, .put flow⟩] ∨
          leastPartSize ≤ flow.length ∧ ∃ bodies, StreamParts flow bodies ∧
            es.map (·.request) = uploadRequests bucket (s.client.fullKey key)
              (Server.idOf (s.server.issued + 1)) (bodies.map .body)))
      (fun _ _ => False) := by
  obtain ⟨hflow, hending⟩ := hyields.flow_eq
  have hfirst : streamPartSize 1 = leastPartSize := by decide
  have hstop := refill_stop hending ⟨streamPartSize 1, []⟩
  have hloaded := hfinal.refill hstop
  rw [hflow, hending] at hloaded
  have hcount : (Reader.refill ⟨streamPartSize 1, []⟩ contents).count =
      min leastPartSize flow.length := by
    rw [Reader.refill_count, hflow, ← hfirst]
  have hsize : (Reader.refill ⟨streamPartSize 1, []⟩ contents).buffer.size = streamPartSize 1 := rfl
  refine (ends_filled_done hstop s).bind ?_
  rintro _ _ ⟨rfl, rfl⟩
  generalize Reader.refill ⟨streamPartSize 1, []⟩ contents = x at hloaded hcount hsize
  split
  · have hall : x.chunk = flow := (hloaded.eq_chunk (by omega)).1.symm
    refine (ends_put_granted hreaches hsound.faultless x.chunk).mono ?_ fun _ _ hbad => hbad
    rintro _ t ⟨rfl, htalk⟩
    rw [hall] at htalk ⊢
    exact ⟨rfl, _, htalk, .inl ⟨by omega, rfl⟩⟩
  · refine ends_fullKey_bind ((ends_startUpload_granted hreaches hsound).bind ?_)
    rintro _ t ⟨rfl, htalk, ht⟩
    have hlong : leastPartSize ≤ flow.length := by omega
    have hsome : flow ≠ [] := List.ne_nil_of_length_pos (Nat.lt_of_lt_of_le (by decide) hlong)
    refine (ends_sendParts_granted hloaded hsize ht hsome hroom).bind ?_
    rintro _ u ⟨rfl, bodies, es, hbodies, htalk', hrequests⟩
    refine Ends.pure ⟨rfl, _, htalk.append htalk', .inr ⟨by omega, bodies, hbodies, ?_⟩⟩
    rw [List.map_append, hrequests]
    rfl

/-- **A stream is sent once, in the parts of its schedule.** Let the reads of a stream, however
large they are and however often they are interrupted, yield `flow`, and let ten thousand parts hold
that. Then a service without faults is asked to put all of it, if it does not fill the first part.
Otherwise it is asked to open an upload, to take the fewest parts that hold the flow, in order, and
to complete the upload with these. The object is the flow then, and its size is answered. -/
theorem stream_sent_once {contents : Reader} {flow : Bytes} {parts : Nat}
    (hsound : s.server.Sound) (hreachable : s.reachable = true) (hbucket : bucket ≠ "")
    (hkey : key ≠ "") (hfinal : contents.Final) (hyields : contents.Yields flow)
    (hparts : flow.length ≤ capacity parts) (hmost : parts ≤ mostParts) :
    let full := s.client.fullKey key
    let id := Server.idOf (s.server.issued + 1)
    ∃ t requests,
      ObjectStore.createFromReader bucket key contents s = .ok ⟨bucket, key, flow.length⟩ t ∧
      t.server.log = s.server.log ++ requests ∧
      (flow.length < leastPartSize → requests = [⟨bucket, full, .put flow⟩]) ∧
      (leastPartSize ≤ flow.length → ∃ bodies, StreamParts flow bodies ∧
        requests = uploadRequests bucket full id (bodies.map .body)) ∧
      t.server.objects = s.server.objects.insert (bucket, full) flow := by
  intro full id
  have hreaches : s.Reaches bucket full := ⟨hbucket, Client.fullKey_ne_empty hkey, hreachable⟩
  have hroom : flow.length ≤ capacity mostParts :=
    Nat.le_trans hparts (capacity_strictMono.monotone hmost)
  have hgranted := (ends_createFromReader_granted hreaches hsound hfinal hyields hroom).and
    (ends_stream_whole hsound.issued hfinal)
  obtain ⟨_, t, hrun, ⟨rfl, es, htalk, hrequests⟩, -, hobjects⟩ :=
    (hgranted.mono (fun _ _ h => h) fun _ _ hbad => hbad.1).exists_ok
  rw [hyields.flow_eq.1] at hobjects
  refine ⟨t, es.map (·.request), hrun, htalk.talk.log, fun hshort => ?_, fun hlong => ?_, hobjects⟩
  · rcases hrequests with ⟨-, hput⟩ | ⟨hlong, -⟩
    · exact hput
    · omega
  · rcases hrequests with ⟨hshort, -⟩ | ⟨-, hupload⟩
    · omega
    · exact hupload

/-- A service with an upload open. -/
def occupied : Store where
  client := ⟨some "p", "", ""⟩
  server := { uploads := [⟨Server.idOf 1, ("b", "p/u"), []⟩], issued := 1 }

theorem sound_occupied : occupied.server.Sound :=
  ⟨rfl, fun _ hid => ⟨1, Nat.le_refl _, List.mem_singleton.1 hid⟩⟩

/-- One byte more than the first part holds, in small reads of which one is interrupted. -/
theorem stream_sent_once_interrupted :
    let flow := List.replicate (leastPartSize + 1) 7
    let contents := Reader.buffered
      [.notReady, .fail (.ofKind .interrupted), .data flow (some 1000)]
    occupied.server.Sound ∧ contents.Final ∧ contents.Yields flow ∧
      flow.length ≤ capacity 2 ∧ 2 ≤ mostParts ∧ ∃ t requests,
        ObjectStore.createFromReader "b" "k" contents occupied = .ok ⟨"b", "k", flow.length⟩ t ∧
        t.server.log = requests ∧
        ∃ bodies, StreamParts flow bodies ∧
          requests = uploadRequests "b" "p/k" (Server.idOf 2) (bodies.map .body) := by
  intro flow contents
  have hfinal : contents.Final :=
    Reader.Script.final_of_no_pause (by simp [contents, Reader.buffered])
  have hyields : contents.Yields flow := by
    have hmost : some 1000 ≠ some 0 := by decide
    rw [Reader.yields_iff, Reader.drain_stop, Reader.drain_taken]
    refine ⟨Reader.Script.ending_data [] hmost, ?_⟩
    exact (Reader.Script.flow_data [] hmost).trans (List.append_nil _)
  have hlength : flow.length = leastPartSize + 1 := List.length_replicate
  have hparts : flow.length ≤ capacity 2 := by
    rw [hlength]
    decide
  obtain ⟨t, requests, hrun, hlog, -, hupload, -⟩ := stream_sent_once sound_occupied rfl
    (show "b" ≠ "" by decide) (show "k" ≠ "" by decide) hfinal hyields hparts (by decide)
  exact ⟨sound_occupied, hfinal, hyields, hparts, by decide, t, requests, hrun, hlog,
    hupload (by omega)⟩

end Store

end ChunkedUpload.S3
