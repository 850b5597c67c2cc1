import ChunkedUpload.Proofs.Reader.Interruptions
import ChunkedUpload.Proofs.Upload.Progress

/-!
# The chunks that a stream fills

As long as the flow of a stream fills them, chunks are cut at the multiples of the chunk size,
whatever is to come later (`AtChunk.nextChunk`). In a store in memory without faults each of them is
stored as a part, so an upload comes to the place behind the first `n` of them with just these
stored and logged (`AtChunk.reach`). What happens then is settled by what the stream does there.
-/

namespace ChunkedUpload

open Call (Ends)

namespace Session

variable {σ : Type} {size n : Nat} {r : Reader}

/-! ## Reading -/

/-- The session reads on behind the first `n` chunks of `r`, which its flow has filled. -/
structure AtChunk (size : Nat) (r : Reader) (n : Nat) (s : Session σ) : Prop where
  window : 0 < s.contents.window
  buffer : s.buffer.size = size
  flow : s.contents.flow = r.flow.drop (n * size)
  ending : s.contents.ending = r.ending
  interruptions : ∀ k, k ∈ s.contents.interruptions ↔ n * size + k ∈ r.interruptions

theorem atChunk_session (u : Uploader) (request : UploadRequest) (m : Metered σ) :
    AtChunk u.chunkSize (.buffered request.script) 0 (u.session request m) where
  window := Nat.succ_pos _
  buffer := rfl
  flow := by
    rw [Nat.zero_mul]
    rfl
  ending := rfl
  interruptions := by
    intro k
    rw [Nat.zero_mul, Nat.zero_add]
    rfl

namespace AtChunk

variable {s t : Session σ}

theorem congr (h : AtChunk size r n s) (hcontents : t.contents = s.contents)
    (hbuffer : t.buffer = s.buffer) : AtChunk size r n t :=
  ⟨hcontents ▸ h.window, hbuffer ▸ h.buffer, hcontents ▸ h.flow, hcontents ▸ h.ending,
    hcontents ▸ h.interruptions⟩

theorem length_flow (h : AtChunk size r n s) :
    s.contents.flow.length = r.flow.length - n * size := by
  rw [h.flow, List.length_drop]

/-- One more chunk, which the flow fills. -/
theorem nextChunk (h : AtChunk size r n s) (hlong : (n + 1) * size ≤ r.flow.length) :
    ∃ t, Session.nextChunk s = .ok ((r.flow.drop (n * size)).take size) t ∧
      AtChunk size r (n + 1) t ∧ t = { s with contents := t.contents, buffer := t.buffer } := by
  rw [Nat.succ_mul] at hlong
  have hfull : size ≤ s.contents.flow.length := by
    rw [h.length_flow]
    omega
  obtain ⟨hflow, hending, hinterruptions⟩ := Reader.fill_rest size hfull
  have htaken : (s.contents.fill size).taken = (r.flow.drop (n * size)).take size := by
    rw [Reader.fill_taken, h.flow]
  have hstop : (s.contents.fill size).stop = .done := by
    rw [Reader.fill_stop, if_pos hfull]
  have hwindow : (s.contents.fill size).rest.window = s.contents.window :=
    Reader.fillFrom_window size [] s.contents
  refine ⟨{ s with
    contents := (s.contents.fill size).rest
    buffer := s.buffer.overwrite (s.contents.fill size).taken }, ?_, ?_, rfl⟩
  · have hchunk : (Reader.refill s.buffer s.contents).chunk = (s.contents.fill size).taken := by
      rw [Reader.refill_chunk, h.buffer]
    have hrefill : (Reader.refill s.buffer s.contents).stop = .done := by
      rw [← hstop, ← h.buffer]
      rfl
    unfold Session.nextChunk
    simp only [hrefill, hchunk, htaken]
    rw [← htaken, ← h.buffer]
    rfl
  · refine ⟨hwindow ▸ h.window, h.buffer, ?_, hending.trans h.ending, fun k => ?_⟩
    · rw [hflow, h.flow, List.drop_drop, Nat.succ_mul]
    · rw [hinterruptions, h.interruptions, Nat.succ_mul, Nat.add_assoc]

/-- A chunk that the flow does not fill, if it fails. -/
theorem nextChunk_of_failed {error : IoError} (h : AtChunk size r n s)
    (hshort : r.flow.length < (n + 1) * size) (hle : n * size ≤ r.flow.length)
    (hending : r.ending = .failed error) :
    ∃ t, Session.nextChunk s = .error (.failed (.io error)) t ∧
      t = { s with contents := t.contents, buffer := t.buffer } := by
  have hrefill : (Reader.refill s.buffer s.contents).stop = .failed error := by
    rw [Nat.succ_mul] at hshort
    show (s.contents.fill s.buffer.size).stop = _
    rw [h.buffer, Reader.fill_stop, if_neg (by rw [h.length_flow]; omega), h.ending, hending]
  refine ⟨{ s with
    contents := (Reader.refill s.buffer s.contents).rest
    buffer := (Reader.refill s.buffer s.contents).buffer }, ?_, rfl⟩
  unfold Session.nextChunk
  simp only [hrefill]

/-- The look ahead behind the last chunk, at an interruption. -/
theorem holdsMore_of_interrupted (h : AtChunk size r n s) (hmet : n * size ∈ r.interruptions) :
    ∃ error t, Session.holdsMore s = .error (.failed (.io error)) t ∧ error.kind = .interrupted ∧
      t = { s with contents := t.contents } := by
  obtain ⟨error, rest, hpeek, hkind⟩ :=
    Reader.peek_of_interrupted h.window ((h.interruptions 0).2 hmet)
  refine ⟨error, { s with contents := rest }, ?_, hkind, rfl⟩
  unfold Session.holdsMore
  simp only [hpeek]

/-- The look ahead shows that more is to come. -/
theorem holdsMore_of_more (h : AtChunk size r n s) (hquiet : n * size ∉ r.interruptions)
    (hlong : n * size < r.flow.length) :
    ∃ t, Session.holdsMore s = .ok true t ∧ t.contents.flow = s.contents.flow ∧
      t.contents.ending = r.ending ∧ t = { s with contents := t.contents } := by
  have hsome : s.contents.flow ≠ [] := by
    rw [← List.length_pos_iff, h.length_flow]
    omega
  obtain ⟨ahead, rest, hpeek, hahead, hflow, hending⟩ :=
    (Reader.peek_of_quiet h.window (mt (h.interruptions 0).1 hquiet)).1 hsome
  refine ⟨{ s with contents := rest }, ?_, hflow, hending.trans h.ending, rfl⟩
  have hmore : (!ahead.isEmpty) = true := by simpa using hahead
  unfold Session.holdsMore
  simp only [hpeek, hmore]

/-- The look ahead meets the failure that ends the flow. -/
theorem holdsMore_of_failed {error : IoError} (h : AtChunk size r n s)
    (hquiet : n * size ∉ r.interruptions) (hlong : r.flow.length ≤ n * size)
    (hending : r.ending = .failed error) :
    ∃ t, Session.holdsMore s = .error (.failed (.io error)) t ∧
      t = { s with contents := t.contents } := by
  have hnone : s.contents.flow = [] := by
    rw [h.flow, List.drop_of_length_le hlong]
  obtain ⟨rest, hpeek⟩ := (Reader.peek_of_quiet h.window (mt (h.interruptions 0).1 hquiet)).2 hnone
  rw [h.ending, hending] at hpeek
  refine ⟨{ s with contents := rest }, ?_, rfl⟩
  unfold Session.holdsMore
  simp only [hpeek, Reader.Stop.reading]

end AtChunk

/-! ## Writing -/

/-- The first `n` chunks of `bytes`, all of them full, are stored and logged, and nothing else is
done. -/
structure Stocked (bucket destination : String) (size : Nat) (bytes : Bytes) (s₀ : Session Memory)
    (n : Nat) (s : Session Memory) : Prop where
  names : s.names = Part.names destination n
  faults : s.store.faults = []
  log : s.store.log = s₀.store.log ++
    (List.range n).map fun i => .create (Part.name destination (i + 1)) size true
  content : s.store.objects.get? (bucket, destination) =
    if n = 0 then s₀.store.objects.get? (bucket, destination) else some (bytes.take size)
  limitHits : s.limitHits = s₀.limitHits
  counted : s.metrics.composeLimitHits = s₀.metrics.composeLimitHits

variable {bucket destination : String} {bytes : Bytes} {s₀ s t : Session Memory}

theorem Stocked.congr (h : Stocked bucket destination size bytes s₀ n s)
    (ht : t = { s with contents := t.contents, buffer := t.buffer }) :
    Stocked bucket destination size bytes s₀ n t := by
  rw [ht]
  exact ⟨h.names, h.faults, h.log, h.content, h.limitHits, h.counted⟩

/-- One more full chunk, which has been read. -/
theorem Stocked.writePart (h : Stocked bucket destination size bytes s₀ n s)
    (hroom : n < composeLimit) {data : Bytes} (hlength : data.length = size)
    (hfirst : n = 0 → data = bytes.take size) :
    Ends (Session.writePart bucket destination (n + 1) data) s
      (fun _ t => Stocked bucket destination size bytes s₀ (n + 1) t ∧ t.contents = s.contents ∧
        t.buffer = s.buffer)
      (fun _ _ => False) := by
  have hcreate : Ends (ObjectStore.create bucket (Part.name destination (n + 1)) data true) s.store
      (fun _ after => after =
        { Memory.record (.create (Part.name destination (n + 1)) data.length true) s.store with
          objects := s.store.objects.insert (address bucket destination n) data })
      (fun _ _ => False) :=
    Ends.of_ok (Memory.create_of_faultless h.faults bucket _ data true) rfl
  refine Ends.modify_bind (Ends.andThen (ends_onStore hcreate) (fun _ _ hbad => hbad.1) ?_)
  intro object t hput
  obtain ⟨hstore, ht⟩ := hput
  rw [ht, hstore]
  refine Ends.modify_bind (Ends.pure ⟨⟨?_, h.faults, ?_, ?_, h.limitHits, h.counted⟩, rfl, rfl⟩)
  · rw [Part.names_succ, ← h.names]
  · show s.store.log ++ _ = _
    rw [h.log, hlength, List.range_succ, List.map_append, List.append_assoc]
    rfl
  · show (s.store.objects.insert _ _).get? _ = _
    rw [ObjectMap.get?_insert, if_neg (Nat.succ_ne_zero n), h.content]
    by_cases hzero : n = 0
    · rw [hfirst hzero, hzero]
      exact if_pos rfl
    · have hfirst : address bucket destination 0 ≠ address bucket destination n :=
        fun heq => hzero ((address_inj (by decide) hroom).1 heq).symm
      rw [if_neg hzero, if_neg (show (bucket, destination) ≠ _ from hfirst)]

/-- An upload comes to the place behind any number of chunks, short of the limit, that the flow
fills. -/
theorem AtChunk.reach (bucket destination : String) (hchunk : AtChunk size r 0 s)
    (hsize : 0 < size) (hfaults : s.store.faults = []) (hnames : s.names = []) :
    ∀ n, n ≤ composeLimit - 1 → n * size ≤ r.flow.length →
      ∃ written t, AtChunk size r n t ∧ Stocked bucket destination size r.flow s n t ∧
        writeParts bucket destination (composeLimit - 1) 1 .nothing s =
          writeParts bucket destination (composeLimit - 1 - n) (n + 1) written t
  | 0, _, _ => ⟨.nothing, s, hchunk, ⟨hnames, hfaults, by simp, rfl, rfl, rfl⟩, rfl⟩
  | n + 1, hroom, hlong => by
    have hbefore : n * size ≤ r.flow.length :=
      Nat.le_trans (Nat.mul_le_mul_right size (Nat.le_succ n)) hlong
    obtain ⟨written, t, hat, hstocked, hrun⟩ :=
      reach bucket destination hchunk hsize hfaults hnames n (by omega) hbefore
    obtain ⟨t', hnext, hat', ht'⟩ := hat.nextChunk hlong
    have hlength : ((r.flow.drop (n * size)).take size).length = size := by
      rw [Nat.succ_mul] at hlong
      rw [List.length_take, List.length_drop]
      omega
    have hfirst : n = 0 → (r.flow.drop (n * size)).take size = r.flow.take size := by
      intro hzero
      rw [hzero, Nat.zero_mul, List.drop_zero]
    obtain ⟨object, t'', hwrite, hstocked', hcontents, hbuffer⟩ :=
      ((hstocked.congr ht').writePart (by omega) hlength hfirst).exists_ok
    refine ⟨written.add object, t'', hat'.congr hcontents hbuffer, hstocked', hrun.trans ?_⟩
    have hmore : ¬ (1 < n + 1 ∧ (r.flow.drop (n * size)).take size = []) := by
      intro hend
      rw [hend.2] at hlength
      exact Nat.ne_of_lt hsize hlength
    rw [show composeLimit - 1 - n = composeLimit - 1 - (n + 1) + 1 by omega, writeParts,
      Call.bind_of_ok hnext, if_neg hmore, Call.bind_of_ok hwrite]

end Session

end ChunkedUpload
