import ChunkedUpload.Proofs.Upload.FirstChunks
import ChunkedUpload.Proofs.Upload.Lossless
import ChunkedUpload.Proofs.Upload.Twins

/-!
# Interruptions are tried again

Filling a chunk and reading the rest of a long stream both go on after an interruption; the look
ahead between them does not. So there is one place in a stream where an interruption can be noticed,
right behind the last chunk before the limit (`upload_interrupted`). Elsewhere the upload runs side
by side with that of the stream without its interruptions: what both still read is `Foreseen`, from
chunk to chunk.
-/

namespace ChunkedUpload

open Call (InStep)

namespace Reader

/-! ## What is still read -/

/-- The reader hands out `flow` to the end, and no interruption is right behind the next `left`
buffers of `size` bytes. -/
structure Foreseen (size left : Nat) (flow : Bytes) (ending : Stop) (r : Reader) : Prop where
  final : r.Final
  window : 0 < r.window
  flow_eq : r.flow = flow
  ending_eq : r.ending = ending
  quiet : left * size ∉ r.interruptions

namespace Foreseen

variable {size left : Nat} {flow : Bytes} {ending : Stop} {r : Reader}

/-- What filling a buffer obtains, and what it leaves. -/
theorem fill (h : Foreseen size (left + 1) flow ending r) :
    (r.fill size).taken = flow.take size ∧
      (r.fill size).stop = (if size ≤ flow.length then .done else ending) ∧
      ((r.fill size).stop = .done →
        Foreseen size left (flow.drop size) ending (r.fill size).rest) := by
  have hflow := h.flow_eq
  have hending := h.ending_eq
  refine ⟨by rw [fill_taken, hflow], by rw [fill_stop, hflow, hending], fun hdone => ?_⟩
  obtain ⟨hfinal, hrest⟩ := h.final.fillFrom size []
  obtain ⟨hrestFlow, hrestEnding⟩ := hrest hdone
  refine ⟨hfinal, ?_, hrestFlow.trans (by rw [hflow]), hrestEnding.trans hending, ?_⟩
  · rw [show (r.fill size).rest.window = r.window from fillFrom_window size [] r]
    exact h.window
  · rcases Nat.lt_or_ge r.flow.length size with hshort | hfull
    · rw [show (r.fill size).rest.interruptions = [] from
        h.final.fillFrom_quiet size [] hshort hdone]
      exact List.not_mem_nil
    · obtain ⟨-, -, hoffsets⟩ := fill_rest size hfull
      rw [hoffsets, Nat.add_comm, ← Nat.succ_mul]
      exact h.quiet

/-- What the look ahead shows, right behind the last buffer. -/
theorem peek (h : Foreseen size 0 flow ending r) :
    (flow ≠ [] → ∃ ahead rest, r.peek = (.bytes ahead, rest) ∧ ahead ≠ [] ∧
      rest.flow = flow ∧ rest.ending = ending) ∧
    (flow = [] → ∃ rest, r.peek = (ending.reading, rest)) := by
  obtain ⟨-, hwindow, rfl, rfl, hquiet⟩ := h
  rw [Nat.zero_mul] at hquiet
  exact peek_of_quiet hwindow hquiet

end Foreseen

/-- Two readers of which the same is foreseen. -/
def Alike (size left : Nat) (r r' : Reader) : Prop :=
  ∃ flow ending, Foreseen size left flow ending r ∧ Foreseen size left flow ending r'

theorem paced_alike (size : Nat) : Paced size (Alike size) where
  fill := by
    intro left r r' h
    obtain ⟨flow, ending, h, h'⟩ := h
    obtain ⟨htaken, hstop, hrest⟩ := h.fill
    obtain ⟨htaken', hstop', hrest'⟩ := h'.fill
    have hstops : (r.fill size).stop = (r'.fill size).stop := hstop.trans hstop'.symm
    exact ⟨htaken.trans htaken'.symm, hstops, fun hdone =>
      ⟨_, ending, hrest hdone, hrest' (hstops ▸ hdone)⟩⟩
  peek := by
    intro r r' h
    obtain ⟨flow, ending, h, h'⟩ := h
    by_cases hflow : flow = []
    · obtain ⟨rest, hr⟩ := h.peek.2 hflow
      obtain ⟨rest', hr'⟩ := h'.peek.2 hflow
      cases ending with
      | done => exact .inl ⟨[], [], rest, rest', hr, hr', rfl, fun hsome => absurd rfl hsome⟩
      | failed | stalled => exact .inr ⟨_, rest, rest', hr, hr', nofun⟩
    · obtain ⟨ahead, rest, hr, hahead, hrestFlow, hrestEnding⟩ := h.peek.1 hflow
      obtain ⟨ahead', rest', hr', hahead', hrestFlow', hrestEnding'⟩ := h'.peek.1 hflow
      refine .inl ⟨ahead, ahead', rest, rest', hr, hr', ?_, fun _ =>
        ⟨hrestFlow.trans hrestFlow'.symm, hrestEnding.trans hrestEnding'.symm⟩⟩
      rw [List.isEmpty_eq_false_iff.2 hahead, List.isEmpty_eq_false_iff.2 hahead']

/-- Where no interruption is noticed, the same is foreseen of a stream and of the stream without
its interruptions. -/
theorem alike_calm {size left : Nat} {script : Script} (hpause : ∀ step ∈ script, step ≠ .pause)
    (hquiet : left * size ∉ script.interruptions) :
    Alike size left (buffered script) (buffered script.calm) := by
  obtain ⟨hflow, hending, hoffsets⟩ := script.calm_spec
  refine ⟨script.flow, script.ending,
    ⟨Script.final_of_no_pause hpause, Nat.succ_pos _, rfl, rfl, ?_⟩,
    ⟨Script.final_of_no_pause fun step hstep => hpause step (List.mem_of_mem_filter hstep),
      Nat.succ_pos _, hflow, hending, ?_⟩⟩
  · rwa [buffered, interruptions_of_no_ahead]
  · rw [buffered, interruptions_of_no_ahead]
    exact mt (hoffsets _) hquiet

end Reader

/-- A store in memory is in step with itself, under observation, too. -/
theorem Session.paired_eq (bucket destination : String) :
    Paired (Eq : Watched Memory → Watched Memory → Prop) bucket destination where
  create _ data := .refl _
  createFromReader := by
    intro name _ r r' hflow hending
    have hsame : (ObjectStore.createFromReader bucket name r : Call (Watched Memory) _) =
        ObjectStore.createFromReader bucket name r' := by
      show Watched.note _ some (Memory.createFromReader bucket name r) =
        Watched.note _ some (Memory.createFromReader bucket name r')
      rw [Memory.createFromReader_congr hflow hending, Reader.drain_taken, Reader.drain_taken,
        hflow]
    rw [hsame]
    exact .refl _
  compose _ := .refl _

namespace Uploader

variable (u : Uploader) (bucket destination : String) {script : Reader.Script}
  (m : Metered Memory)

/-- An upload none of whose interruptions is noticed. -/
theorem upload_calm (hpause : ∀ step ∈ script, step ≠ .pause)
    (hquiet : (composeLimit - 1) * u.chunkSize ∉ script.interruptions) :
    u.upload ⟨bucket, destination, script⟩ (watch m) =
        u.upload ⟨bucket, destination, script.calm⟩ (watch m) ∧
      u.upload ⟨bucket, destination, script⟩ m =
        u.upload ⟨bucket, destination, script.calm⟩ m := by
  obtain ⟨ending, s, t, metrics, metrics', hs, ht, hstore, hnames, hcounted⟩ :=
    upload_twins True (rfl : u.chunkSize = u.chunkSize) (Session.paired_eq bucket destination)
      (Reader.paced_alike u.chunkSize) (rfl : (watch m).store = (watch m).store)
      (Reader.alike_calm hpause hquiet) fun _ => ⟨rfl, rfl⟩
  obtain ⟨hmetrics, hhits⟩ := hcounted trivial
  have hwatched : u.upload ⟨bucket, destination, script⟩ (watch m) =
      u.upload ⟨bucket, destination, script.calm⟩ (watch m) := by
    rw [hs, ht, close, close, hnames, hhits, hstore, hmetrics]
  refine ⟨hwatched, ?_⟩
  rw [upload_watched, hwatched, ← upload_watched]

/-- An upload whose look ahead is interrupted. -/
theorem upload_stopped (hsize : 0 < u.chunkSize) (hfaults : m.store.faults = [])
    (hmet : (composeLimit - 1) * u.chunkSize ∈ script.interruptions) :
    ∃ (error : IoError) (u' : Uploader) (m' : Metered Memory),
      u.upload ⟨bucket, destination, script⟩ m = (.failed ⟨destination, .io error⟩, u', m') ∧
      error.kind = .interrupted ∧ u'.limitHits = u.limitHits ∧
      m'.metrics.composeLimitHits = m.metrics.composeLimitHits := by
  have hchunk := Session.atChunk_session u ⟨bucket, destination, script⟩ m
  have hlong : (composeLimit - 1) * u.chunkSize ≤ (Reader.flow (.buffered script)).length :=
    Reader.Script.le_length_flow hmet
  have hoffset : (composeLimit - 1) * u.chunkSize ∈ Reader.interruptions (.buffered script) := by
    rwa [Reader.buffered, Reader.interruptions_of_no_ahead]
  obtain ⟨written, t, hat, hstocked, hparts⟩ :=
    hchunk.reach bucket destination hsize hfaults rfl _ (Nat.le_refl _) hlong
  obtain ⟨error, t', hpeek, hkind, ht'⟩ := hat.holdsMore_of_interrupted hoffset
  have hrun : Session.run bucket destination (u.session ⟨bucket, destination, script⟩ m) =
      .error (.failed (.io error)) t' := by
    apply Call.bind_of_error
    rw [hparts, Nat.sub_self, Session.writeParts, Call.bind_of_error hpeek]
  refine ⟨error, _, _, by rw [upload, hrun], hkind, ?_, ?_⟩
  · rw [ht']
    exact hstocked.limitHits
  · rw [ht']
    exact hstocked.counted

/-- **An interruption is noticed at one place only**: if none is right behind the last chunk before
the limit, the upload is in all respects that of the stream without interruptions, for the store and
for an observer of its calls. If one is there, the upload fails with it, and does not count as one
that has come to the limit. -/
theorem upload_interrupted (script : Reader.Script) (hsize : 0 < u.chunkSize)
    (hpause : ∀ step ∈ script, step ≠ .pause) (hfaults : m.store.faults = []) :
    ((composeLimit - 1) * u.chunkSize ∉ script.interruptions →
      u.upload ⟨bucket, destination, script⟩ (watch m) =
        u.upload ⟨bucket, destination, script.calm⟩ (watch m) ∧
      u.upload ⟨bucket, destination, script⟩ m =
        u.upload ⟨bucket, destination, script.calm⟩ m) ∧
    ((composeLimit - 1) * u.chunkSize ∈ script.interruptions →
      ∃ (error : IoError) (u' : Uploader) (m' : Metered Memory),
        u.upload ⟨bucket, destination, script⟩ m = (.failed ⟨destination, .io error⟩, u', m') ∧
        error.kind = .interrupted ∧ u'.limitHits = u.limitHits ∧
        m'.metrics.composeLimitHits = m.metrics.composeLimitHits) :=
  ⟨upload_calm u bucket destination m hpause, upload_stopped u bucket destination m hsize hfaults⟩

/-- An interruption within a chunk, and one behind 31 chunks of one byte. -/
theorem upload_interrupted_twice :
    (⟨2, 0, {}⟩ : Uploader).upload ⟨"b", "d", [.data [1] none, .fail (.ofKind .interrupted),
        .notReady, .data [2, 3] none]⟩ (⟨{}, {}⟩ : Metered Memory) =
      (⟨2, 0, {}⟩ : Uploader).upload ⟨"b", "d", [.data [1] none, .notReady, .data [2, 3] none]⟩
        ⟨{}, {}⟩ ∧
    ∃ (error : IoError) (u' : Uploader) (m' : Metered Memory),
      (⟨1, 0, {}⟩ : Uploader).upload ⟨"b", "d", [.data (List.replicate 31 7) none,
          .fail (.ofKind .interrupted), .data [2] none]⟩ ⟨{}, {}⟩ =
        (.failed ⟨"d", .io error⟩, u', m') ∧
      error.kind = .interrupted ∧ u'.limitHits = 0 := by
  constructor
  · have hpause : ∀ step ∈ ([.data [1] none, .fail (.ofKind .interrupted), .notReady,
        .data [2, 3] none] : Reader.Script), step ≠ .pause := by simp
    exact ((upload_interrupted ⟨2, 0, {}⟩ "b" "d" ⟨{}, {}⟩ _ (by decide) hpause rfl).1
      (by decide)).2
  · have hpause : ∀ step ∈ ([.data (List.replicate 31 7) none, .fail (.ofKind .interrupted),
        .data [2] none] : Reader.Script), step ≠ .pause := by simp
    obtain ⟨error, u', m', hupload, hkind, hhits, -⟩ :=
      (upload_interrupted ⟨1, 0, {}⟩ "b" "d" ⟨{}, {}⟩ _ (by decide) hpause rfl).2 (by decide)
    exact ⟨error, u', m', hupload, hkind, hhits⟩

/-- An interruption after that place, within the rest of a long stream, is not noticed. -/
theorem upload_interrupted_in_rest :
    let script : Reader.Script :=
      [.data (List.replicate 32 7) none, .fail (.ofKind .interrupted)]
    script.interruptions = [(composeLimit - 1) * 1 + 1] ∧
      ((⟨1, 0, {}⟩ : Uploader).upload ⟨"b", "d", script⟩ (⟨{}, {}⟩ : Metered Memory)).1 =
        .stored ⟨"b", "d", 32⟩ := by
  intro script
  have hinterruptions : script.interruptions = [(composeLimit - 1) * 1 + 1] := by decide
  refine ⟨hinterruptions, ?_⟩
  have hpause : ∀ step ∈ script, step ≠ .pause := by simp [script]
  have hquiet : (composeLimit - 1) * 1 ∉ script.interruptions := by
    rw [hinterruptions]
    decide
  have hsteady : script.calm.Steady := Reader.Script.steady_of_flows (by
    simp [script, Reader.Script.calm, Reader.Step.interrupts, IoError.ofKind, IoError.kind,
      Reader.Script.Flows])
  obtain ⟨object, t, hrun, hjoined, -⟩ := ((Session.cutting_session ⟨1, 0, {}⟩
    ⟨"b", "d", script.calm⟩ ⟨{}, {}⟩ hsteady).run (by decide) rfl).exists_ok
  have hobject : object = ⟨"b", "d", 32⟩ := by
    rw [hjoined.object, flatten_slices (by decide)]
    decide
  rw [(upload_calm ⟨1, 0, {}⟩ "b" "d" ⟨{}, {}⟩ hpause hquiet).2, upload_watched, upload, hrun,
    hobject]

end Uploader

end ChunkedUpload
