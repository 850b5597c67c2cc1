import ChunkedUpload.Proofs.Upload.FirstChunks
import ChunkedUpload.Proofs.Upload.Slices

/-!
# Uploads whose stream breaks

A stream that hands out some bytes and then fails ends its upload at the part that the failure
falls into (`upload_broken`): the chunks before it are stored, and the failure itself is what the
caller is told. It falls into one of three places, the filling of a chunk, the look ahead behind the
last one, or the rest of a long stream (`AtChunk.run_broken`), and only in the last one the part has
a name already.
-/

namespace ChunkedUpload

open Call (Ends)

/-- How many parts are stored of a stream that fails after `length` bytes. -/
def storedCount (size length : Nat) : Nat := min (length / size) (composeLimit - 1)

/-- How many of its parts have been named. -/
def namedCount (size length : Nat) : Nat :=
  if length ≤ (composeLimit - 1) * size then length / size else composeLimit

theorem namedCount_le {size length : Nat} (hsize : 0 < size) :
    namedCount size length ≤ composeLimit := by
  unfold namedCount
  split
  · rename_i hshort
    have hdiv := Nat.div_le_div_right (c := size) hshort
    rw [Nat.mul_div_cancel _ hsize] at hdiv
    omega
  · exact Nat.le_refl _

/-- The parts that are stored are full, and as many as there can be. -/
theorem storedCount_eq {size length n : Nat} (hsize : 0 < size) (hroom : n ≤ composeLimit - 1)
    (hfit : n * size ≤ length) (hnext : n < composeLimit - 1 → length < (n + 1) * size) :
    n = storedCount size length := by
  have hle : n ≤ length / size := (Nat.le_div_iff_mul_le hsize).2 hfit
  have hlt : n < composeLimit - 1 → length / size < n + 1 :=
    fun hless => (Nat.div_lt_iff_lt_mul hsize).2 (hnext hless)
  unfold storedCount
  omega

namespace Session

variable {bucket destination : String} {size : Nat} {r : Reader} {s : Session Memory}

/-- What an upload leaves of a stream that broke after `bytes`. -/
structure BrokenOff (bucket destination : String) (size : Nat) (bytes : Bytes)
    (s₀ s : Session Memory) : Prop where
  names : s.names = Part.names destination (namedCount size bytes.length)
  faults : s.store.faults = []
  log : s.store.log = s₀.store.log ++ (List.range (storedCount size bytes.length)).map
    fun i => .create (Part.name destination (i + 1)) size true
  content : s.store.objects.get? (bucket, destination) =
    if size ≤ bytes.length then some (bytes.take size)
    else s₀.store.objects.get? (bucket, destination)
  limitHits : s.limitHits = s₀.limitHits + limitCount size bytes.length
  counted : s.metrics.composeLimitHits =
    s₀.metrics.composeLimitHits + limitCount size bytes.length

/-- The chunks that were filled are stored; what else has happened is the attempt at the rest of the
stream, if there is one. -/
theorem Stocked.brokenOff {n : Nat} {t t' : Session Memory} {bytes : Bytes}
    (h : Stocked bucket destination size bytes s n t) (hsize : 0 < size)
    (hn : n = storedCount size bytes.length) (hstore : t'.store = t.store)
    (hnames : t'.names = Part.names destination (namedCount size bytes.length))
    (hhits : t'.limitHits = t.limitHits + limitCount size bytes.length)
    (hcounted : t'.metrics.composeLimitHits =
      t.metrics.composeLimitHits + limitCount size bytes.length) :
    BrokenOff bucket destination size bytes s t' where
  names := hnames
  faults := hstore ▸ h.faults
  log := by rw [hstore, h.log, hn]
  content := by
    have hfirst : n = 0 ↔ ¬ size ≤ bytes.length := by
      have hlimit : 0 < composeLimit - 1 := by decide
      rw [hn, storedCount, Nat.not_le, ← Nat.div_eq_zero_iff_lt hsize]
      omega
    rw [hstore, h.content]
    by_cases hlong : size ≤ bytes.length
    · rw [if_neg fun hzero => hfirst.1 hzero hlong, if_pos hlong]
    · rw [if_pos (hfirst.2 hlong), if_neg hlong]
  limitHits := by rw [hhits, h.limitHits]
  counted := by rw [hcounted, h.counted]

/-- The rest of a long stream fails when it is read, after its part has been named and counted. -/
theorem writeRest_of_failed (bucket destination : String) (number : Nat) {error : IoError}
    {t : Session Memory} (hending : t.contents.ending = .failed error) :
    ∃ t', writeRest bucket destination number t = .error (.failed (.io error)) t' ∧
      t'.store = t.store ∧ t'.names = t.names ++ [Part.name destination number] ∧
      t'.limitHits = t.limitHits + 1 ∧
      t'.metrics.composeLimitHits = t.metrics.composeLimitHits + 1 := by
  have hdrain : ObjectStore.createFromReader bucket (Part.name destination number) t.contents
      t.store = .error (.failed (.io error)) t.store :=
    Memory.createFromReader_of_failed ((Reader.drain_stop _).trans hending) bucket _ _
  refine ⟨{ t with
    limitHits := t.limitHits + 1
    metrics := { t.metrics with composeLimitHits := t.metrics.composeLimitHits + 1 }
    names := t.names ++ [Part.name destination number] }, ?_, rfl, rfl, rfl, rfl⟩
  unfold writeRest countLimitHit begin
  rw [Call.modify_bind, Call.modify_bind, Call.get_bind]
  refine Call.bind_of_error ?_
  unfold onStore
  simp only [hdrain]

/-- A stream that breaks behind all chunks but the last one of the limit fails as the rest that is
to be the last part. -/
theorem AtChunk.run_broken_late {error : IoError} (hchunk : AtChunk size r 0 s) (hsize : 0 < size)
    (hfaults : s.store.faults = []) (hnames : s.names = []) (hending : r.ending = .failed error)
    (hquiet : (composeLimit - 1) * size ∉ r.interruptions)
    (hlong : (composeLimit - 1) * size < r.flow.length) :
    ∃ t, run bucket destination s = .error (.failed (.io error)) t ∧
      BrokenOff bucket destination size r.flow s t := by
  obtain ⟨written, t, hat, hstocked, hrun⟩ := hchunk.reach bucket destination hsize hfaults hnames
    (composeLimit - 1) (Nat.le_refl _) (Nat.le_of_lt hlong)
  obtain ⟨t₁, hmore, -, hending₁, ht₁⟩ := hat.holdsMore_of_more hquiet hlong
  obtain ⟨t₂, hrest, hstore, hnames₂, hhits, hcounted⟩ :=
    writeRest_of_failed bucket destination (composeLimit - 1 + 1) (hending₁.trans hending)
  refine ⟨t₂, ?_, ?_⟩
  · apply Call.bind_of_error
    rw [hrun, Nat.sub_self, writeParts, Call.bind_of_ok hmore, if_pos rfl,
      Call.bind_of_error hrest]
  · have hone : limitCount size r.flow.length = 1 := if_pos hlong
    have hstored := storedCount_eq hsize (Nat.le_refl _) (Nat.le_of_lt hlong)
      fun hless => absurd hless (Nat.lt_irrefl _)
    refine hstocked.brokenOff hsize hstored ?_ ?_ ?_ ?_
    · rw [hstore, ht₁]
    · rw [namedCount, if_neg (Nat.not_le.2 hlong), hnames₂, ht₁]
      show t.names ++ _ = _
      rw [hstocked.names, ← Part.names_succ]
      rfl
    · rw [hone, hhits, ht₁]
    · rw [hone, hcounted, ht₁]

/-- Any other stream that breaks fails when a chunk is filled, or in the look ahead. -/
theorem AtChunk.run_broken_early {error : IoError} (hchunk : AtChunk size r 0 s)
    (hsize : 0 < size) (hfaults : s.store.faults = []) (hnames : s.names = [])
    (hending : r.ending = .failed error) (hquiet : (composeLimit - 1) * size ∉ r.interruptions)
    (hshort : r.flow.length ≤ (composeLimit - 1) * size) :
    ∃ t, run bucket destination s = .error (.failed (.io error)) t ∧
      BrokenOff bucket destination size r.flow s t := by
  have hnone : limitCount size r.flow.length = 0 := if_neg (Nat.not_lt.2 hshort)
  have hnamed : namedCount size r.flow.length = r.flow.length / size := if_pos hshort
  have hfit : r.flow.length / size * size ≤ r.flow.length := Nat.div_mul_le_self _ _
  have hover : r.flow.length < (r.flow.length / size + 1) * size := by
    rw [Nat.succ_mul]
    exact Nat.lt_div_mul_add hsize
  have hroom : r.flow.length / size ≤ composeLimit - 1 := by
    have hdiv := Nat.div_le_div_right (c := size) hshort
    rwa [Nat.mul_div_cancel _ hsize] at hdiv
  obtain ⟨written, t, hat, hstocked, hrun⟩ :=
    hchunk.reach bucket destination hsize hfaults hnames _ hroom hfit
  have hstop : ∃ t', writeParts bucket destination (composeLimit - 1 - r.flow.length / size)
      (r.flow.length / size + 1) written t = .error (.failed (.io error)) t' ∧
      t' = { t with contents := t'.contents, buffer := t'.buffer } := by
    rcases Nat.eq_or_lt_of_le hroom with hall | hless
    · rw [← hall] at hquiet hshort
      obtain ⟨t', hpeek, ht'⟩ := hat.holdsMore_of_failed hquiet hshort hending
      refine ⟨t', ?_, by rw [ht']⟩
      rw [hall, Nat.sub_self, writeParts, Call.bind_of_error hpeek]
    · obtain ⟨t', hnext, ht'⟩ := hat.nextChunk_of_failed hover hfit hending
      refine ⟨t', ?_, ht'⟩
      obtain ⟨left, hleft⟩ := Nat.exists_eq_add_of_lt hless
      rw [show composeLimit - 1 - r.flow.length / size = left + 1 by omega, writeParts,
        Call.bind_of_error hnext]
  obtain ⟨t', hparts, ht'⟩ := hstop
  refine ⟨t', Call.bind_of_error (hrun.trans hparts), hstocked.brokenOff hsize
    (storedCount_eq hsize hroom hfit fun _ => hover) ?_ ?_ ?_ ?_⟩
  · rw [ht']
  · rw [ht', hnamed]
    exact hstocked.names
  · rw [hnone, ht']
    rfl
  · rw [hnone, ht']
    rfl

namespace BrokenOff

variable {bytes : Bytes} {s₀ : Session Memory}

/-- A sweep takes the later ones of the parts that have been named. -/
theorem deletable (h : BrokenOff bucket destination size bytes s₀ s) (hsize : 0 < size) :
    Cleanup.Batch.deletable ⟨bucket, destination, s.names⟩ =
      (List.range' 2 (namedCount size bytes.length - 1)).map (Part.name destination) := by
  have hmax : namedCount size bytes.length ≤ Part.maxNumber :=
    Nat.le_trans (namedCount_le hsize) (by decide)
  rw [Cleanup.Batch.deletable, h.names, Part.filter_isLater_names hmax]

/-- It leaves the destination as it is. -/
theorem get?_sweep (h : BrokenOff bucket destination size bytes s₀ s) (metrics : Metrics) :
    (Cleanup.Batch.sweep ⟨bucket, destination, s.names⟩ ⟨s.store, metrics⟩).store.objects.get?
      (bucket, destination) = s.store.objects.get? (bucket, destination) := by
  have hkept : destination ∉ Cleanup.Batch.deletable ⟨bucket, destination, s.names⟩ := by
    intro hmem
    have hlater := (List.mem_filter.1 hmem).2
    rw [Part.isLater_self] at hlater
    cases hlater
  rw [Cleanup.Batch.sweep,
    Cleanup.sweepNames_objects bucket _ (Memory.safe_of_faultless h.faults),
    if_neg fun hmem => hkept hmem.2]

end BrokenOff

end Session

namespace Uploader

/-- The session in which the stream breaks is closed with its failure. -/
theorem upload_brokenOff {u : Uploader} {script : Reader.Script} {bytes : Bytes}
    {error : IoError} (bucket destination : String) (m : Metered Memory) (hsize : 0 < u.chunkSize)
    (hbreaks : script.Breaks error bytes) (hkind : error.kind ≠ .interrupted)
    (hfaults : m.store.faults = []) :
    ∃ (t : Session Memory) (metrics : Metrics),
      u.upload ⟨bucket, destination, script⟩ m =
        (.failed ⟨destination, .io error⟩, u.close ⟨bucket, destination, script⟩ t,
          ⟨t.store, metrics⟩) ∧
      metrics.composeLimitHits = t.metrics.composeLimitHits ∧
      Session.BrokenOff bucket destination u.chunkSize bytes
        (u.session ⟨bucket, destination, script⟩ m) t := by
  obtain ⟨hflow, hending, hquiet⟩ := hbreaks.flow_eq hkind
  have hchunk := Session.atChunk_session u ⟨bucket, destination, script⟩ m
  have hends : Reader.ending (.buffered script) = .failed error := hending
  have hbytes : Reader.flow (.buffered script) = bytes := hflow
  have hcalm : (composeLimit - 1) * u.chunkSize ∉ Reader.interruptions (.buffered script) := by
    rw [Reader.buffered, Reader.interruptions_of_no_ahead, hquiet]
    exact List.not_mem_nil
  have hrun : ∃ t, Session.run bucket destination (u.session ⟨bucket, destination, script⟩ m) =
      .error (.failed (.io error)) t ∧
      Session.BrokenOff bucket destination u.chunkSize (Reader.flow (.buffered script))
        (u.session ⟨bucket, destination, script⟩ m) t := by
    rcases Nat.lt_or_ge ((composeLimit - 1) * u.chunkSize)
      (Reader.flow (.buffered script)).length with hlong | hshort
    · exact hchunk.run_broken_late hsize hfaults rfl hends hcalm hlong
    · exact hchunk.run_broken_early hsize hfaults rfl hends hcalm hshort
  obtain ⟨t, hrun, hbroken⟩ := hrun
  rw [hbytes] at hbroken
  refine ⟨t, { t.metrics with uploadFailures := t.metrics.uploadFailures + 1 }, ?_, rfl, hbroken⟩
  rw [upload, hrun]

/-- **A read failure ends the upload at the right part**: if the stream breaks after `bytes`, the
store has logged a part for each chunk that they fill, up to the last but one of the limit, and
nothing else; the limit is reached only by a stream that is longer than these parts; the sweep
deletes the later ones of the parts that have been named; and the destination holds the first chunk
if there is one. -/
theorem upload_broken (u : Uploader) (bucket destination : String) (script : Reader.Script)
    (m : Metered Memory) (bytes : Bytes) (error : IoError) (hsize : 0 < u.chunkSize)
    (hbreaks : script.Breaks error bytes) (hkind : error.kind ≠ .interrupted)
    (hfaults : m.store.faults = []) :
    ∃ (u' : Uploader) (m' : Metered Memory) (batch : Cleanup.Batch),
      u.upload ⟨bucket, destination, script⟩ m = (.failed ⟨destination, .io error⟩, u', m') ∧
      m'.store.log = m.store.log ++ (List.range (storedCount u.chunkSize bytes.length)).map
        (fun i => .create (Part.name destination (i + 1)) u.chunkSize true) ∧
      u'.limitHits = u.limitHits + limitCount u.chunkSize bytes.length ∧
      m'.metrics.composeLimitHits =
        m.metrics.composeLimitHits + limitCount u.chunkSize bytes.length ∧
      u'.queue.waiting = u.queue.waiting ++ [batch] ∧
      (batch.sweep m').store.log = m'.store.log ++
        (List.range' 2 (namedCount u.chunkSize bytes.length - 1)).map
          (fun n => .delete (Part.name destination n)) ∧
      (∀ store ∈ [m'.store, (batch.sweep m').store],
        store.objects.get? (bucket, destination) =
          if u.chunkSize ≤ bytes.length then some (bytes.take u.chunkSize)
          else m.store.objects.get? (bucket, destination)) ∧
      (u.queue.waiting = [] → (u'.flush m').2 = batch.sweep m') := by
  obtain ⟨t, metrics, hupload, hcounted, hbroken⟩ :=
    upload_brokenOff bucket destination m hsize hbreaks hkind hfaults
  refine ⟨_, _, ⟨bucket, destination, t.names⟩, hupload, hbroken.log, hbroken.limitHits,
    hcounted.trans hbroken.counted, rfl, ?_, ?_, ?_⟩
  · rw [Cleanup.Batch.sweep,
      Cleanup.sweepNames_log bucket _ (Memory.safe_of_faultless hbroken.faults),
      hbroken.deletable hsize, List.map_map]
    rfl
  · intro store hstore
    rcases List.mem_pair.1 hstore with rfl | rfl
    · exact hbroken.content
    · rw [hbroken.get?_sweep]
      exact hbroken.content
  · intro hqueue
    rw [flush, Cleanup.Queue.flush]
    show ((u.queue.waiting ++ [_]).foldl _ _) = _
    rw [hqueue]
    rfl

/-- The third chunk of a stream fails half way, after reads of two sizes. -/
theorem upload_broken_thirdChunk :
    ∃ (u' : Uploader) (m' : Metered Memory) (batch : Cleanup.Batch),
      (⟨2, 0, {}⟩ : Uploader).upload ⟨"b", "d", [.data [1, 2, 3] none, .notReady,
          .data [4, 5] (some 1), .fail (.ofKind .connectionReset)]⟩ ⟨{}, {}⟩ =
        (.failed ⟨"d", .io (.ofKind .connectionReset)⟩, u', m') ∧
      m'.store.log = [.create "d" 2 true, .create "d.chunk2" 2 true] ∧
      u'.queue.waiting = [batch] ∧
      (batch.sweep m').store.log =
        [.create "d" 2 true, .create "d.chunk2" 2 true, .delete "d.chunk2"] ∧
      (batch.sweep m').store.objects.get? ("b", "d") = some [1, 2] := by
  have hbreaks : Reader.Script.Breaks (.ofKind .connectionReset)
      [.data [1, 2, 3] none, .notReady, .data [4, 5] (some 1),
        .fail (.ofKind .connectionReset)] [1, 2, 3, 4, 5] :=
    .later (show 0 < 3 by decide) (show ([1, 2, 3] : Bytes) ≠ [] by decide) rfl
      (.later (show 0 < 3 by decide) (show ([4] : Bytes) ≠ [] by decide) rfl
        (.later (show 0 < 2 by decide) (show ([5] : Bytes) ≠ [] by decide) rfl
          (.now (show 0 < 1 by decide) rfl)))
  obtain ⟨u', m', batch, hupload, hlog, -, -, hqueue, hswept, hcontent, -⟩ :=
    upload_broken ⟨2, 0, {}⟩ "b" "d" _ ⟨{}, {}⟩ _ _ (by decide) hbreaks (by decide) rfl
  have hlog : m'.store.log = [.create "d" 2 true, .create "d.chunk2" 2 true] := by
    rw [hlog]
    decide
  refine ⟨u', m', batch, hupload, hlog, hqueue, ?_, hcontent _ (by simp)⟩
  rw [hswept, hlog]
  decide

end Uploader

end ChunkedUpload
