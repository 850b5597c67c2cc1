import ChunkedUpload.Proofs.Upload.Progress
import ChunkedUpload.Proofs.Upload.Slices

/-!
# Uploads are lossless

However the reads of a steady stream are fragmented, the calls that an upload makes are those of
`plan`, which knows nothing but the bytes of the stream and the chunk size. The slices make up the
stream again, so that a store without faults holds at the destination just what the stream delivers.
-/

namespace ChunkedUpload

open Call (Ends)

/-- The calls that put `bytes` in place: one for each part, and a compose of two or more. -/
def plan (bucket destination : String) (size : Nat) (bytes : Bytes) : List StoreCall :=
  (slices size bytes).mapIdx (Session.partCall bucket destination) ++
    if 2 ≤ partCount size bytes.length then
      [.compose bucket (Part.names destination (partCount size bytes.length)) destination] else []

variable {size : Nat} {bytes : Bytes}

namespace Session

variable {m : Memory} {bucket destination : String} {s₀ s : Session (Watched Memory)}

/-! ## Cutting -/

/-- After the first `n` parts of a session that began in `s₀`. -/
structure Cut (m : Memory) (bucket destination : String) (size : Nat) (bytes : Bytes)
    (s₀ : Session (Watched Memory)) (n : Nat) (written : Written) (s : Session (Watched Memory)) :
    Prop where
  progress : Progress m bucket destination (slicesUpTo size bytes n) s
  fits : written.Fits m bucket destination (slicesUpTo size bytes n)
  limitHits : s.limitHits = s₀.limitHits + if n = composeLimit then 1 else 0
  counted : s.metrics.composeLimitHits =
    s₀.metrics.composeLimitHits + if n = composeLimit then 1 else 0

/-- Writes the slice after the first `n`, which has been read. -/
theorem Cut.writePart {n : Nat} {written : Written} (hfaults : m.faults = [])
    (h : Cut m bucket destination size bytes s₀ n written s) (hroom : n < composeLimit - 1) :
    Ends (writePart bucket destination (n + 1) (slice size bytes n)) s
      (fun object t => Cut m bucket destination size bytes s₀ (n + 1) (written.add object) t)
      (fun _ _ => False) := by
  have hpart := h.progress.writePart (by rwa [length_slicesUpTo]) (slice size bytes n)
  have hadd := h.fits.add (slice size bytes n)
  rw [length_slicesUpTo, ← slicesUpTo_succ] at hpart hadd
  refine Ends.mono hpart ?_ fun _ _ hstruck => hstruck.1 hfaults
  rintro object t ⟨hprogress, hobject, -, -, hhits, hcounted⟩
  have hthis : n ≠ composeLimit := by omega
  have hnext : n + 1 ≠ composeLimit := by omega
  refine ⟨hprogress, hobject ▸ hadd, ?_, ?_⟩
  · rw [hhits, h.limitHits, if_neg hthis, if_neg hnext]
  · rw [hcounted, h.counted, if_neg hthis, if_neg hnext]

/-- Writes what is left after all parts but the last; there is something. -/
theorem Cut.writeRest {written : Written} (hfaults : m.faults = [])
    (h : Cut m bucket destination size bytes s₀ (composeLimit - 1) written s)
    (hsteady : s.contents.Steady)
    (hcontent : s.contents.content = slice size bytes (composeLimit - 1)) :
    Ends (writeRest bucket destination (composeLimit - 1 + 1)) s
      (fun object t => Cut m bucket destination size bytes s₀ composeLimit (written.add object) t)
      (fun _ _ => False) := by
  obtain ⟨rest, hdrain, -, -⟩ := hsteady.drain
  have hslice : slice size bytes (composeLimit - 1) = s.contents.drain.taken := by
    rw [hdrain, hcontent]
  have hall : slicesUpTo size bytes composeLimit =
      slicesUpTo size bytes (composeLimit - 1) ++ [s.contents.drain.taken] := by
    rw [← hslice, ← slicesUpTo_succ]
    rfl
  have hrest := h.progress.writeRest (length_slicesUpTo _)
  have hadd := h.fits.add s.contents.drain.taken
  rw [length_slicesUpTo] at hrest hadd
  refine Ends.mono hrest ?_ fun _ _ hstruck => hstruck.1 (by rw [hdrain]) hfaults
  rintro object t ⟨hprogress, hobject, hhits, hcounted⟩
  have hbefore : composeLimit - 1 ≠ composeLimit := by decide
  refine ⟨hall ▸ hprogress, hall ▸ hobject ▸ hadd, ?_, ?_⟩
  · rw [hhits, h.limitHits, if_neg hbefore, if_pos rfl]
  · rw [hcounted, h.counted, if_neg hbefore, if_pos rfl]

theorem Cut.sliced (hfaults : m.faults = []) :
    Sliced bucket destination size bytes (Cut m bucket destination size bytes s₀)
      (fun _ _ => False) where
  congr := by
    intro n written s t h ht
    rw [ht]
    exact ⟨h.progress.congr rfl rfl, h.fits, h.limitHits, h.counted⟩
  part hroom _ h := h.writePart hfaults hroom
  rest _ h hsteady hcontent := h.writeRest hfaults hsteady hcontent

/-! ## Whole uploads -/

/-- Before the first part. -/
structure Cutting (m : Memory) (bucket destination : String) (size : Nat) (bytes : Bytes)
    (s : Session (Watched Memory)) : Prop where
  progress : Progress m bucket destination [] s
  reader : AtSlice size bytes 0 s

theorem cutting_session (u : Uploader) (request : UploadRequest) (m : Metered Memory)
    (hsteady : request.script.Steady) :
    Cutting m.store request.bucket request.destination u.chunkSize request.script.content
      (u.session request (Uploader.watch m)) where
  progress := u.progress_session request m
  reader := atSlice_session u request (Uploader.watch m) hsteady

theorem Cutting.run (h : Cutting m bucket destination size bytes s) (hsize : 0 < size)
    (hfaults : m.faults = []) :
    Ends (run bucket destination) s
      (fun object t => Joined m bucket destination (slices size bytes) object t ∧
        t.limitHits = s.limitHits + limitCount size bytes.length ∧
        t.metrics.composeLimitHits =
          s.metrics.composeLimitHits + limitCount size bytes.length)
      (fun _ _ => False) := by
  have hstart : Cut m bucket destination size bytes s 0 .nothing s :=
    ⟨h.progress, rfl, rfl, rfl⟩
  refine Ends.bind ((Cut.sliced hfaults).writeParts hsize h.reader hstart (Nat.zero_add _))
    fun written t hcut => ?_
  have hsome : slices size bytes ≠ [] := by
    rw [← List.length_pos_iff, slices, length_slicesUpTo]
    exact partCount_pos
  refine Ends.mono (hcut.progress.join hsome hcut.fits) ?_ fun _ _ hstruck => hstruck.1 hfaults
  rintro object t' ⟨hjoined, hhits, hcounted⟩
  rw [limitCount_eq hsize]
  exact ⟨hjoined, hhits.trans hcut.limitHits, hcounted.trans hcut.counted⟩

end Session

namespace Uploader

/-- **An upload is lossless and cuts just at the chunk boundaries**: on a store without faults, an
upload of any steady stream stores what the stream delivers, by calls that depend on nothing but
these bytes and the chunk size, and counts whether they are more than fit below the limit. It does
the same to the store when nobody observes it. -/
theorem upload_lossless (u : Uploader) (bucket destination : String) (script : Reader.Script)
    (m : Metered Memory) (bytes : Bytes) (hsize : 0 < u.chunkSize) (hsteady : script.Steady)
    (hdelivers : script.Delivers bytes) (hfaults : m.store.faults = [])
    (hextra : m.store.extra = 0) :
    ∃ (u' : Uploader) (m' : Metered (Watched Memory)),
      u.upload ⟨bucket, destination, script⟩ (watch m) =
        (.stored ⟨bucket, destination, bytes.length⟩, u', m') ∧
      m'.store.store.objects.get? (bucket, destination) = some bytes ∧
      m'.store.calls = plan bucket destination u.chunkSize bytes ∧
      u'.limitHits = u.limitHits + limitCount u.chunkSize bytes.length ∧
      m'.metrics.composeLimitHits =
        m.metrics.composeLimitHits + limitCount u.chunkSize bytes.length ∧
      u.upload ⟨bucket, destination, script⟩ m =
        (.stored ⟨bucket, destination, bytes.length⟩, u', ⟨m'.store.store, m'.metrics⟩) := by
  obtain rfl : bytes = script.content := hsteady.delivers_iff.1 hdelivers
  have hcutting := Session.cutting_session u ⟨bucket, destination, script⟩ m hsteady
  obtain ⟨object, t, hrun, hjoined, hhits, hcounted⟩ := (hcutting.run hsize hfaults).exists_ok
  have hobject : object = ⟨bucket, destination, script.content.length⟩ := by
    rw [hjoined.object, flatten_slices hsize, hextra]
    rfl
  have hupload : u.upload ⟨bucket, destination, script⟩ (watch m) =
      (.stored ⟨bucket, destination, script.content.length⟩,
        u.close ⟨bucket, destination, script⟩ t,
        ⟨t.store, { t.metrics with uploadDurations := t.metrics.uploadDurations + 1 }⟩) := by
    rw [upload, hrun, hobject]
  refine ⟨_, _, hupload, ?_, ?_, hhits, hcounted, ?_⟩
  · rw [hjoined.content, flatten_slices hsize]
  · rw [hjoined.calls, slices, length_slicesUpTo]
    rfl
  · rw [upload_watched, hupload]

theorem upload_lossless_fragmented :
    ∃ (u' : Uploader) (m' : Metered (Watched Memory)),
      (⟨2, 0, {}⟩ : Uploader).upload
          ⟨"b", "d", [.data [1, 2, 3] (some 1), .notReady, .data [4, 5] none]⟩ (watch ⟨{}, {}⟩) =
        (.stored ⟨"b", "d", 5⟩, u', m') ∧
      m'.store.store.objects.get? ("b", "d") = some [1, 2, 3, 4, 5] ∧
      m'.store.calls =
        [.create "b" "d" [1, 2] true, .create "b" "d.chunk2" [3, 4] true,
          .create "b" "d.chunk3" [5] true,
          .compose "b" ["d", "d.chunk2", "d.chunk3"] "d"] := by
  have hsteady : Reader.Script.Steady [.data [1, 2, 3] (some 1), .notReady, .data [4, 5] none] :=
    Reader.Script.steady_of_flows (by simp [Reader.Script.Flows])
  obtain ⟨u', m', hupload, hcontent, hcalls, -⟩ := upload_lossless ⟨2, 0, {}⟩ "b" "d" _ ⟨{}, {}⟩
    [1, 2, 3, 4, 5] (by decide) hsteady (hsteady.delivers_iff.2 rfl) rfl rfl
  exact ⟨u', m', hupload, hcontent, hcalls⟩

end Uploader

end ChunkedUpload
