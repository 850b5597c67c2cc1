import Mathlib
import ChunkedUpload.Proofs.Upload.Counters
import ChunkedUpload.Storage.Memory

/-!
# The accounts of an uploader

A `Shift` serves uploads through one uploader and sweeps their batches, in any order. Each errand
adds to the counters what its own calls add up to (`serve_adds`, `sweep_adds`), so the shift stays
`Balanced`. When no batch waits any more, that gives its `Accounts` (`counters_account`). A delete
that crashes is in none of the counters (`counters_crash`).
-/

namespace ChunkedUpload

/-! ## Uploads and sweeps in any order -/

/-- An upload that was served, with the calls that it has made. -/
structure Visit (σ : Type) where
  request : UploadRequest
  ending : Ending
  seen : List (Sighting σ)

namespace Visit

variable {σ : Type} (v : Visit σ)

/-- Where the upload set out to write parts. -/
def attempted : List Address := v.seen.filterMap (·.call.partAddress?)

/-- Whether it set out to write the last part that a compose can take. -/
def overflowed : Bool :=
  decide ((v.request.bucket, Part.name v.request.destination composeLimit) ∈ v.attempted)

/-- What it leaves to be swept. -/
def batch : Cleanup.Batch :=
  ⟨v.request.bucket, v.request.destination, v.attempted.map (·.2)⟩

end Visit

/-- What is known of the calls of one upload. -/
structure Visit.Orderly {σ : Type} (v : Visit σ) : Prop where
  attempted : ∃ n ≤ composeLimit,
    v.attempted = (Part.names v.request.destination n).map (v.request.bucket, ·)
  rests : v.seen.countP (·.call.isRest) = if v.overflowed then 1 else 0
  deletes : v.seen.countP (·.call.isDelete) = 0

theorem Session.Tallied.visit {σ : Type} {request : UploadRequest} {m : Metrics} {hits n : Nat}
    {t : Session (Watched σ)} (h : Tallied request.bucket request.destination m hits n t)
    (hlimit : n ≤ composeLimit) (ending : Ending) :
    let v : Visit σ := ⟨request, ending, t.store.seen⟩
    v.Orderly ∧ t.limitHits = hits + (if v.overflowed then 1 else 0) ∧
      v.batch = ⟨request.bucket, request.destination, t.names⟩ := by
  intro v
  have hattempted : v.attempted = (Part.names request.destination n).map (request.bucket, ·) :=
    h.attempted
  have hoverflowed : v.overflowed = decide (n = composeLimit) := by
    have hmem : (request.bucket, Part.name request.destination composeLimit) ∈ v.attempted ↔
        ∃ i < n, Part.name request.destination (i + 1) =
          Part.name request.destination composeLimit := by
      rw [hattempted, ← Part.mem_names]
      simp
    refine decide_eq_decide.2 (hmem.trans ⟨fun hlast => ?_, fun hn => ?_⟩)
    · obtain ⟨i, hi, hname⟩ := hlast
      have hmax : composeLimit ≤ Part.maxNumber := by decide
      have hnumber := (Part.name_inj (Nat.succ_pos i) (by decide) (by omega) hmax).1 hname
      omega
    · exact ⟨composeLimit - 1, by rw [hn]; decide, rfl⟩
  refine ⟨⟨⟨n, hlimit, hattempted⟩, ?_, h.deletes⟩, ?_, ?_⟩
  · rw [hoverflowed, h.rests]
    exact (if_congr decide_eq_true_iff rfl rfl).symm
  · rw [hoverflowed, h.limitHits]
    exact congrArg (hits + ·) (if_congr decide_eq_true_iff rfl rfl).symm
  · rw [Visit.batch, hattempted, List.map_map, h.names]
    exact congrArg _ (List.map_id _)

/-- All parts that it set out to write are deleted afterwards, but for the first. -/
theorem Visit.Orderly.length_deletable {σ : Type} {v : Visit σ} (h : v.Orderly) :
    v.batch.deletable.length = v.attempted.length - 1 := by
  obtain ⟨n, hlimit, hattempted⟩ := h.attempted
  have hmax : composeLimit ≤ Part.maxNumber := by decide
  have hnames : v.attempted.map (·.2) = Part.names v.request.destination n := by
    rw [hattempted, List.map_map]
    exact List.map_id _
  rw [Cleanup.Batch.deletable, Visit.batch]
  dsimp only
  rw [hnames, Part.filter_isLater_names (Nat.le_trans hlimit hmax), List.length_map,
    List.length_range', hattempted, List.length_map, Part.length_names]

/-- A batch that was swept, with the calls that the sweep has made. -/
structure Sweep (σ : Type) where
  batch : Cleanup.Batch
  seen : List (Sighting σ)

/-- What an uploader is asked to do next. -/
inductive Errand
  | upload (request : UploadRequest)
  /-- To sweep the batch that has waited longest. -/
  | sweep

def Errand.request? : Errand → Option UploadRequest
  | upload request => some request
  | sweep => none

/-- An uploader at work on a store, with what it has done so far. -/
structure Shift (σ : Type) where
  uploader : Uploader
  metered : Metered σ
  visits : List (Visit σ) := []
  sweeps : List (Sweep σ) := []

namespace Shift

variable {σ : Type}

/-- All calls that were made. -/
def calls (x : Shift σ) : List (Sighting σ) :=
  x.visits.flatMap (·.seen) ++ x.sweeps.flatMap (·.seen)

/-! ## What is added up -/

/-- A shift that was begun by the uploader `u` with the counters `m`. -/
structure Balanced (u : Uploader) (m : Metrics) (x : Shift σ) : Prop where
  metrics : x.metered.metrics = (m.served (x.visits.map (·.ending))).count x.calls
  limitHits : x.uploader.limitHits = u.limitHits + x.visits.countP (·.overflowed)
  submitted : x.uploader.queue.submitted = u.queue.submitted + x.visits.length
  batches : x.sweeps.map (·.batch) ++ x.uploader.queue.waiting = x.visits.map (·.batch)
  visits : ∀ v ∈ x.visits, v.Orderly
  sweeps : ∀ s ∈ x.sweeps, Cleanup.Swept s.batch.bucket s.batch.deletable s.seen

namespace Balanced

variable {u : Uploader} {m : Metrics} {x : Shift σ}

/-- Only the rest of a stream is written without being cut. -/
theorem rests (h : Balanced u m x) :
    x.calls.countP (·.call.isRest) = x.visits.countP (·.overflowed) := by
  have hsweeps : (x.sweeps.flatMap (·.seen)).countP (·.call.isRest) = 0 := by
    refine List.countP_eq_zero.2 fun y hy => ?_
    obtain ⟨s, hs, hy⟩ := List.mem_flatMap.1 hy
    exact StoreCall.not_isRest ((h.sweeps s hs).isDelete y hy)
  rw [calls, List.countP_append, hsweeps, Nat.add_zero]
  have hvisits := h.visits
  generalize x.visits = visits at hvisits
  induction visits with
  | nil => rfl
  | cons v visits ih =>
    obtain ⟨hv, hvisits⟩ := List.forall_mem_cons.1 hvisits
    rw [List.flatMap_cons, List.countP_append, hv.rests, ih hvisits, List.countP_cons, Nat.add_comm]

theorem deletes (h : Balanced u m x) :
    x.calls.countP (·.deleted) + x.calls.countP (·.refused) +
        (x.sweeps.map fun s => Cleanup.spared s.batch.deletable s.seen).sum =
      (x.sweeps.map fun s => s.batch.deletable.length).sum := by
  have hvisits : ∀ p : Sighting σ → Bool, (∀ y, p y = true → y.call.isDelete = true) →
      (x.visits.flatMap (·.seen)).countP p = 0 := by
    intro p hp
    refine List.countP_eq_zero.2 fun y hy hdelete => ?_
    obtain ⟨v, hv, hy⟩ := List.mem_flatMap.1 hy
    exact List.countP_eq_zero.1 (h.visits v hv).deletes y hy (hp y hdelete)
  rw [calls, List.countP_append, List.countP_append,
    hvisits _ fun _ => Sighting.isDelete_of_deleted,
    hvisits _ fun _ => Sighting.isDelete_of_refused, Nat.zero_add, Nat.zero_add]
  have hsweeps := h.sweeps
  generalize x.sweeps = sweeps at hsweeps
  induction sweeps with
  | nil => rfl
  | cons s sweeps ih =>
    obtain ⟨hs, hsweeps⟩ := List.forall_mem_cons.1 hsweeps
    have hcounted := hs.counted
    have hsum := ih hsweeps
    simp only [List.flatMap_cons, List.countP_append, List.map_cons, List.sum_cons]
    omega

end Balanced

/-- What `x` has added to the counters `m` and to those of the uploader `u`, when no batch waits any
more. -/
structure Accounts (u : Uploader) (m : Metrics) (x : Shift σ) : Prop where
  started : x.metered.metrics.uploadsStarted = m.uploadsStarted + x.visits.length
  failures : x.metered.metrics.uploadFailures =
    m.uploadFailures + x.visits.countP (·.ending.isFailed)
  durations : x.metered.metrics.uploadDurations =
    m.uploadDurations + x.visits.countP (·.ending.isStored)
  parts : x.metered.metrics.partsUploaded =
    m.partsUploaded + (x.calls.filterMap (·.partSize?)).length
  bytes : x.metered.metrics.bytesUploaded =
    m.bytesUploaded + (x.calls.filterMap (·.partSize?)).sum
  composes : x.metered.metrics.composeRequests =
    m.composeRequests + x.calls.countP (·.call.isCompose)
  limits : x.metered.metrics.composeLimitHits =
    m.composeLimitHits + x.visits.countP (·.overflowed)
  limitHits : x.uploader.limitHits = u.limitHits + x.visits.countP (·.overflowed)
  submitted : x.uploader.queue.submitted = u.queue.submitted + x.visits.length
  deletes : x.metered.metrics.cleanupDeletes = m.cleanupDeletes + x.calls.countP (·.deleted)
  refusals : x.metered.metrics.cleanupFailures = m.cleanupFailures + x.calls.countP (·.refused)
  /-- Each upload is swept once, in the order of the uploads. -/
  batches : x.sweeps.map (·.batch) = x.visits.map (·.batch)
  /-- A sweep deletes the later parts, up to a delete that crashes. -/
  sweeps : ∀ s ∈ x.sweeps, Cleanup.Swept s.batch.bucket s.batch.deletable s.seen
  /-- Later parts are counted once, but for those that a crash has spared. -/
  later : x.metered.metrics.cleanupDeletes + x.metered.metrics.cleanupFailures +
      (x.sweeps.map fun s => Cleanup.spared s.batch.deletable s.seen).sum =
    m.cleanupDeletes + m.cleanupFailures + (x.visits.map fun v => v.attempted.length - 1).sum

theorem Balanced.accounts {u : Uploader} {m : Metrics} {x : Shift σ} (h : Balanced u m x)
    (hdrained : x.uploader.queue.waiting = []) : Accounts u m x := by
  have hbatches : x.sweeps.map (·.batch) = x.visits.map (·.batch) := by
    rw [← h.batches, hdrained, List.append_nil]
  have hlater : (x.sweeps.map fun s => s.batch.deletable.length).sum =
      (x.visits.map fun v => v.attempted.length - 1).sum := by
    calc (x.sweeps.map fun s => s.batch.deletable.length).sum
        = ((x.sweeps.map (·.batch)).map (·.deletable.length)).sum := by
          rw [List.map_map]
          rfl
      _ = (x.visits.map fun v => v.batch.deletable.length).sum := by
          rw [hbatches, List.map_map]
          rfl
      _ = (x.visits.map fun v => v.attempted.length - 1).sum :=
          congrArg List.sum (List.map_congr_left fun v hv => (h.visits v hv).length_deletable)
  have hdeletes := congrArg Metrics.cleanupDeletes h.metrics
  have hrefusals := congrArg Metrics.cleanupFailures h.metrics
  exact {
    started := by
      rw [h.metrics, ← List.length_map (·.ending)]
      rfl
    failures := by
      rw [h.metrics]
      exact congrArg _ (List.countP_map ..)
    durations := by
      rw [h.metrics]
      exact congrArg _ (List.countP_map ..)
    parts := congrArg Metrics.partsUploaded h.metrics
    bytes := congrArg Metrics.bytesUploaded h.metrics
    composes := congrArg Metrics.composeRequests h.metrics
    limits := by
      rw [← h.rests]
      exact congrArg Metrics.composeLimitHits h.metrics
    limitHits := h.limitHits
    submitted := h.submitted
    deletes := hdeletes
    refusals := hrefusals
    batches := hbatches
    sweeps := h.sweeps
    later := by
      rw [hdeletes, hrefusals, ← hlater, ← h.deletes]
      simp only [Metrics.count, Metrics.served]
      omega }

/-! ## Running errands -/

variable [ObjectStore σ]

/-- Serves an upload, and notes what an observer of the store sees of it. -/
def serve (request : UploadRequest) (x : Shift σ) : Shift σ :=
  let (ending, uploader, metered) := x.uploader.upload request x.metered
  let seen := (x.uploader.upload request (Uploader.watch x.metered)).2.2.store.seen
  { x with uploader, metered, visits := x.visits ++ [⟨request, ending, seen⟩] }

/-- Sweeps the batch that has waited longest, if any waits, and notes what is seen of it. -/
def sweep (x : Shift σ) : Shift σ :=
  match x.uploader.queue.waiting with
  | [] => x
  | batch :: waiting =>
    { x with
      uploader := { x.uploader with queue := { x.uploader.queue with waiting } }
      metered := batch.sweep x.metered
      sweeps := x.sweeps ++ [⟨batch, (batch.sweep (Uploader.watch x.metered)).store.seen⟩] }

theorem sweep_of_waiting {x : Shift σ} {batch : Cleanup.Batch} {waiting : List Cleanup.Batch}
    (h : x.uploader.queue.waiting = batch :: waiting) :
    x.sweep =
      { x with
        uploader := { x.uploader with queue := { x.uploader.queue with waiting } }
        metered := batch.sweep x.metered
        sweeps := x.sweeps ++
          [⟨batch, (batch.sweep (Uploader.watch x.metered)).store.seen⟩] } := by
  unfold sweep
  rw [h]

def perform (x : Shift σ) : Errand → Shift σ
  | .upload request => x.serve request
  | .sweep => x.sweep

/-- Runs errands one after another. -/
def run (errands : List Errand) (x : Shift σ) : Shift σ := errands.foldl perform x

/-- Sweeps all batches that wait. -/
def flush (x : Shift σ) : Shift σ := x.uploader.queue.waiting.foldl (fun x _ => x.sweep) x

/-- That is to flush the uploader. -/
theorem flush_eq (x : Shift σ) :
    (x.flush.uploader, x.flush.metered) = x.uploader.flush x.metered := by
  have hfold : ∀ (waiting : List Cleanup.Batch) (x : Shift σ),
      x.uploader.queue.waiting = waiting →
      let y := waiting.foldl (fun x _ => x.sweep) x
      y.uploader = { x.uploader with queue := ⟨[], x.uploader.queue.submitted⟩ } ∧
        y.metered = waiting.foldl (fun m batch => batch.sweep m) x.metered := by
    intro waiting
    induction waiting with
    | nil =>
      intro x hx
      obtain ⟨⟨size, hits, ⟨waiting, submitted⟩⟩, metered, visits, sweeps⟩ := x
      obtain rfl : waiting = [] := hx
      exact ⟨rfl, rfl⟩
    | cons batch waiting ih =>
      intro x hx
      rw [List.foldl_cons, List.foldl_cons, sweep_of_waiting hx]
      exact ih _ rfl
  obtain ⟨huploader, hmetered⟩ := hfold _ x rfl
  exact Prod.ext huploader hmetered

/-! ## What an errand adds -/

/-- `y` is `x` after one more upload. -/
structure Served (x : Shift σ) (v : Visit σ) (y : Shift σ) : Prop where
  orderly : v.Orderly
  visits : y.visits = x.visits ++ [v]
  sweeps : y.sweeps = x.sweeps
  metrics : y.metered.metrics = (x.metered.metrics.served [v.ending]).count v.seen
  limitHits : y.uploader.limitHits = x.uploader.limitHits + if v.overflowed then 1 else 0
  queue : y.uploader.queue = x.uploader.queue.submit v.batch

omit [ObjectStore σ] in
/-- Whichever way the upload ends, its session is closed alike. -/
theorem served_of_tallied {request : UploadRequest} {start : Metrics} {n : Nat}
    {x : Shift σ} {t : Session (Watched σ)} {metrics : Metrics}
    (h : Session.Tallied request.bucket request.destination start x.uploader.limitHits n t)
    (hlimit : n ≤ composeLimit) (ending : Ending)
    (hmetrics : metrics = (x.metered.metrics.served [ending]).count t.store.seen) :
    Served x ⟨request, ending, t.store.seen⟩
      ⟨x.uploader.close request t, ⟨t.store.store, metrics⟩,
        x.visits ++ [⟨request, ending, t.store.seen⟩], x.sweeps⟩ := by
  obtain ⟨horderly, hhits, hbatch⟩ := h.visit hlimit ending
  refine ⟨horderly, rfl, rfl, hmetrics, hhits, ?_⟩
  rw [hbatch]
  rfl

/-- An upload adds what its calls and its ending add up to, and leaves one batch. -/
theorem serve_adds (request : UploadRequest) (x : Shift σ) :
    ∃ v : Visit σ, v.request = request ∧ Served x v (x.serve request) := by
  have hstart : Session.Tallied request.bucket request.destination
      { x.metered.metrics with uploadsStarted := x.metered.metrics.uploadsStarted + 1 }
      x.uploader.limitHits 0 (x.uploader.session request (Uploader.watch x.metered)) :=
    ⟨rfl, rfl, rfl, rfl, rfl, rfl⟩
  have hrun := hstart.run
  unfold Call.Ends at hrun
  unfold serve
  -- what was noted is of the watched run, so the run itself is told by it as well
  rw [Uploader.upload_watched]
  unfold Uploader.upload
  rcases hresult : Session.run request.bucket request.destination
      (x.uploader.session request (Uploader.watch x.metered)) with ⟨object, t⟩ | ⟨cause | _, t⟩ <;>
    rw [hresult] at hrun <;> obtain ⟨n, hlimit, ht⟩ := hrun
  · refine ⟨_, rfl, served_of_tallied ht hlimit (.stored object) ?_⟩
    dsimp only
    rw [ht.metrics]
    rfl
  · refine ⟨_, rfl, served_of_tallied ht hlimit (.failed ⟨request.destination, cause⟩) ?_⟩
    dsimp only
    rw [ht.metrics]
    rfl
  · exact ⟨_, rfl, served_of_tallied ht hlimit .cancelled ht.metrics⟩

/-- A sweep adds what its deletes add up to. -/
theorem sweep_adds {x : Shift σ} {batch : Cleanup.Batch} {waiting : List Cleanup.Batch}
    (h : x.uploader.queue.waiting = batch :: waiting) :
    ∃ seen, Cleanup.Swept batch.bucket batch.deletable seen ∧
      x.sweep.visits = x.visits ∧ x.sweep.sweeps = x.sweeps ++ [⟨batch, seen⟩] ∧
      x.sweep.metered.metrics = x.metered.metrics.count seen ∧
      x.sweep.uploader.limitHits = x.uploader.limitHits ∧
      x.sweep.uploader.queue = ⟨waiting, x.uploader.queue.submitted⟩ := by
  obtain ⟨seen, hswept, hwatched, hmetrics⟩ :=
    Cleanup.sweepNames_seen batch.bucket batch.deletable ⟨x.metered.store, []⟩ x.metered.metrics
  have hseen : (batch.sweep (Uploader.watch x.metered)).store.seen = seen := by
    rw [Cleanup.Batch.sweep, Uploader.watch, hwatched]
    rfl
  rw [sweep_of_waiting h, hseen]
  exact ⟨seen, hswept, rfl, rfl, hmetrics, rfl, rfl⟩

/-! ## What all errands add -/

namespace Balanced

variable {u : Uploader} {m : Metrics} {x : Shift σ}

theorem serve (h : Balanced u m x) (request : UploadRequest) :
    Balanced u m (x.serve request) := by
  obtain ⟨v, -, hserved⟩ := serve_adds request x
  constructor
  case metrics =>
    rw [hserved.metrics, h.metrics, calls, calls, hserved.visits, hserved.sweeps, List.map_append,
      List.flatMap_append, List.map_singleton, List.flatMap_singleton, Metrics.served_append,
      Metrics.served_count]
    -- the new calls stand before those of the sweeps
    simp only [Metrics.count_append]
    rw [Metrics.count_comm]
  case limitHits =>
    rw [hserved.limitHits, hserved.visits, h.limitHits, List.countP_append, List.countP_singleton,
      Nat.add_assoc]
  case submitted =>
    rw [hserved.queue, hserved.visits, List.length_append]
    show _ + 1 = _
    rw [h.submitted]
    rfl
  case batches =>
    rw [hserved.queue, hserved.visits, hserved.sweeps, List.map_append, ← h.batches,
      List.append_assoc]
    rfl
  case visits =>
    intro w hw
    rw [hserved.visits, List.mem_append, List.mem_singleton] at hw
    rcases hw with hw | rfl
    · exact h.visits w hw
    · exact hserved.orderly
  case sweeps =>
    rw [hserved.sweeps]
    exact h.sweeps

theorem sweep (h : Balanced u m x) : Balanced u m x.sweep := by
  cases hwaiting : x.uploader.queue.waiting with
  | nil =>
    have hsame : x.sweep = x := by
      unfold Shift.sweep
      rw [hwaiting]
    rw [hsame]
    exact h
  | cons batch waiting =>
    obtain ⟨seen, hswept, hvisits, hsweeps, hmetrics, hhits, hqueue⟩ := sweep_adds hwaiting
    constructor
    case metrics =>
      rw [hmetrics, h.metrics, calls, calls, hvisits, hsweeps, List.flatMap_append,
        List.flatMap_singleton, ← Metrics.count_append, List.append_assoc]
    case limitHits => rw [hhits, hvisits, h.limitHits]
    case submitted => rw [hqueue, hvisits, ← h.submitted]
    case batches =>
      rw [hqueue, hvisits, hsweeps, ← h.batches, hwaiting, List.map_append, List.append_assoc]
      rfl
    case visits =>
      rw [hvisits]
      exact h.visits
    case sweeps =>
      intro s hs
      rw [hsweeps, List.mem_append, List.mem_singleton] at hs
      rcases hs with hs | rfl
      · exact h.sweeps s hs
      · exact hswept

theorem perform (h : Balanced u m x) : ∀ errand, Balanced u m (x.perform errand)
  | .upload request => h.serve request
  | .sweep => h.sweep

theorem run (h : Balanced u m x) (errands : List Errand) : Balanced u m (x.run errands) := by
  induction errands generalizing x with
  | nil => exact h
  | cons errand errands ih => exact ih (h.perform errand)

theorem flush (h : Balanced u m x) : Balanced u m x.flush := by
  unfold Shift.flush
  generalize x.uploader.queue.waiting = waiting
  induction waiting generalizing x with
  | nil => exact h
  | cons _ waiting ih => exact ih h.sweep

end Balanced

theorem visits_sweep (x : Shift σ) : x.sweep.visits = x.visits := by
  unfold sweep
  split <;> rfl

/-- The uploads that were served are those that were asked for. -/
theorem requests_run (errands : List Errand) (x : Shift σ) :
    (x.run errands).visits.map (·.request) =
      x.visits.map (·.request) ++ errands.filterMap Errand.request? := by
  induction errands generalizing x with
  | nil => exact (List.append_nil _).symm
  | cons errand errands ih =>
    refine (ih (x.perform errand)).trans ?_
    cases errand with
    | upload request =>
      obtain ⟨v, hrequest, hserved⟩ := serve_adds request x
      rw [perform, hserved.visits, List.map_append, List.map_singleton, hrequest,
        List.append_assoc]
      rfl
    | sweep =>
      rw [perform, visits_sweep]
      rfl

theorem visits_flush (x : Shift σ) : x.flush.visits = x.visits := by
  unfold flush
  generalize x.uploader.queue.waiting = waiting
  induction waiting generalizing x with
  | nil => rfl
  | cons _ waiting ih => exact (ih x.sweep).trans x.visits_sweep

/-- **The counters account for what has happened**: however uploads and sweeps follow each other and
whatever the store does, after the last batch is swept each counter has grown by what the calls and
the endings of the uploads add up to. -/
theorem counters_account {σ : Type} [ObjectStore σ] (u : Uploader) (m : Metered σ)
    (errands : List Errand) (hidle : u.queue.waiting = []) :
    let x := (run errands ⟨u, m, [], []⟩).flush
    x.visits.map (·.request) = errands.filterMap Errand.request? ∧ Accounts u m.metrics x := by
  intro x
  have hstart : Balanced u m.metrics (⟨u, m, [], []⟩ : Shift σ) :=
    ⟨rfl, rfl, rfl, hidle, nofun, nofun⟩
  have hflush : x.uploader = _ := congrArg (·.1) (flush_eq (run errands ⟨u, m, [], []⟩))
  refine ⟨?_, (hstart.run errands).flush.accounts ?_⟩
  · rw [visits_flush, requests_run]
    rfl
  · rw [hflush]
    rfl

/-- The second upload is refused its second part, and the delete of the first upload's fails. -/
theorem counters_account_faults :
    let u : Uploader := ⟨1, 0, {}⟩
    let m : Metered Memory := ⟨{ faults := [
      ⟨.create, some 4, none, false, .failed (.protocol "refused")⟩,
      ⟨.delete, some 1, none, false, .failed (.protocol "refused")⟩] }, {}⟩
    let x := (run [.upload ⟨"b", "d", [.data [1, 2] none]⟩, .sweep,
      .upload ⟨"b", "e", [.data [3, 4] none]⟩] ⟨u, m, [], []⟩).flush
    u.queue.waiting = [] ∧ Accounts u m.metrics x ∧
      x.metered.metrics = ⟨2, 1, 3, 3, 1, 0, 1, 1, 1⟩ :=
  ⟨rfl, (counters_account _ _ _ rfl).2, by cbv⟩

/-- A delete that crashes is counted neither as done nor as failed. -/
theorem counters_crash :
    let m : Metered Memory := ⟨{ faults := [⟨.delete, none, none, false, .abandoned⟩] }, {}⟩
    let x := (run [.upload ⟨"b", "d", [.data [1, 2] none]⟩] ⟨⟨1, 0, {}⟩, m, [], []⟩).flush
    x.uploader.queue.waiting = [] ∧
      x.metered.metrics.cleanupDeletes + x.metered.metrics.cleanupFailures = 0 ∧
      (x.visits.map fun v => v.attempted.length - 1).sum = 1 := by
  cbv

end Shift

end ChunkedUpload
