import ChunkedUpload.Proofs.Storage.Footprint

/-!
# Uploads to unrelated destinations

The parts of an upload are `Owned` by its request, and no two `Unrelated` requests own the same
place (`Unrelated.disjoint`). So in a schedule that serves jobs and sweeps their batches in turn,
the turns of the others cannot be told from the places of one job (`run_alike`): each job ends as if
it were alone, and leaves its places so, whatever the order of the turns (`order_irrelevant`).
-/

namespace ChunkedUpload

namespace Schedule

open Memory (SameOn)

/-! ## Places -/

/-- A place that an upload may write to: its destination or a later part of it. -/
def Owned (request : UploadRequest) (a : Address) : Prop :=
  a.1 = request.bucket ∧
    (a.2 = request.destination ∨ Part.isLater request.destination a.2 = true)

/-- The destinations are different, and in one bucket neither is a later part of the other. -/
structure Unrelated (r r' : UploadRequest) : Prop where
  distinct : (r.bucket, r.destination) ≠ (r'.bucket, r'.destination)
  apart : r.bucket = r'.bucket → Part.isLater r.destination r'.destination = false ∧
    Part.isLater r'.destination r.destination = false

theorem Unrelated.disjoint {r r' : UploadRequest} (h : Unrelated r r') {a : Address}
    (ha : Owned r a) : ¬ Owned r' a := by
  intro ha'
  have hbucket : r.bucket = r'.bucket := ha.1.symm.trans ha'.1
  have hdistinct : r.destination ≠ r'.destination :=
    fun heq => h.distinct (Prod.ext hbucket heq)
  obtain ⟨hnot, hnot'⟩ := h.apart hbucket
  rcases ha.2 with hself | hlater <;> rcases ha'.2 with hself' | hlater'
  · exact hdistinct (hself.symm.trans hself')
  · rw [← hself, hlater'] at hnot'
    cases hnot'
  · rw [← hself', hlater] at hnot
    cases hnot
  · exact hdistinct (Part.eq_of_isLater hlater hlater')

theorem owned_names (request : UploadRequest) :
    ∀ name ∈ Part.names request.destination composeLimit, Owned request (request.bucket, name) := by
  intro name hname
  obtain ⟨i, hi, rfl⟩ := Part.mem_names.1 hname
  have hmax : composeLimit ≤ Part.maxNumber := by decide
  refine ⟨rfl, ?_⟩
  by_cases hfirst : i = 0
  · subst hfirst
    exact .inl rfl
  · refine .inr ?_
    dsimp only
    rw [Part.isLater_name (Nat.succ_pos i) (by omega), decide_eq_true (by omega)]

/-! ## Jobs and turns -/

/-- An upload that is to be served, and who serves it. -/
structure Job where
  uploader : Uploader
  request : UploadRequest

/-- The same upload with parts of the same size. -/
def Job.Same (job job' : Job) : Prop :=
  job'.request = job.request ∧ job'.uploader.chunkSize = job.uploader.chunkSize

/-- One turn of a schedule: a job is served, or what it has submitted is swept. -/
inductive Turn (ι : Type)
  | serve (job : ι)
  | sweep (job : ι)
  deriving DecidableEq

/-- The job whose turn it is. -/
def Turn.job {ι : Type} : Turn ι → ι
  | serve job => job
  | sweep job => job

/-- A store, with how the jobs that were served have ended and the batches that they submitted. -/
structure World (ι : Type) where
  metered : Metered Memory
  served : ι → Option (Ending × List Cleanup.Batch) := fun _ => none

/-- Serves a job: how it ends, the batches that it adds to the queue, and the store it leaves. -/
def Job.serve (job : Job) (m : Metered Memory) :
    Ending × List Cleanup.Batch × Metered Memory :=
  let (ending, uploader, m) := job.uploader.upload job.request m
  (ending, uploader.queue.waiting.drop job.uploader.queue.waiting.length, m)

variable {ι : Type} [DecidableEq ι]

namespace World

/-- Serves job `i`. -/
def serve (i : ι) (job : Job) (w : World ι) : World ι :=
  let (ending, batches, metered) := job.serve w.metered
  ⟨metered, fun j => if j = i then some (ending, batches) else w.served j⟩

/-- Sweeps what job `i` has submitted; before it is served that is nothing. -/
def sweep (i : ι) (w : World ι) : World ι :=
  match w.served i with
  | none => w
  | some (_, batches) =>
    { w with metered := (Cleanup.Queue.flush ⟨batches, batches.length⟩ w.metered).2 }

omit [DecidableEq ι] in
theorem served_sweep (i : ι) (w : World ι) : (w.sweep i).served = w.served := by
  unfold sweep
  split <;> rfl

theorem served_serve (i j : ι) (job : Job) (w : World ι) :
    (w.serve i job).served j =
      if j = i then some ((job.serve w.metered).1, (job.serve w.metered).2.1) else w.served j := rfl

omit [DecidableEq ι] in
theorem sweep_of_none {i : ι} {w : World ι} (h : w.served i = none) : w.sweep i = w := by
  unfold sweep
  rw [h]

omit [DecidableEq ι] in
theorem sweep_of_some {i : ι} {w : World ι} {ending : Ending} {batches : List Cleanup.Batch}
    (h : w.served i = some (ending, batches)) :
    (w.sweep i).metered = (Cleanup.Queue.flush ⟨batches, batches.length⟩ w.metered).2 := by
  unfold sweep
  rw [h]

end World

/-- Plays one turn. -/
def play (jobs : ι → Job) (w : World ι) : Turn ι → World ι
  | .serve i => w.serve i (jobs i)
  | .sweep i => w.sweep i

/-- Plays turns one after another. -/
def run (jobs : ι → Job) (turns : List (Turn ι)) (m : Metered Memory) : World ι :=
  turns.foldl (play jobs) { metered := m }

/-! ## Serving -/

variable {places : Address → Prop} {m m' : Metered Memory} {v : Memory} {job job' : Job}

/-- A job submits one batch. -/
theorem Job.serve_submits (job : Job) (m : Metered Memory) :
    ∃ names, (job.serve m).2.1 = [⟨job.request.bucket, job.request.destination, names⟩] := by
  obtain ⟨u, request⟩ := job
  have hsubmits : ∀ s : Session Memory,
      (u.close request s).queue.waiting.drop u.queue.waiting.length =
        [⟨request.bucket, request.destination, s.names⟩] := fun s => List.drop_left
  unfold serve Uploader.upload
  dsimp only
  rcases Session.run request.bucket request.destination (u.session request m) with
    ⟨_, s⟩ | ⟨_ | _, s⟩ <;> exact ⟨s.names, hsubmits s⟩

/-- A job that finds the same in its own places ends the same and leaves them the same. -/
theorem Job.serve_alike (hsame : job.Same job')
    (h : SameOn (Owned job.request) m.store m'.store) :
    (job'.serve m').1 = (job.serve m).1 ∧ (job'.serve m').2.1 = (job.serve m).2.1 ∧
      SameOn (Owned job.request) (job.serve m).2.2.store (job'.serve m').2.2.store := by
  obtain ⟨u, bucket, destination, script⟩ := job
  obtain ⟨u', request'⟩ := job'
  obtain ⟨hrequest, hsize⟩ := hsame
  dsimp only at hrequest hsize
  subst hrequest
  obtain ⟨ending, s, t, metrics, metrics', hs, ht, hstores, hnames, -⟩ :=
    Uploader.upload_twins False hsize (SameOn.paired (owned_names ⟨bucket, destination, script⟩))
      (Reader.paced_refl _) h rfl False.elim
  unfold serve
  dsimp only
  rw [hs, ht]
  refine ⟨rfl, ?_, hstores⟩
  show List.drop _ (_ ++ _) = List.drop _ (_ ++ _)
  rw [List.drop_left, List.drop_left, hnames]

/-- A job leaves what is in other places. -/
theorem Job.serve_elsewhere (job : Job) (hplaces : ∀ a, Owned job.request a → ¬ places a)
    (h : SameOn places m.store v) : SameOn places (job.serve m).2.2.store v := by
  have hkeeps : Session.Keeps job.request.bucket job.request.destination
      fun m => SameOn places m v :=
    SameOn.keeps fun name hname => hplaces _ (owned_names job.request name hname)
  obtain ⟨ending, t, metrics, hupload, hending⟩ :=
    Uploader.upload_ends job.uploader job.request (m := m) (hkeeps.run h)
  unfold serve
  rw [hupload]
  rcases hending with ⟨-, -, ht⟩ | ⟨-, -, ht⟩ | ⟨-, ht⟩ <;> exact ht

/-! ## Sweeping -/

theorem flush_alike (batches : List Cleanup.Batch) (count : Nat)
    (h : SameOn places m.store m'.store) :
    SameOn places (Cleanup.Queue.flush ⟨batches, count⟩ m).2.store
      (Cleanup.Queue.flush ⟨batches, count⟩ m').2.store := by
  unfold Cleanup.Queue.flush
  dsimp only
  induction batches generalizing m m' with
  | nil => exact h
  | cons batch batches ih => exact ih (h.sweepNames batch.deletable)

theorem flush_elsewhere (request : UploadRequest) (names : List String) (count : Nat)
    (hplaces : ∀ a, Owned request a → ¬ places a) (h : SameOn places m.store v) :
    let batch : Cleanup.Batch := ⟨request.bucket, request.destination, names⟩
    SameOn places (Cleanup.Queue.flush ⟨[batch], count⟩ m).2.store v := by
  refine SameOn.sweepNames_elsewhere (fun name hname => hplaces _ ⟨rfl, .inr ?_⟩) h
  exact (List.mem_filter.1 hname).2

/-! ## Turn by turn -/

/-- What a world remembers of a job is what the job has submitted. -/
def World.Faithful (jobs : ι → Job) (w : World ι) : Prop :=
  ∀ i ending batches, w.served i = some (ending, batches) →
    ∃ names, batches = [⟨(jobs i).request.bucket, (jobs i).request.destination, names⟩]

variable {jobs jobs' : ι → Job} {i : ι} {w w' : World ι}

theorem World.Faithful.play (h : w.Faithful jobs) (turn : Turn ι) :
    (Schedule.play jobs w turn).Faithful jobs := by
  cases turn with
  | serve j =>
    intro k ending batches hk
    rw [Schedule.play, served_serve] at hk
    by_cases hjk : k = j
    · rw [if_pos hjk, Option.some.injEq, Prod.mk.injEq] at hk
      rw [← hk.2, hjk]
      exact (jobs j).serve_submits w.metered
    · rw [if_neg hjk] at hk
      exact h k ending batches hk
  | sweep j =>
    intro k ending batches hk
    rw [Schedule.play, served_sweep] at hk
    exact h k ending batches hk

/-- A turn leaves what is in the places of other jobs. -/
theorem play_elsewhere (hfaithful : w.Faithful jobs) {turn : Turn ι}
    (hplaces : ∀ a, Owned (jobs turn.job).request a → ¬ places a)
    (h : SameOn places w.metered.store v) : SameOn places (play jobs w turn).metered.store v := by
  cases turn with
  | serve j => exact (jobs j).serve_elsewhere hplaces h
  | sweep j =>
    show SameOn places (w.sweep j).metered.store v
    cases hj : w.served j with
    | none =>
      rw [World.sweep_of_none hj]
      exact h
    | some served =>
      obtain ⟨ending, batches⟩ := served
      obtain ⟨names, rfl⟩ := hfaithful j ending batches hj
      rw [World.sweep_of_some hj]
      exact flush_elsewhere (jobs j).request names _ hplaces h

/-- The worlds are the same for job `i`: in its places, and in what is remembered of it. -/
structure Alike (jobs : ι → Job) (i : ι) (w w' : World ι) : Prop where
  stores : SameOn (Owned (jobs i).request) w.metered.store w'.metered.store
  served : w'.served i = w.served i

/-- Its own turn keeps them the same. -/
theorem Alike.play (hsame : (jobs i).Same (jobs' i)) (h : Alike jobs i w w') {turn : Turn ι}
    (hturn : turn.job = i) :
    Alike jobs i (Schedule.play jobs w turn) (Schedule.play jobs' w' turn) := by
  cases turn with
  | serve j =>
    obtain rfl : j = i := hturn
    obtain ⟨hending, hbatches, hstores⟩ := Job.serve_alike hsame h.stores
    refine ⟨hstores, ?_⟩
    show (w'.serve j (jobs' j)).served j = (w.serve j (jobs j)).served j
    rw [World.served_serve, World.served_serve, if_pos rfl, if_pos rfl, hending, hbatches]
  | sweep j =>
    obtain rfl : j = i := hturn
    have hserved : w'.served j = w.served j := h.served
    refine ⟨?_, ?_⟩
    case refine_2 =>
      rw [Schedule.play, Schedule.play, World.served_sweep, World.served_sweep, hserved]
    show SameOn _ (w.sweep j).metered.store (w'.sweep j).metered.store
    cases hj : w.served j with
    | none =>
      rw [World.sweep_of_none hj, World.sweep_of_none (hserved.trans hj)]
      exact h.stores
    | some served =>
      rw [World.sweep_of_some hj, World.sweep_of_some (hserved.trans hj)]
      exact flush_alike served.2 _ h.stores

/-- So does a turn of a job whose places are elsewhere. -/
theorem Alike.skip (hfaithful : w.Faithful jobs) (h : Alike jobs i w w') {turn : Turn ι}
    (hplaces : ∀ a, Owned (jobs turn.job).request a → ¬ Owned (jobs i).request a)
    (hturn : turn.job ≠ i) : Alike jobs i (Schedule.play jobs w turn) w' := by
  refine ⟨play_elsewhere hfaithful hplaces h.stores, h.served.trans ?_⟩
  cases turn with
  | serve j =>
    show w.served i = (w.serve j (jobs j)).served i
    rw [World.served_serve, if_neg fun heq => hturn heq.symm]
  | sweep j =>
    show w.served i = (w.sweep j).served i
    rw [World.served_sweep]

/-! ## Whole schedules -/

/-- The turns of the other jobs make no difference to a job. -/
theorem run_alike (hsame : (jobs i).Same (jobs' i))
    (hplaces : ∀ j, j ≠ i → ∀ a, Owned (jobs j).request a → ¬ Owned (jobs i).request a) :
    ∀ (turns : List (Turn ι)) {w w' : World ι}, w.Faithful jobs → Alike jobs i w w' →
      Alike jobs i (turns.foldl (play jobs) w)
        ((turns.filter (·.job = i)).foldl (play jobs') w')
  | [], _, _, _, h => h
  | turn :: turns, w, w', hfaithful, h => by
    rw [List.foldl_cons, List.filter_cons]
    by_cases hturn : turn.job = i
    · rw [if_pos (decide_eq_true hturn), List.foldl_cons]
      exact run_alike hsame hplaces turns (hfaithful.play turn) (h.play hsame hturn)
    · rw [if_neg (by simpa using hturn)]
      exact run_alike hsame hplaces turns (hfaithful.play turn)
        (h.skip hfaithful (hplaces _ hturn) hturn)

/-- No turn makes a difference to a place that no job owns. -/
theorem run_elsewhere (hplaces : ∀ j a, Owned (jobs j).request a → ¬ places a) :
    ∀ (turns : List (Turn ι)) {w : World ι}, w.Faithful jobs →
      SameOn places w.metered.store v →
      SameOn places (turns.foldl (play jobs) w).metered.store v
  | [], _, _, h => h
  | turn :: turns, _, hfaithful, h =>
    run_elsewhere hplaces turns (hfaithful.play turn)
      (play_elsewhere hfaithful (hplaces turn.job) h)

/-- In any schedule that serves a job and sweeps its batch later, the job fares as if it were alone,
served by whomever. -/
theorem run_alone {turns : List (Turn ι)} {m m' : Metered Memory}
    (hsame : (jobs i).Same (jobs' i))
    (hunrelated : ∀ j, j ≠ i → Unrelated (jobs j).request (jobs i).request)
    (hturns : turns.filter (·.job = i) = [.serve i, .sweep i])
    (hfaults : m.store.faults = []) (hstore : m'.store = m.store) :
    Alike jobs i (run jobs turns m) (run jobs' [.serve i, .sweep i] m') := by
  have hfaithful : World.Faithful jobs ({ metered := m } : World ι) := nofun
  have hstart : Alike jobs i ({ metered := m } : World ι) { metered := m' } := by
    refine ⟨?_, rfl⟩
    dsimp only
    rw [hstore]
    exact SameOn.refl _ hfaults
  have hplaces : ∀ j, j ≠ i → ∀ a, Owned (jobs j).request a → ¬ Owned (jobs i).request a :=
    fun j hj _ ha => (hunrelated j hj).disjoint ha
  have hrun := run_alike hsame hplaces turns hfaithful hstart
  rwa [hturns] at hrun

/-- **Uploads to unrelated destinations do not affect each other**: in every schedule that serves
each job and sweeps its batch later, however the turns are ordered and whichever uploaders serve the
jobs, each job ends as it would alone, and the same objects are left. -/
theorem order_irrelevant {ι : Type} [DecidableEq ι] (jobs jobs' : ι → Job)
    (turns turns' : List (Turn ι)) (m m' : Metered Memory)
    (hsame : ∀ i, (jobs i).Same (jobs' i))
    (hunrelated : ∀ i j, i ≠ j → Unrelated (jobs i).request (jobs j).request)
    (hturns : ∀ i, turns.filter (·.job = i) = [.serve i, .sweep i])
    (hturns' : ∀ i, turns'.filter (·.job = i) = [.serve i, .sweep i])
    (hfaults : m.store.faults = []) (hstore : m'.store = m.store) :
    (∀ i, ((run jobs turns m).served i).map (·.1) =
        some ((jobs i).uploader.upload (jobs i).request m).1 ∧
      ((run jobs' turns' m').served i).map (·.1) =
        some ((jobs i).uploader.upload (jobs i).request m).1) ∧
    ∀ a, (run jobs turns m).metered.store.objects.get? a =
      (run jobs' turns' m').metered.store.objects.get? a := by
  have hrequest : ∀ i, (jobs' i).request = (jobs i).request := fun i => (hsame i).1
  -- both schedules are compared with the one in which the job is alone
  have halike : ∀ i, Alike jobs i (run jobs turns m) (run jobs [.serve i, .sweep i] m) :=
    fun i => run_alone ⟨rfl, rfl⟩ (fun j hj => hunrelated j i hj) (hturns i) hfaults rfl
  have halike' : ∀ i, Alike jobs' i (run jobs' turns' m') (run jobs [.serve i, .sweep i] m) := by
    intro i
    refine run_alone ⟨(hsame i).1.symm, (hsame i).2.symm⟩ (fun j hj => ?_) (hturns' i)
      (hstore ▸ hfaults) hstore.symm
    rw [hrequest, hrequest]
    exact hunrelated j i hj
  have hended : ∀ i, ((run jobs [.serve i, .sweep i] m).served i).map (·.1) =
      some ((jobs i).uploader.upload (jobs i).request m).1 := by
    intro i
    show ((World.sweep i _).served i).map (·.1) = _
    rw [World.served_sweep]
    show (((World.serve i (jobs i) _).served i)).map (·.1) = _
    rw [World.served_serve, if_pos rfl]
    rfl
  refine ⟨fun i => ⟨?_, ?_⟩, fun a => ?_⟩
  · rw [← (halike i).served, hended]
  · rw [← (halike' i).served, hended]
  · by_cases howned : ∃ i, Owned (jobs i).request a
    · obtain ⟨i, ha⟩ := howned
      have ha' : Owned (jobs' i).request a := hrequest i ▸ ha
      rw [← (halike i).stores.objects a ha, (halike' i).stores.objects a ha']
    · have hnone : ∀ i a', Owned (jobs i).request a' → ¬ a' = a :=
        fun i a' ha' heq => howned ⟨i, heq ▸ ha'⟩
      have hnone' : ∀ i a', Owned (jobs' i).request a' → ¬ a' = a :=
        fun i a' ha' => hnone i a' (hrequest i ▸ ha')
      have hrun := run_elsewhere (v := m.store) hnone turns (w := { metered := m }) nofun
        (SameOn.refl _ hfaults)
      have hrun' := run_elsewhere (v := m.store) hnone' turns' (w := { metered := m' }) nofun
        (by rw [hstore]; exact SameOn.refl _ hfaults)
      exact (hrun.objects a rfl).symm.trans (hrun'.objects a rfl)

/-- Two uploads whose destinations look alike: `d.chunk2` would be a part of `d`, but `d.chunk` and
its part `d.chunk.chunk2` are none. One stream fails, and the other one is never ready again. -/
theorem order_irrelevant_lookalikes :
    let jobs : Bool → Job := fun
      | false => ⟨⟨1, 0, {}⟩, "b", "d", [.data [1, 2] none, .fail (.ofKind .timedOut)]⟩
      | true => ⟨⟨2, 0, {}⟩, "b", "d.chunk", [.data [3, 4, 5, 6] none, .stall]⟩
    let together := run jobs [.serve false, .serve true, .sweep true, .sweep false] ⟨{}, {}⟩
    let apart := run jobs [.serve true, .sweep true, .serve false, .sweep false] ⟨{}, {}⟩
    (∀ i, (together.served i).map (·.1) = (apart.served i).map (·.1)) ∧
      ∀ a, together.metered.store.objects.get? a = apart.metered.store.objects.get? a := by
  intro jobs together apart
  have hunrelated : ∀ i j, i ≠ j → Unrelated (jobs i).request (jobs j).request := by
    have hapart : Part.isLater "d" "d.chunk" = false ∧ Part.isLater "d.chunk" "d" = false := by
      decide
    intro i j hij
    cases i <;> cases j
    · exact absurd rfl hij
    · exact ⟨by decide, fun _ => hapart⟩
    · exact ⟨by decide, fun _ => hapart.symm⟩
    · exact absurd rfl hij
  obtain ⟨hended, hobjects⟩ := order_irrelevant jobs jobs
    [.serve false, .serve true, .sweep true, .sweep false]
    [.serve true, .sweep true, .serve false, .sweep false] ⟨{}, {}⟩ ⟨{}, {}⟩
    (fun _ => ⟨rfl, rfl⟩) hunrelated (by decide) (by decide) rfl rfl
  exact ⟨fun i => (hended i).1.trans (hended i).2.symm, hobjects⟩

end Schedule

end ChunkedUpload
