import Mathlib.Algebra.GroupWithZero.Nat
import ChunkedUpload.Cleanup.Queue
import ChunkedUpload.Proofs.Cleanup.Scheduler
import ChunkedUpload.Proofs.Storage.Watched
import ChunkedUpload.Storage.Memory

/-!
# What a history of sweeps obeys

`swept_in_order` is the whole account of the deletes of a scheduler, whoever submits, flushes and
shuts down in between, and of the `Queue` that one thread keeps and sweeps, which makes one of these
histories. The worker is never stuck while a task waits (`exists_worker_step`), and each of its
steps is one of finitely many (`Scheduler.work`), so a flush and a shutdown are answered
(`exists_drained`).
-/

namespace ChunkedUpload.Cleanup

open Scheduler (Step Steps Run)

variable {es fs : List Event} {s t : Scheduler}

/-! ## Barriers -/

/-- When a flush is answered, the batches submitted before it are done with and of later ones
nothing is begun. -/
theorem done_at_flush {fate : Nat → Nat → Fate} {before between : List Event} {ticket : Nat}
    (htells : Tells fate (before ++ .flush ticket :: between))
    (hrun : Run (before ++ .flush ticket :: between) s) (hs : Step s (.resolve ticket) t) :
    attempts (before ++ .flush ticket :: between) = plan fate (submitted before) ∧
      finished (before ++ .flush ticket :: between) =
        attempts (before ++ .flush ticket :: between) := by
  cases hs with
  | resolve idle oldest =>
    rw [← (Ledger.of_run hrun).before_flush oldest]
    exact (Account.of_run htells hrun).of_rest (.inl idle)

theorem submitted_append (es fs : List Event) :
    submitted (es ++ fs) = submitted es ++ submitted fs := List.filterMap_append

/-- When the worker rests and nothing waits, every batch is done with. -/
theorem done_of_rest (h : Run es s) (hdrained : s.waiting = [])
    (hrest : s.worker = .idle ∨ s.worker = .stopped) {fate : Nat → Nat → Fate}
    (htells : Tells fate es) :
    attempts es = plan fate (submitted es) ∧ finished es = attempts es := by
  have hall := (Ledger.of_run h).submitted_eq
  rw [hdrained, List.filterMap_nil, List.append_nil] at hall
  rw [hall]
  exact (Account.of_run htells h).of_rest hrest

/-- Nothing is submitted to a queue that was shut down. -/
theorem submitted_of_closed (hs : Steps s es t) (closed : s.accepting = false) :
    submitted es = [] := by
  induction hs with
  | nil => rfl
  | cons first _ ih =>
    cases first with
    | submit _ open_ | flush open_ =>
      rw [closed] at open_
      cases open_
    | close => exact ih rfl
    | take | begin | survive | panic | swept | resolve | stop => exact ih closed

/-- How the deletes of a history are related to what was submitted. -/
structure InOrder (es : List Event) : Prop where
  /-- `fates` is how the deletes ended. -/
  told : Tells (fates es) es
  /-- Batch by batch and name by name; a panic takes the rest of its own batch only. -/
  planned : attempts es <+: plan (fates es) (submitted es)
  complete : (∀ a, .ended a .panicked ∉ es) →
    (attempts es).map (·.name) <+: (submitted es).flatMap (·.deletable)
  /-- A failed delete stops nothing. -/
  forgiving : plan (forgiven (fates es)) (submitted es) = plan (fates es) (submitted es)
  listed : ∀ a ∈ attempts es, ∃ b, (submitted es)[a.batch]? = some b ∧ a.bucket = b.bucket ∧
    b.deletable[a.place]? = some a.name
  /-- No entry of a batch is attempted again, also if its delete has failed. -/
  once : ((attempts es).map Attempt.entry).Nodup
  /-- One delete at a time. -/
  single : ∃ current, attempts es = finished es ++ current ∧ current.length ≤ 1
  barrier : ∀ before ticket between after,
    es = before ++ .flush ticket :: between ++ .resolve ticket :: after →
      attempts (before ++ .flush ticket :: between) = plan (fates es) (submitted before) ∧
      finished (before ++ .flush ticket :: between) =
        attempts (before ++ .flush ticket :: between)
  drained : ∀ before after, es = before ++ .stop :: after →
    attempts before = plan (fates es) (submitted es) ∧ finished before = attempts before

theorem inOrder_of_run (h : Run es s) : InOrder es := by
  have htold := fates_tells h
  have haccount := Account.of_run htold h
  have hsubmitted := (Ledger.of_run h).submitted_eq
  have hplanned : attempts es <+: plan (fates es) (submitted es) := by
    rw [hsubmitted]
    exact haccount.attempts_planned.trans (plan_grows _ _ _)
  refine ⟨htold, hplanned, fun hcalm => ?_, planFrom_forgiven 0 _, fun a ha => ?_, haccount.nodup,
    ⟨s.worker.current, haccount.ended.symm, ?_⟩, fun before ticket between after hes => ?_,
    fun before after hes => ?_⟩
  · have hnone : ∀ batch place, fates es batch place ≠ .panicked := fun _ _ hpanicked =>
      let ⟨a, ha⟩ := fates_eq_panicked hpanicked
      hcalm a ha
    rw [← names_planFrom hnone 0]
    exact hplanned.map _
  · exact (mem_planFrom (hplanned.subset ha)).2
  · cases s.worker <;> simp [Worker.current]
  · subst hes
    obtain ⟨u, hrun, hrest⟩ := h.split
    cases hrest with
    | cons hstep _ =>
      exact done_at_flush (fun a outcome hmem => htold a outcome (List.mem_append_left _ hmem))
        hrun hstep
  · subst hes
    obtain ⟨u, hrun, hrest⟩ := h.split
    cases hrest with
    | cons hstep hafter =>
      have hclosed : submitted after = [] := by
        cases hstep with
        | stop _ _ closed => exact submitted_of_closed hafter closed
      have hall : submitted (before ++ .stop :: after) = submitted before := by
        rw [submitted_append]
        exact (congrArg _ hclosed).trans (List.append_nil _)
      rw [hall]
      cases hstep with
      | stop idle drained =>
        exact done_of_rest hrun drained (.inl idle) fun a outcome hmem =>
          htold a outcome (List.mem_append_left _ hmem)

/-! ## The worker is never stuck -/

/-- How many steps a task may take, at the most. -/
def Task.work : Task → Nat
  | .sweep batch => 2 * batch.deletable.length + 2
  | .flush _ => 1

/-- How many steps the worker may take before it comes to its next task, and its stop. -/
def Worker.work : Worker → Nat
  | .idle => 1
  | .sweeping _ _ _ left => 2 * left.length + 2
  | .deleting _ left => 2 * left.length + 3
  | .stopped => 0

/-- How many steps the worker may take before all is done. -/
def Scheduler.work (s : Scheduler) : Nat := s.worker.work + (s.waiting.map (·.work)).sum

def Event.byWorker : Event → Prop
  | .submit _ | .flush _ | .close => False
  | .take _ | .begin _ | .ended .. | .swept | .resolve _ | .stop => True

theorem submitted_of_byWorker (h : ∀ e ∈ es, e.byWorker) : submitted es = [] := by
  refine List.filterMap_eq_nil_iff.2 fun e he => ?_
  cases e with
  | submit | flush | close => exact (h _ he).elim
  | _ => rfl

theorem work_lt_of_step {e : Event} (hs : Step s e t) (hworker : e.byWorker) : t.work < s.work := by
  unfold Scheduler.work
  cases hs with
  | submit | flush | close => exact hworker.elim
  | take now oldest | resolve now oldest =>
    rw [now, oldest]
    simp only [Worker.work, Task.work, List.map_cons, List.sum_cons]
    omega
  | begin now | survive now | panic now | swept now | stop now =>
    rw [now]
    simp only [Worker.work, List.length_cons]
    omega

/-- A worker that stopped has left nothing behind, and nothing comes after. -/
theorem stopped_idle (h : Run es s) :
    s.worker = .stopped → s.waiting = [] ∧ s.accepting = false := by
  refine Scheduler.run_induction
    (P := fun _ s => s.worker = .stopped → s.waiting = [] ∧ s.accepting = false) ?_ ?_ h
  · intro hstopped
    cases hstopped
  · intro es s e t _ ih hs hstopped
    cases hs with
    | submit _ open_ | flush open_ =>
      rw [(ih hstopped).2] at open_
      cases open_
    | close => exact ⟨(ih hstopped).1, rfl⟩
    | stop _ drained closed => exact ⟨drained, closed⟩
    | resolve idle =>
      rw [idle] at hstopped
      cases hstopped
    | take | begin | survive | panic | swept => cases hstopped

/-- While a task waits or is in hand, the worker has a next step. -/
theorem exists_worker_step (h : Run es s)
    (hbusy : s.waiting ≠ [] ∨ s.worker ≠ .idle ∧ s.worker ≠ .stopped) :
    ∃ e t, Step s e t ∧ e.byWorker := by
  cases hworker : s.worker with
  | idle =>
    cases hwaiting : s.waiting with
    | nil => exact (hbusy.elim (absurd hwaiting) fun h => absurd hworker h.1)
    | cons task rest =>
      cases task with
      | sweep batch => exact ⟨_, _, .take hworker hwaiting, trivial⟩
      | flush ticket => exact ⟨_, _, .resolve hworker hwaiting, trivial⟩
  | sweeping batch bucket place left =>
    cases left with
    | nil => exact ⟨_, _, .swept hworker, trivial⟩
    | cons name left => exact ⟨_, _, .begin hworker, trivial⟩
  | deleting a left => exact ⟨_, _, .panic hworker, trivial⟩
  | stopped =>
    exact (hbusy.elim (absurd (stopped_idle h hworker).1) fun h => absurd hworker h.2)

/-- The worker alone comes to the end of what was submitted. -/
theorem exists_drained (h : Run es s) :
    ∃ fs t, Steps s fs t ∧ (∀ e ∈ fs, e.byWorker) ∧ t.waiting = [] ∧
      attempts (es ++ fs) = plan (fates (es ++ fs)) (submitted es) := by
  induction hwork : s.work using Nat.strongRecOn generalizing es s with
  | ind n ih =>
    subst hwork
    by_cases hbusy : s.waiting ≠ [] ∨ s.worker ≠ .idle ∧ s.worker ≠ .stopped
    · obtain ⟨e, t, hs, he⟩ := exists_worker_step h hbusy
      obtain ⟨fs, u, hfs, hworker, hdrained, hall⟩ :=
        ih t.work (work_lt_of_step hs he) (h.append (.cons hs .nil)) rfl
      have hsubmitted : submitted (es ++ [e]) = submitted es := by
        rw [submitted_append, submitted_of_byWorker (List.forall_mem_singleton.2 he),
          List.append_nil]
      rw [← List.append_cons, hsubmitted] at hall
      exact ⟨e :: fs, u, .cons hs hfs, List.forall_mem_cons.2 ⟨he, hworker⟩, hdrained, hall⟩
    · have hdrained : s.waiting = [] := not_not.1 fun hwaiting => hbusy (.inl hwaiting)
      have hrest : s.worker = .idle ∨ s.worker = .stopped := by
        by_contra hrest
        exact hbusy (.inr (not_or.1 hrest))
      refine ⟨[], s, .nil, List.forall_mem_nil _, hdrained, ?_⟩
      rw [List.append_nil]
      exact (done_of_rest h hdrained hrest (fates_tells h)).1

/-! ## The queue that one thread keeps -/

/-- How a delete ends, as the worker sees it. -/
def Fate.of {α : Type} : Except Halt α → Fate
  | .ok _ => .deleted
  | .error (.failed _) => .failed
  | .error .abandoned => .panicked

/-- The delete whose end is seen, as a call on the store. -/
def Event.deleted? : Event → Option (StoreCall × Fate)
  | .ended a fate => some (.delete a.bucket a.name, fate)
  | _ => none

variable {σ : Type}

/-- The calls on a store that were seen, with their ends. -/
def endings (w : Watched σ) : List (StoreCall × Fate) := w.seen.map fun x => (x.call, .of x.ending)

theorem endings_concat (store : σ) (seen : List (Sighting σ)) (x : Sighting σ) :
    endings ⟨store, seen ++ [x]⟩ = endings ⟨store, seen⟩ ++ [(x.call, .of x.ending)] :=
  List.map_append

variable [ObjectStore σ]

theorem endings_delete (bucket key : String) (w : Watched σ) :
    ∃ outcome : Except Halt (Option StoredObject), ∃ v : Watched σ,
      endings v = endings w ++ [(.delete bucket key, .of outcome)] ∧
      ObjectStore.delete bucket key w =
        match outcome with
        | .ok _ => .ok () v
        | .error halt => .error halt v := by
  show ∃ outcome v, _ ∧ Watched.note _ _ (ObjectStore.delete bucket key) w = _
  unfold Watched.note
  cases ObjectStore.delete bucket key w.store with
  | ok _ store => exact ⟨.ok none, _, endings_concat store w.seen ⟨_, .ok none, store⟩, rfl⟩
  | error halt store =>
    exact ⟨.error halt, _, endings_concat store w.seen ⟨_, .error halt, store⟩, rfl⟩

/-- The deletes of one batch, one after another, are steps of the worker. -/
theorem sweepNames_steps {bucket : String} {batch : Nat} :
    ∀ {names : List String} {place : Nat} (s : Scheduler) (m : Metered (Watched σ)),
      s.worker = .sweeping batch bucket place names →
        ∃ es, Steps s es { s with worker := .idle } ∧ (∀ e ∈ es, e.byWorker) ∧
          endings (sweepNames bucket names m).store = endings m.store ++ es.filterMap (·.deleted?)
  | [], place, s, m, hworker =>
    ⟨[.swept], .cons (.swept hworker) .nil, List.forall_mem_singleton.2 trivial,
      (List.append_nil _).symm⟩
  | name :: names, place, s, ⟨store, metrics⟩, hworker => by
    let a : Attempt := ⟨batch, place, bucket, name⟩
    have hbegin : Step s (.begin a) { s with worker := .deleting a names } := .begin hworker
    obtain ⟨outcome, after, hendings, hdelete⟩ := endings_delete bucket name store
    have hgoOn : ∀ fate metrics, fate ≠ .panicked →
        endings after = endings store ++ [(.delete bucket name, fate)] →
        ∃ es, Steps s es { s with worker := .idle } ∧ (∀ e ∈ es, e.byWorker) ∧
          endings (sweepNames bucket names ⟨after, metrics⟩).store =
            endings store ++ es.filterMap (·.deleted?) := by
      intro fate metrics hfate hafter
      obtain ⟨es, hes, hworkers, hseen⟩ := sweepNames_steps
        { s with worker := .sweeping batch bucket (place + 1) names } ⟨after, metrics⟩ rfl
      refine ⟨.begin a :: .ended a fate :: es, .cons hbegin (.cons (.survive rfl hfate) hes),
        List.forall_mem_cons.2 ⟨trivial, List.forall_mem_cons.2 ⟨trivial, hworkers⟩⟩, ?_⟩
      rw [hseen, hafter, List.append_assoc]
      rfl
    rw [sweepNames, hdelete]
    match outcome with
    | .ok _ => exact hgoOn .deleted _ (by decide) hendings
    | .error (.failed _) => exact hgoOn .failed _ (by decide) hendings
    | .error .abandoned =>
      exact ⟨[.begin a, .ended a .panicked], .cons hbegin (.cons (.panic rfl) .nil),
        List.forall_mem_cons.2 ⟨trivial, List.forall_mem_singleton.2 trivial⟩, hendings⟩

namespace Queue

/-- The worker rests, and what waits for it are the batches of the queue. -/
structure StandsFor (q : Queue) (s : Scheduler) : Prop where
  idle : s.worker = .idle
  waiting : s.waiting = q.waiting.map .sweep

variable {q : Queue}

theorem submit_step (h : q.StandsFor s) (open_ : s.accepting = true) (batch : Batch) :
    ∃ t, Step s (.submit batch) t ∧ (q.submit batch).StandsFor t := by
  refine ⟨_, .submit batch open_, h.idle, ?_⟩
  rw [submit, List.map_append, h.waiting]
  rfl

/-- The sweeps of a flush are a run of the worker over all that waits. -/
theorem flush_steps (h : q.StandsFor s) (m : Metered (Watched σ)) :
    ∃ es t, Steps s es t ∧ (∀ e ∈ es, e.byWorker) ∧ (q.flush m).1.StandsFor t ∧
      endings (q.flush m).2.store = endings m.store ++ es.filterMap (·.deleted?) := by
  obtain ⟨batches, count⟩ := q
  obtain ⟨hidle, hwaiting⟩ := h
  show ∃ es t, _ ∧ _ ∧ _ ∧ endings (batches.foldl (fun m batch => batch.sweep m) m).store = _
  induction batches generalizing m s with
  | nil =>
    exact ⟨[], s, .nil, List.forall_mem_nil _, ⟨hidle, hwaiting⟩, (List.append_nil _).symm⟩
  | cons batch batches ih =>
    let next : Scheduler :=
      { s with
        waiting := batches.map .sweep
        worker := .sweeping s.taken batch.bucket 0 batch.deletable
        taken := s.taken + 1 }
    have htake : Step s (.take batch) next := .take hidle hwaiting
    obtain ⟨es, hes, hsweep, hseen⟩ := sweepNames_steps next m rfl
    obtain ⟨fs, u, hfs, hlater, hstands, hrest⟩ :=
      ih (batch.sweep m) (s := { next with worker := .idle }) rfl rfl
    refine ⟨.take batch :: (es ++ fs), u, .cons htake (hes.append hfs),
      List.forall_mem_cons.2 ⟨trivial, List.forall_mem_append.2 ⟨hsweep, hlater⟩⟩, hstands, ?_⟩
    rw [List.foldl_cons, hrest, Batch.sweep, hseen, List.append_assoc, List.filterMap_cons_none rfl,
      List.filterMap_append]

end Queue

/-- The queue is first in, first out, nothing is lost and a flush is a barrier. What one thread does
to a `Queue` is such a history too: a submit is a step, and a flush the steps by which the worker
comes to the end of all that was submitted, with the deletes that the store sees. -/
theorem swept_in_order (h : Run es s) :
    InOrder es ∧
      ∀ q : Queue, q.StandsFor s →
        (s.accepting = true →
          ∀ batch, ∃ t, Step s (.submit batch) t ∧ (q.submit batch).StandsFor t) ∧
        ∀ {σ : Type} [ObjectStore σ] (m : Metered (Watched σ)),
          ∃ fs t, Steps s fs t ∧ (q.flush m).1.StandsFor t ∧ InOrder (es ++ fs) ∧
            finished (es ++ fs) = plan (fates (es ++ fs)) (submitted es) ∧
            endings (q.flush m).2.store = endings m.store ++ fs.filterMap (·.deleted?) := by
  refine ⟨inOrder_of_run h, fun q hstands => ⟨Queue.submit_step hstands, fun m => ?_⟩⟩
  obtain ⟨fs, t, hfs, hworker, hafter, hseen⟩ := Queue.flush_steps hstands m
  have hall := h.append hfs
  have hsubmitted : submitted (es ++ fs) = submitted es := by
    rw [submitted_append, submitted_of_byWorker hworker, List.append_nil]
  obtain ⟨hattempts, hfinished⟩ :=
    done_of_rest hall hafter.waiting (.inl hafter.idle) (fates_tells hall)
  rw [hsubmitted] at hattempts
  exact ⟨fs, t, hfs, hafter, inOrder_of_run hall, hfinished.trans hattempts, hseen⟩

/-! Of the first batch one delete fails and the next panics, so its last name is dropped. Meanwhile
a flush is asked for and a second batch is submitted behind it. -/

def firstBatch : Batch := ⟨"b", "d", ["d", "d.chunk2", "d.chunk3", "d.chunk4"]⟩

def secondBatch : Batch := ⟨"b", "e", ["e", "e.chunk2"]⟩

def busyDay : List Event :=
  [.submit firstBatch, .take firstBatch, .begin ⟨0, 0, "b", "d.chunk2"⟩, .flush 0,
    .ended ⟨0, 0, "b", "d.chunk2"⟩ .failed, .submit secondBatch, .begin ⟨0, 1, "b", "d.chunk3"⟩,
    .ended ⟨0, 1, "b", "d.chunk3"⟩ .panicked, .resolve 0, .take secondBatch,
    .begin ⟨1, 0, "b", "e.chunk2"⟩, .close, .ended ⟨1, 0, "b", "e.chunk2"⟩ .deleted, .swept, .stop]

def dayOver : Scheduler := ⟨[], .stopped, false, 2, 1⟩

theorem run_busyDay : Run busyDay dayOver := by
  have hfirst : firstBatch.deletable = ["d.chunk2", "d.chunk3", "d.chunk4"] := by decide +kernel
  have hsecond : secondBatch.deletable = ["e.chunk2"] := by decide +kernel
  have evening : Steps ⟨[], .sweeping 1 "b" 0 ["e.chunk2"], true, 2, 1⟩ (busyDay.drop 10) dayOver :=
    .cons (.begin rfl) <| .cons .close <| .cons (.survive rfl (by decide)) <|
      .cons (.swept rfl) <| .cons (.stop rfl rfl rfl) .nil
  have noon : Steps ⟨[], .sweeping 0 "b" 0 ["d.chunk2", "d.chunk3", "d.chunk4"], true, 1, 0⟩
      (busyDay.drop 2) dayOver := by
    refine .cons (.begin rfl) <| .cons (.flush rfl) <| .cons (.survive rfl (by decide)) <|
      .cons (.submit _ rfl) <| .cons (.begin rfl) <| .cons (.panic rfl) <|
      .cons (.resolve rfl rfl) <| .cons (.take rfl rfl) ?_
    rw [← hsecond] at evening
    exact evening
  rw [← hfirst] at noon
  exact .cons (.submit _ rfl) <| .cons (.take rfl rfl) noon

/-! The same batches in the queue that one thread keeps. -/

def bothBatches : Queue := ⟨[firstBatch, secondBatch], 2⟩

def bothWait : Scheduler := ⟨[.sweep firstBatch, .sweep secondBatch], .idle, true, 0, 0⟩

theorem run_bothWait : Run [.submit firstBatch, .submit secondBatch] bothWait :=
  .cons (.submit _ rfl) (.cons (.submit _ rfl) .nil)

def unseen : Metered (Watched Memory) := ⟨⟨{}, []⟩, {}⟩

theorem swept_in_order_busyDay :
    (Run busyDay dayOver ∧ InOrder busyDay ∧
      (attempts busyDay).map (·.name) = ["d.chunk2", "d.chunk3", "e.chunk2"]) ∧
    Run [.submit firstBatch, .submit secondBatch] bothWait ∧ bothBatches.StandsFor bothWait ∧
    ∃ fs t, Steps bothWait fs t ∧ (bothBatches.flush unseen).1.StandsFor t ∧
      InOrder (.submit firstBatch :: .submit secondBatch :: fs) ∧
      finished (.submit firstBatch :: .submit secondBatch :: fs) =
        plan (fates (.submit firstBatch :: .submit secondBatch :: fs)) [firstBatch, secondBatch] ∧
      endings (bothBatches.flush unseen).2.store = fs.filterMap (·.deleted?) := by
  have hstands : bothBatches.StandsFor bothWait := ⟨rfl, rfl⟩
  obtain ⟨-, hqueue⟩ := swept_in_order run_bothWait
  exact ⟨⟨run_busyDay, (swept_in_order run_busyDay).1, rfl⟩, run_bothWait, hstands,
    (hqueue bothBatches hstands).2 unseen⟩

end ChunkedUpload.Cleanup
