import Mathlib.Data.List.Basic
import ChunkedUpload.Cleanup.Scheduler

/-!
# The queue is swept in order and a flush is a barrier

Two accounts are kept by every step of a scheduler. `Ledger`: the tasks that were put into the queue
are those that the worker has taken, in the same order, followed by those that wait. `Account`: the
deletes that have begun, followed by what the worker has still to attempt of the batch that it is
at, are the plan of the batches it has taken. When the worker is idle nothing of the second is left,
so the first says where the sweeping has come to: at a flush to the batches submitted before it
(`Ledger.before_flush`), at the end to all of them (`swept_in_order`).
-/

namespace ChunkedUpload.Cleanup

/-! ## The plan -/

section Plan

variable {fate : Nat → Nat → Fate}

theorem planFrom_append (fate : Nat → Nat → Fate) :
    ∀ (number : Nat) (before after : List Batch),
      planFrom fate number (before ++ after) =
        planFrom fate number before ++ planFrom fate (number + before.length) after
  | _, [], _ => rfl
  | number, batch :: before, after => by
    rw [List.cons_append, planFrom, planFrom, planFrom_append fate (number + 1) before after,
      List.append_assoc, List.length_cons, Nat.add_assoc, Nat.add_comm 1]

theorem plan_snoc (fate : Nat → Nat → Fate) (batches : List Batch) (batch : Batch) :
    plan fate (batches ++ [batch]) = plan fate batches ++
      attemptsFrom (fate batches.length) batches.length batch.bucket 0 batch.deletable := by
  rw [plan, planFrom_append, planFrom, planFrom, List.append_nil, Nat.zero_add, plan]

theorem plan_grows (fate : Nat → Nat → Fate) (before after : List Batch) :
    plan fate before <+: plan fate (before ++ after) :=
  ⟨_, (planFrom_append fate 0 before after).symm⟩

theorem mem_attemptsFrom {f : Nat → Fate} {batch : Nat} {bucket : String} {a : Attempt} :
    ∀ {place : Nat} {names : List String}, a ∈ attemptsFrom f batch bucket place names →
      a.batch = batch ∧ a.bucket = bucket ∧ place ≤ a.place ∧
        names[a.place - place]? = some a.name
  | _, [], h => by cases h
  | place, name :: names, h => by
    rcases List.mem_cons.1 h with rfl | h
    · exact ⟨rfl, rfl, Nat.le_refl _, by rw [Nat.sub_self]; rfl⟩
    · split at h
      · cases h
      · obtain ⟨hbatch, hbucket, hplace, hname⟩ := mem_attemptsFrom h
        refine ⟨hbatch, hbucket, by omega, ?_⟩
        rw [show a.place - place = (a.place - (place + 1)) + 1 by omega]
        exact hname

theorem mem_planFrom {a : Attempt} :
    ∀ {number : Nat} {batches : List Batch}, a ∈ planFrom fate number batches →
      number ≤ a.batch ∧ ∃ b, batches[a.batch - number]? = some b ∧ a.bucket = b.bucket ∧
        b.deletable[a.place]? = some a.name
  | _, [], h => by cases h
  | number, batch :: batches, h => by
    rcases List.mem_append.1 h with h | h
    · obtain ⟨rfl, hbucket, -, hname⟩ := mem_attemptsFrom h
      exact ⟨Nat.le_refl _, batch, by rw [Nat.sub_self]; rfl, hbucket, hname⟩
    · obtain ⟨hnumber, b, hb, hrest⟩ := mem_planFrom h
      refine ⟨by omega, b, ?_, hrest⟩
      rw [show a.batch - number = (a.batch - (number + 1)) + 1 by omega]
      exact hb

/-- Which entry of which batch an attempt is for. -/
def Attempt.entry (a : Attempt) : Nat × Nat := (a.batch, a.place)

theorem nodup_attemptsFrom (f : Nat → Fate) (batch : Nat) (bucket : String) :
    ∀ (place : Nat) (names : List String),
      ((attemptsFrom f batch bucket place names).map Attempt.entry).Nodup
  | _, [] => List.nodup_nil
  | place, name :: names => by
    rw [attemptsFrom, List.map_cons, List.nodup_cons]
    split
    · exact ⟨List.not_mem_nil, List.nodup_nil⟩
    · refine ⟨fun hmem => ?_, nodup_attemptsFrom f batch bucket (place + 1) names⟩
      obtain ⟨a, ha, hentry⟩ := List.mem_map.1 hmem
      have hplace := (mem_attemptsFrom ha).2.2.1
      have heq : a.place = place := congrArg Prod.snd hentry
      omega

theorem nodup_planFrom (fate : Nat → Nat → Fate) :
    ∀ (number : Nat) (batches : List Batch),
      ((planFrom fate number batches).map Attempt.entry).Nodup
  | _, [] => List.nodup_nil
  | number, batch :: batches => by
    rw [planFrom, List.map_append]
    refine List.nodup_append.2 ⟨nodup_attemptsFrom _ _ _ _ _, nodup_planFrom fate _ batches, ?_⟩
    intro here hhere later hlater heq
    obtain ⟨a, ha, rfl⟩ := List.mem_map.1 hhere
    obtain ⟨c, hc, rfl⟩ := List.mem_map.1 hlater
    have hbatch := (mem_attemptsFrom ha).1
    have hlow := (mem_planFrom hc).1
    have hsame : a.batch = c.batch := congrArg Prod.fst heq
    omega

theorem names_attemptsFrom {f : Nat → Fate} (h : ∀ place, f place ≠ .panicked) (batch : Nat)
    (bucket : String) :
    ∀ (place : Nat) (names : List String),
      (attemptsFrom f batch bucket place names).map (·.name) = names
  | _, [] => rfl
  | place, name :: names => by
    rw [attemptsFrom, if_neg (h place), List.map_cons, names_attemptsFrom h batch bucket]

/-- Where nothing panics, all deletable names of all batches are attempted. -/
theorem names_planFrom (h : ∀ batch place, fate batch place ≠ .panicked) :
    ∀ (number : Nat) (batches : List Batch),
      (planFrom fate number batches).map (·.name) = batches.flatMap (·.deletable)
  | _, [] => rfl
  | number, batch :: batches => by
    rw [planFrom, List.map_append, names_attemptsFrom (h number), names_planFrom h,
      List.flatMap_cons]

/-- Had each failed delete gone through. -/
def forgiven (fate : Nat → Nat → Fate) (batch place : Nat) : Fate :=
  if fate batch place = .failed then .deleted else fate batch place

theorem forgiven_eq_panicked {batch place : Nat} :
    forgiven fate batch place = .panicked ↔ fate batch place = .panicked := by
  rw [forgiven]
  cases fate batch place <;> decide

theorem attemptsFrom_forgiven (number batch : Nat) (bucket : String) :
    ∀ (place : Nat) (names : List String),
      attemptsFrom (forgiven fate number) batch bucket place names =
        attemptsFrom (fate number) batch bucket place names
  | _, [] => rfl
  | place, name :: names => by
    rw [attemptsFrom, attemptsFrom, attemptsFrom_forgiven number batch bucket (place + 1) names]
    simp only [forgiven_eq_panicked]

/-- A failing delete stops nothing. -/
theorem planFrom_forgiven :
    ∀ (number : Nat) (batches : List Batch),
      planFrom (forgiven fate) number batches = planFrom fate number batches
  | _, [] => rfl
  | number, batch :: batches => by
    rw [planFrom, planFrom, attemptsFrom_forgiven, planFrom_forgiven (number + 1) batches]

end Plan

namespace Scheduler

variable {s t u : Scheduler} {es fs : List Event} {e : Event}

namespace Steps

theorem append (h : Steps s es t) (h' : Steps t fs u) : Steps s (es ++ fs) u := by
  induction h with
  | nil => exact h'
  | cons first _ ih => exact .cons first (ih h')

/-- A run passes through a state after each of its events. -/
theorem split : ∀ {es : List Event} {s : Scheduler}, Steps s (es ++ fs) u →
    ∃ t, Steps s es t ∧ Steps t fs u
  | [], s, h => ⟨s, .nil, h⟩
  | _ :: _, _, .cons first rest => by
    obtain ⟨t, hes, hfs⟩ := split rest
    exact ⟨t, .cons first hes, hfs⟩

end Steps

/-- What holds of a new scheduler and is kept by every step holds after every run. -/
theorem run_induction {P : List Event → Scheduler → Prop} (new : P [] {})
    (step : ∀ {es s e t}, Run es s → P es s → Step s e t → P (es ++ [e]) t) (h : Run es s) :
    P es s := by
  suffices h' : ∀ {es fs s t}, Run es s → P es s → Steps s fs t → P (es ++ fs) t from
    @h' [] es {} s .nil new h
  intro es fs s t hrun hP hs
  induction hs generalizing es with
  | nil => rwa [List.append_nil]
  | cons first _ ih =>
    rw [List.append_cons]
    exact ih (hrun.append (.cons first .nil)) (step hrun hP first)

end Scheduler

/-! ## First in, first out -/

def Event.queued? : Event → Option Task
  | .submit batch => some (.sweep batch)
  | .flush ticket => some (.flush ticket)
  | _ => none

def Event.handled? : Event → Option Task
  | .take batch => some (.sweep batch)
  | .resolve ticket => some (.flush ticket)
  | _ => none

def Task.batch? : Task → Option Batch
  | .sweep batch => some batch
  | .flush _ => none

def Task.ticket? : Task → Option Nat
  | .sweep _ => none
  | .flush ticket => some ticket

/-- The tasks that were put into the queue, first come first. -/
def queued (es : List Event) : List Task := es.filterMap Event.queued?

/-- The tasks that the worker has taken from the queue. -/
def handled (es : List Event) : List Task := es.filterMap Event.handled?

section

variable (es : List Event) (e : Event)

theorem queued_snoc : queued (es ++ [e]) = queued es ++ e.queued?.toList := by
  rw [queued, List.filterMap_append, queued]
  cases e <;> rfl

theorem handled_snoc : handled (es ++ [e]) = handled es ++ e.handled?.toList := by
  rw [handled, List.filterMap_append, handled]
  cases e <;> rfl

theorem submitted_eq : submitted es = (queued es).filterMap Task.batch? := by
  rw [submitted, queued, List.filterMap_filterMap]
  exact congrArg (List.filterMap · es) (funext fun e => by cases e <;> rfl)

theorem taken_eq : taken es = (handled es).filterMap Task.batch? := by
  rw [taken, handled, List.filterMap_filterMap]
  exact congrArg (List.filterMap · es) (funext fun e => by cases e <;> rfl)

end

/-- The queue hands out what was put in, in that order, and no ticket is given out twice. -/
structure Ledger (es : List Event) (s : Scheduler) : Prop where
  fifo : queued es = handled es ++ s.waiting
  tickets : (queued es).filterMap Task.ticket? = List.range s.tickets

namespace Ledger

open Scheduler (Step Steps Run)

variable {s t : Scheduler} {es fs : List Event} {e : Event}

theorem new : Ledger [] {} := ⟨rfl, rfl⟩

theorem step (h : Ledger es s) (hs : Step s e t) : Ledger (es ++ [e]) t := by
  obtain ⟨hfifo, htickets⟩ := h
  refine ⟨?_, ?_⟩
  · rw [queued_snoc, handled_snoc, hfifo]
    cases hs with
    | submit | flush => simp only [Event.queued?, Event.handled?, Option.toList, List.append_nil,
        List.append_assoc]
    | take _ oldest | resolve _ oldest =>
      rw [oldest]
      exact (List.append_nil _).trans (List.append_cons ..)
    | close | begin | survive | panic | swept | stop =>
      simp only [Event.queued?, Event.handled?, Option.toList, List.append_nil]
  · rw [queued_snoc, List.filterMap_append, htickets]
    cases hs with
    | flush => exact List.range_succ.symm
    | submit | close | take | begin | survive | panic | swept | resolve | stop =>
      exact List.append_nil _

theorem of_run (hs : Run es s) : Ledger es s :=
  Scheduler.run_induction new (fun _ h hs => h.step hs) hs

theorem submitted_eq (h : Ledger es s) :
    submitted es = taken es ++ s.waiting.filterMap (·.batch?) := by
  rw [Cleanup.submitted_eq, h.fifo, List.filterMap_append, taken_eq]

/-- When the worker comes to a flush, it has taken what was submitted before. -/
theorem before_flush {before between : List Event} {ticket : Nat} {rest : List Task}
    (h : Ledger (before ++ .flush ticket :: between) s)
    (oldest : s.waiting = .flush ticket :: rest) :
    taken (before ++ .flush ticket :: between) = submitted before := by
  have hqueued : queued (before ++ .flush ticket :: between) =
      queued before ++ .flush ticket :: queued between := List.filterMap_append
  have honce := h.tickets ▸ List.nodup_range (n := s.tickets)
  rw [hqueued, List.filterMap_append] at honce
  have hfresh := List.nodup_append.1 honce
  have hbefore : Task.flush ticket ∉ queued before := fun hmem =>
    hfresh.2.2 ticket (List.mem_filterMap.2 ⟨_, hmem, rfl⟩) ticket List.mem_cons_self rfl
  have hbetween : Task.flush ticket ∉ queued between := fun hmem =>
    (List.nodup_cons.1 hfresh.2.1).1 (List.mem_filterMap.2 ⟨_, hmem, rfl⟩)
  have hfifo := h.fifo
  rw [hqueued, oldest] at hfifo
  obtain ⟨hhandled, -, -⟩ := (List.append_cons_inj_of_notMem hbefore hbetween).1 hfifo
  rw [taken_eq, ← hhandled, Cleanup.submitted_eq]

end Ledger

/-! ## What has been attempted -/

/-- What the worker has yet to attempt of the batch that it is at. -/
def Worker.pending (fate : Nat → Nat → Fate) : Worker → List Attempt
  | .sweeping batch bucket place left => attemptsFrom (fate batch) batch bucket place left
  | .deleting a left =>
    if fate a.batch a.place = .panicked then []
    else attemptsFrom (fate a.batch) a.batch a.bucket (a.place + 1) left
  | .idle | .stopped => []

/-- The delete that has begun and not ended. -/
def Worker.current : Worker → List Attempt
  | .deleting attempt _ => [attempt]
  | .idle | .sweeping .. | .stopped => []

/-- `fate` is how the deletes ended that were seen to end. -/
def Tells (fate : Nat → Nat → Fate) (es : List Event) : Prop :=
  ∀ a outcome, Event.ended a outcome ∈ es → fate a.batch a.place = outcome

/-- Every delete of the batches that the worker has taken is done, in hand or still to come. -/
structure Account (fate : Nat → Nat → Fate) (es : List Event) (s : Scheduler) : Prop where
  begun : attempts es ++ s.worker.pending fate = plan fate (taken es)
  ended : finished es ++ s.worker.current = attempts es
  count : s.taken = (taken es).length

section

variable (es : List Event) (e : Event)

theorem attempts_snoc : attempts (es ++ [e]) = attempts es ++ e.begun?.toList := by
  rw [attempts, List.filterMap_append, attempts]
  cases e <;> rfl

theorem finished_snoc : finished (es ++ [e]) = finished es ++ e.ended?.toList := by
  rw [finished, List.filterMap_append, finished]
  cases e <;> rfl

theorem taken_snoc : taken (es ++ [e]) = taken es ++ e.taken?.toList := by
  rw [taken, List.filterMap_append, taken]
  cases e <;> rfl

end

namespace Account

open Scheduler (Step Steps Run)

variable {s t : Scheduler} {es fs : List Event} {e : Event} {fate : Nat → Nat → Fate}

theorem new (fate : Nat → Nat → Fate) : Account fate [] {} := ⟨rfl, rfl, rfl⟩

theorem step (h : Account fate es s) (htells : Tells fate (es ++ [e])) (hs : Step s e t) :
    Account fate (es ++ [e]) t := by
  obtain ⟨hbegun, hended, hcount⟩ := h
  have hlast : ∀ a outcome, e = .ended a outcome → fate a.batch a.place = outcome :=
    fun a outcome he => htells a outcome (he ▸ List.mem_concat_self)
  refine ⟨?_, ?_, ?_⟩
  · rw [attempts_snoc, taken_snoc]
    cases hs with
    | submit | flush | close | resolve =>
      simpa only [Event.begun?, Event.taken?, Option.toList, List.append_nil] using hbegun
    | stop idle =>
      rw [idle] at hbegun
      simpa only [Event.begun?, Event.taken?, Option.toList, List.append_nil, Worker.pending]
        using hbegun
    | take idle =>
      -- the plan grows by the batch that is taken, none of which is attempted yet
      rw [idle, Worker.pending, List.append_nil] at hbegun
      simp only [Event.begun?, Event.taken?, Option.toList, List.append_nil]
      rw [plan_snoc, ← hbegun, ← hcount, Worker.pending]
    | begin between | swept between =>
      rw [between] at hbegun
      simpa only [Event.begun?, Event.taken?, Option.toList, List.append_nil, List.append_assoc,
        List.singleton_append, Worker.pending, attemptsFrom] using hbegun
    | survive amid unharmed =>
      rw [amid, Worker.pending, hlast _ _ rfl, if_neg unharmed] at hbegun
      simpa only [Event.begun?, Event.taken?, Option.toList, List.append_nil, Worker.pending]
        using hbegun
    | panic amid =>
      rw [amid, Worker.pending, hlast _ _ rfl, if_pos rfl] at hbegun
      simpa only [Event.begun?, Event.taken?, Option.toList, List.append_nil, Worker.pending]
        using hbegun
  · rw [attempts_snoc, finished_snoc]
    cases hs with
    | submit | flush | close | resolve =>
      simpa only [Event.begun?, Event.ended?, Option.toList, List.append_nil] using hended
    | stop now | take now | begin now | swept now | survive now | panic now =>
      rw [now] at hended
      rw [← hended]
      simp only [Event.begun?, Event.ended?, Option.toList, List.append_nil, Worker.current]
  · rw [taken_snoc, List.length_append]
    cases hs with
    | take => exact congrArg (· + 1) hcount
    | submit | flush | close | begin | survive | panic | swept | resolve | stop => exact hcount

theorem of_run (htells : Tells fate es) (hs : Run es s) : Account fate es s := by
  refine Scheduler.run_induction (P := fun es s => Tells fate es → Account fate es s)
    (fun _ => new fate) (fun _ h hs htells => ?_) hs htells
  exact (h fun a outcome hmem => htells a outcome (List.mem_append_left _ hmem)).step htells hs

theorem attempts_planned (h : Account fate es s) : attempts es <+: plan fate (taken es) :=
  ⟨_, h.begun⟩

theorem nodup (h : Account fate es s) : ((attempts es).map Attempt.entry).Nodup :=
  (h.attempts_planned.map Attempt.entry).sublist.nodup (nodup_planFrom fate 0 _)

/-- A worker that is at no batch has done with all that it has taken. -/
theorem of_rest (h : Account fate es s) (rest : s.worker = .idle ∨ s.worker = .stopped) :
    attempts es = plan fate (taken es) ∧ finished es = attempts es := by
  obtain ⟨hbegun, hended, -⟩ := h
  rcases rest with hworker | hworker
  all_goals
    rw [hworker] at hbegun hended
    exact ⟨(List.append_nil _).symm.trans hbegun, (List.append_nil _).symm.trans hended⟩

end Account

/-! ## How the deletes ended -/

section

variable {es : List Event} {a : Attempt} {outcome : Fate}

theorem fate?_eq_some {e : Event} {batch place : Nat} :
    e.fate? batch place = some outcome ↔
      ∃ a, e = .ended a outcome ∧ a.batch = batch ∧ a.place = place := by
  constructor
  · intro h
    cases e with
    | ended a fate =>
      rw [Event.fate?] at h
      split at h
      · cases h
        exact ⟨a, rfl, ‹_›⟩
      · cases h
    | _ => cases h
  · rintro ⟨a, rfl, hentry⟩
    exact if_pos hentry

/-- An end that was seen is not forgotten. -/
theorem fates_append (h : .ended a outcome ∈ es) (later : List Event) :
    fates (es ++ later) a.batch a.place = fates es a.batch a.place := by
  have hsome : (es.findSome? (Event.fate? a.batch a.place)).isSome :=
    List.findSome?_isSome_iff.2 ⟨_, h, Option.isSome_iff_exists.2
      ⟨outcome, fate?_eq_some.2 ⟨a, rfl, rfl, rfl⟩⟩⟩
  rw [fates, fates, List.findSome?_append, Option.or_of_isSome hsome]

/-- The first end of a delete is the one that counts. -/
theorem fates_concat (h : ∀ b ∈ finished es, b.entry ≠ a.entry) :
    fates (es ++ [.ended a outcome]) a.batch a.place = outcome := by
  have hnone : es.findSome? (Event.fate? a.batch a.place) = none := by
    refine List.findSome?_eq_none_iff.2 fun e he => ?_
    cases hfate : e.fate? a.batch a.place with
    | none => rfl
    | some other =>
      obtain ⟨b, rfl, hbatch, hplace⟩ := fate?_eq_some.1 hfate
      exact absurd (Prod.ext hbatch hplace) (h b (List.mem_filterMap.2 ⟨_, he, rfl⟩))
  rw [fates, List.findSome?_append, hnone, Option.none_or, List.findSome?_singleton,
    fate?_eq_some.2 ⟨a, rfl, rfl, rfl⟩, Option.getD_some]

/-- No delete is seen to end twice. -/
theorem fates_tells {s : Scheduler} (h : Scheduler.Run es s) : Tells (fates es) es := by
  refine Scheduler.run_induction (P := fun es _ => Tells (fates es) es) ?_ ?_ h
  · intro a outcome hmem
    cases hmem
  · intro es s e t hrun htells hs a outcome hmem
    rcases List.mem_append.1 hmem with hold | hnew
    · rw [fates_append hold]
      exact htells a outcome hold
    · obtain rfl := List.mem_singleton.1 hnew
      refine fates_concat fun b hb heq => ?_
      have haccount := Account.of_run htells hrun
      have hnodup := haccount.nodup
      rw [← haccount.ended, List.map_append] at hnodup
      have hcurrent : a ∈ s.worker.current := by
        cases hs with
        | survive amid | panic amid =>
          rw [amid]
          exact List.mem_singleton_self a
      exact (List.nodup_append.1 hnodup).2.2 _ (List.mem_map_of_mem hb) _
        (List.mem_map_of_mem hcurrent) heq

theorem fates_eq_panicked {batch place : Nat} (h : fates es batch place = .panicked) :
    ∃ a, .ended a .panicked ∈ es := by
  rw [fates] at h
  cases hfound : es.findSome? (Event.fate? batch place) with
  | none =>
    rw [hfound] at h
    cases h
  | some fate =>
    rw [hfound] at h
    obtain ⟨e, he, hfate⟩ := List.exists_of_findSome?_eq_some hfound
    obtain ⟨a, rfl, -⟩ := fate?_eq_some.1 hfate
    cases h
    exact ⟨a, he⟩

end

end ChunkedUpload.Cleanup
