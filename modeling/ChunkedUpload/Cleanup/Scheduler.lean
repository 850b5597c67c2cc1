import ChunkedUpload.Cleanup.Batch

/-!
# Many threads submit, one worker sweeps

Uploads hand their batches to a queue and go on; a single worker takes the oldest task and sweeps
its batch one delete at a time. `Step` says what the two sides may do to the queue, in any order.
Between the begin and the end of a delete others may submit, ask for a flush or shut the queue
down. A delete that panics ends its own batch and leaves the worker alive.

A flush is a task like a batch, with a ticket of its own. The worker answers it when it comes to
it, and stops when nothing waits and nothing can be submitted any more.
-/

namespace ChunkedUpload.Cleanup

/-- How a delete ends. -/
inductive Fate
  | deleted
  | failed
  | panicked
  deriving DecidableEq, Repr

/-- One delete that the worker begins. -/
structure Attempt where
  /-- How many batches were submitted before this one. -/
  batch : Nat
  /-- How many of the batch's deletable names come before this one. -/
  place : Nat
  bucket : String
  name : String
  deriving DecidableEq, Repr

/-- What stands in the queue. -/
inductive Task
  | sweep (batch : Batch)
  | flush (ticket : Nat)

/-- What the worker is at. -/
inductive Worker
  | idle
  /-- Between two deletes of a batch, of which `left` are not begun. -/
  | sweeping (batch : Nat) (bucket : String) (place : Nat) (left : List String)
  /-- In the midst of a delete. -/
  | deleting (attempt : Attempt) (left : List String)
  | stopped

/-- A queue with its worker. -/
structure Scheduler where
  /-- First submitted first. -/
  waiting : List Task := []
  worker : Worker := .idle
  accepting : Bool := true
  /-- How many batches the worker has taken. -/
  taken : Nat := 0
  /-- How many flushes were asked for. -/
  tickets : Nat := 0

/-- What can be seen of a scheduler. -/
inductive Event
  | submit (batch : Batch)
  | flush (ticket : Nat)
  | close
  | take (batch : Batch)
  | begin (attempt : Attempt)
  | ended (attempt : Attempt) (fate : Fate)
  | swept
  /-- The flush with this ticket is answered. -/
  | resolve (ticket : Nat)
  /-- The worker has come to its end, and with it the shutdown. -/
  | stop

namespace Scheduler

/-- What the users of a scheduler and its worker may do next. -/
inductive Step (s : Scheduler) : Event → Scheduler → Prop
  | submit (batch : Batch) (open_ : s.accepting = true) :
    Step s (.submit batch) { s with waiting := s.waiting ++ [.sweep batch] }
  | flush (open_ : s.accepting = true) :
    Step s (.flush s.tickets)
      { s with waiting := s.waiting ++ [.flush s.tickets], tickets := s.tickets + 1 }
  | close : Step s .close { s with accepting := false }
  | take {batch : Batch} {rest : List Task} (idle : s.worker = .idle)
    (oldest : s.waiting = .sweep batch :: rest) :
    Step s (.take batch)
      { s with
        waiting := rest
        worker := .sweeping s.taken batch.bucket 0 batch.deletable
        taken := s.taken + 1 }
  | begin {batch place : Nat} {bucket name : String} {left : List String}
    (between : s.worker = .sweeping batch bucket place (name :: left)) :
    Step s (.begin ⟨batch, place, bucket, name⟩)
      { s with worker := .deleting ⟨batch, place, bucket, name⟩ left }
  | survive {attempt : Attempt} {left : List String} {fate : Fate}
    (amid : s.worker = .deleting attempt left) (unharmed : fate ≠ .panicked) :
    Step s (.ended attempt fate)
      { s with worker := .sweeping attempt.batch attempt.bucket (attempt.place + 1) left }
  | panic {attempt : Attempt} {left : List String} (amid : s.worker = .deleting attempt left) :
    Step s (.ended attempt .panicked) { s with worker := .idle }
  | swept {batch place : Nat} {bucket : String}
    (between : s.worker = .sweeping batch bucket place []) :
    Step s .swept { s with worker := .idle }
  | resolve {ticket : Nat} {rest : List Task} (idle : s.worker = .idle)
    (oldest : s.waiting = .flush ticket :: rest) :
    Step s (.resolve ticket) { s with waiting := rest }
  | stop (idle : s.worker = .idle) (drained : s.waiting = []) (closed : s.accepting = false) :
    Step s .stop { s with worker := .stopped }

/-- From `s`, these events one after another lead to the last state. -/
inductive Steps : Scheduler → List Event → Scheduler → Prop
  | nil {s : Scheduler} : Steps s [] s
  | cons {s t u : Scheduler} {e : Event} {es : List Event} (first : Step s e t)
    (rest : Steps t es u) : Steps s (e :: es) u

/-- What can happen to a new scheduler. -/
abbrev Run (es : List Event) (s : Scheduler) : Prop := Steps {} es s

end Scheduler

/-! ## What was seen -/

section Seen

def Event.submitted? : Event → Option Batch
  | .submit batch => some batch
  | _ => none

def Event.taken? : Event → Option Batch
  | .take batch => some batch
  | _ => none

def Event.begun? : Event → Option Attempt
  | .begin attempt => some attempt
  | _ => none

def Event.ended? : Event → Option Attempt
  | .ended attempt _ => some attempt
  | _ => none

/-- How the delete of this name of this batch ended, if the event tells. -/
def Event.fate? (batch place : Nat) : Event → Option Fate
  | .ended attempt fate =>
    if attempt.batch = batch ∧ attempt.place = place then some fate else none
  | _ => none

variable (es : List Event)

/-- The batches, first submitted first. -/
def submitted : List Batch := es.filterMap Event.submitted?

/-- The batches that the worker has taken. -/
def taken : List Batch := es.filterMap Event.taken?

/-- The deletes that have begun. -/
def attempts : List Attempt := es.filterMap Event.begun?

/-- The deletes that have ended, in whatever way. -/
def finished : List Attempt := es.filterMap Event.ended?

/-- How each delete ended; those that were not seen to end count as done. -/
def fates (batch place : Nat) : Fate := (es.findSome? (Event.fate? batch place)).getD .deleted

end Seen

/-! ## What is to be attempted -/

/-- The deletes of the names from `place` on, up to the first that panics. -/
def attemptsFrom (fate : Nat → Fate) (batch : Nat) (bucket : String) :
    (place : Nat) → List String → List Attempt
  | _, [] => []
  | place, name :: names =>
    ⟨batch, place, bucket, name⟩ ::
      if fate place = .panicked then [] else attemptsFrom fate batch bucket (place + 1) names

/-- The deletes of batches that are numbered from `number` on, batch by batch. -/
def planFrom (fate : Nat → Nat → Fate) : (number : Nat) → List Batch → List Attempt
  | _, [] => []
  | number, batch :: batches =>
    attemptsFrom (fate number) number batch.bucket 0 batch.deletable ++
      planFrom fate (number + 1) batches

/-- All deletes of these batches, in the order in which they are to be attempted. -/
def plan (fate : Nat → Nat → Fate) (batches : List Batch) : List Attempt :=
  planFrom fate 0 batches

end ChunkedUpload.Cleanup
