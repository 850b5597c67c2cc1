import ChunkedUpload.Cleanup.Batch

/-!
# The queue of batches

Batches are swept in the order in which they were submitted, one at a time, after the uploads that
submitted them have gone on. `flush` sweeps all that wait.
-/

namespace ChunkedUpload.Cleanup

/-- Batches that wait to be swept, first submitted first. -/
structure Queue where
  waiting : List Batch := []
  /-- How many batches were ever submitted. -/
  submitted : Nat := 0

namespace Queue

/-- Puts a batch at the end. -/
def submit (batch : Batch) (q : Queue) : Queue :=
  ⟨q.waiting ++ [batch], q.submitted + 1⟩

variable {σ : Type} [ObjectStore σ]

/-- Sweeps every batch that waits. -/
def flush (q : Queue) (m : Metered σ) : Queue × Metered σ :=
  (⟨[], q.submitted⟩, q.waiting.foldl (fun m batch => batch.sweep m) m)

end Queue

end ChunkedUpload.Cleanup
