import ChunkedUpload.Metrics
import ChunkedUpload.Part.Name
import ChunkedUpload.Storage.Store

/-!
# Batches of parts to delete

An upload leaves behind the names of the parts that it tried to write. Only names of later parts of
its own destination are ever deleted, so a sweep cannot remove the destination or a foreign object.
-/

namespace ChunkedUpload.Cleanup

/-- The parts that one upload may have left. -/
structure Batch where
  bucket : String
  destination : String
  names : List String

/-- The names that a sweep of the batch deletes, in order. -/
def Batch.deletable (b : Batch) : List String := b.names.filter (Part.isLater b.destination)

variable {σ : Type} [ObjectStore σ]

/-- Deletes `names` one by one. A failure is counted and not tried again; a delete that is abandoned
takes the rest of the names with it and is not counted. -/
def sweepNames (bucket : String) : List String → Metered σ → Metered σ
  | [], m => m
  | name :: names, ⟨store, metrics⟩ =>
    match ObjectStore.delete bucket name store with
    | .ok () store =>
      sweepNames bucket names
        ⟨store, { metrics with cleanupDeletes := metrics.cleanupDeletes + 1 }⟩
    | .error (.failed _) store =>
      sweepNames bucket names
        ⟨store, { metrics with cleanupFailures := metrics.cleanupFailures + 1 }⟩
    | .error .abandoned store => ⟨store, metrics⟩

/-- Deletes what a batch leaves to delete. -/
def Batch.sweep (b : Batch) (m : Metered σ) : Metered σ := sweepNames b.bucket b.deletable m

end ChunkedUpload.Cleanup
