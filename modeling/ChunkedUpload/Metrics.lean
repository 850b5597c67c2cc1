/-!
# Counters

What uploads and sweeps did, in numbers, and the text in which the numbers are exposed. Durations
are counted but not measured.
-/

namespace ChunkedUpload

/-- The nine counters. -/
structure Metrics where
  uploadsStarted : Nat := 0
  uploadFailures : Nat := 0
  partsUploaded : Nat := 0
  bytesUploaded : Nat := 0
  composeRequests : Nat := 0
  composeLimitHits : Nat := 0
  cleanupDeletes : Nat := 0
  cleanupFailures : Nat := 0
  /-- How many uploads had their duration taken. -/
  uploadDurations : Nat := 0
  deriving DecidableEq, Repr

namespace Metrics

/-- What a family of samples holds. -/
inductive Samples
  | counter (value : Nat)
  /-- Cumulative buckets with these upper bounds, before the unbounded one. -/
  | histogram (bounds : List String) (count : Nat)

/-- A named family of samples with its description. -/
structure Family where
  name : String
  help : String
  samples : Samples

/-- The upper bounds of the duration buckets, in seconds. -/
def durationBounds : List String := ["0.05", "0.1", "0.5", "1", "5", "15", "60", "300", "900"]

/-- All families, sorted by name. -/
def families (m : Metrics) : List Family :=
  [⟨"stitch_bytes_uploaded_total", "Total bytes written to the object store as parts",
      .counter m.bytesUploaded⟩,
    ⟨"stitch_cleanup_deletes_total", "Total number of intermediate parts deleted",
      .counter m.cleanupDeletes⟩,
    ⟨"stitch_cleanup_failures_total",
      "Total number of intermediate parts that could not be deleted",
      .counter m.cleanupFailures⟩,
    ⟨"stitch_compose_limit_hits_total",
      "Total number of uploads that reached the compose request limit",
      .counter m.composeLimitHits⟩,
    ⟨"stitch_compose_requests_total", "Total number of compose requests issued",
      .counter m.composeRequests⟩,
    ⟨"stitch_parts_uploaded_total", "Total number of parts written to the object store",
      .counter m.partsUploaded⟩,
    ⟨"stitch_upload_duration_seconds",
      "Time from first read to final object for successful uploads",
      .histogram durationBounds m.uploadDurations⟩,
    ⟨"stitch_upload_failures_total", "Total number of chunked uploads that failed",
      .counter m.uploadFailures⟩,
    ⟨"stitch_uploads_started_total", "Total number of chunked uploads started",
      .counter m.uploadsStarted⟩]

namespace Family

/-- The one number that sums a family up, under the name that its sample has. -/
def total (f : Family) : String × Nat :=
  match f.samples with
  | .counter value => (f.name, value)
  | .histogram _ count => (f.name ++ "_count", count)

/-- The lines of the samples. A duration counts as zero seconds, so it is in every bucket. -/
def sampleLines (f : Family) : List String :=
  match f.samples with
  | .counter value => [f.name ++ " " ++ value.repr]
  | .histogram bounds count =>
    (bounds ++ ["+Inf"]).map (fun bound =>
      f.name ++ "_bucket\x7ble=\"" ++ bound ++ "\"\x7d " ++ count.repr) ++
      [f.name ++ "_sum 0", f.name ++ "_count " ++ count.repr]

/-- The word for the kind of family. -/
def kind (f : Family) : String :=
  match f.samples with
  | .counter _ => "counter"
  | .histogram .. => "histogram"

/-- Description, kind and samples. -/
def lines (f : Family) : List String :=
  ["# HELP " ++ f.name ++ " " ++ f.help, "# TYPE " ++ f.name ++ " " ++ f.kind] ++ f.sampleLines

end Family

/-- The text in which all families are exposed, every line ended. -/
def exposition (m : Metrics) : String :=
  String.join ((m.families.flatMap Family.lines).map (· ++ "\n"))

/-- The counters that differ between two moments, with the growth of each. -/
def growth (before after : Metrics) : List (String × Nat) :=
  ((before.families.map (·.total)).zip (after.families.map (·.total))).filterMap
    fun ((name, old), (_, new)) => if old = new then none else some (name, new - old)

end Metrics

/-- A store with the counters of what is done to it. -/
structure Metered (σ : Type) where
  store : σ
  metrics : Metrics := {}

end ChunkedUpload
