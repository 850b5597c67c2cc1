import ChunkedUpload.Bytes
import ChunkedUpload.IoError

/-!
# What a stream does

A `Script` lists what a stream does, read after read. `Script.read` plays one read. It never crosses
from one step into the next, so a read may answer fewer bytes than were asked for while more are to
come, and a read of no bytes need not be the last one.
-/

namespace ChunkedUpload

/-- One thing that a stream does. -/
inductive Reader.Step
  /-- Hands out `bytes`, at most `most` of them a read. -/
  | data (bytes : Bytes) (most : Option Nat)
  /-- One read fails. -/
  | fail (error : IoError)
  /-- Every read from here on fails. -/
  | failForever (error : IoError)
  /-- One read answers no bytes. -/
  | pause
  /-- The stream is not ready at once. -/
  | notReady
  /-- The stream is never ready again. -/
  | stall
  deriving Repr

namespace Reader

/-- The answer to one read. -/
inductive Reading
  | bytes (bytes : Bytes)
  | failed (error : IoError)
  | stalled
  deriving Repr

/-- The steps of a stream, in order; after the last one every read answers no bytes. -/
abbrev Script := List Step

namespace Script

/-- How many bytes a read may answer where the caller has room for `space`. -/
def allowed (space : Nat) : Option Nat → Nat
  | none => space
  | some most => min space most

/-- One read with room for `space` bytes. A step without bytes is passed over. -/
def read (space : Nat) : Script → Reading × Script
  | [] => (.bytes [], [])
  | .data [] _ :: later => read space later
  | .data (b :: bs) most :: later =>
    let count := allowed space most
    (.bytes ((b :: bs).take count), .data ((b :: bs).drop count) most :: later)
  | .fail error :: later => (.failed error, later)
  | .failForever error :: later => (.failed error, .failForever error :: later)
  | .pause :: later => (.bytes [], later)
  | .notReady :: later => read space later
  | .stall :: later => (.stalled, .stall :: later)

/-- How many bytes the stream still holds. -/
def remaining : Script → Nat
  | [] => 0
  | .data bytes _ :: later => bytes.length + remaining later
  | .fail _ :: later | .failForever _ :: later | .pause :: later
  | .notReady :: later | .stall :: later => remaining later

/-- A read takes from the stream just the bytes that it answers. -/
theorem remaining_of_read {space : Nat} {s rest : Script} {got : Bytes}
    (h : s.read space = (.bytes got, rest)) : got.length + remaining rest = remaining s := by
  fun_induction read space s with
  | case1 => cases h; rfl
  | case2 most later ih => simpa [remaining] using ih h
  | case3 b bs most later count =>
    cases h
    simp only [remaining, List.length_take, List.length_drop]
    omega
  | case4 => simp at h
  | case5 => simp at h
  | case6 later => cases h; simp [remaining]
  | case7 later ih => simpa [remaining] using ih h
  | case8 => simp at h

/-- A read that fails takes no byte. -/
theorem remaining_of_read_failed {space : Nat} {s rest : Script} {error : IoError}
    (h : s.read space = (.failed error, rest)) : remaining rest = remaining s := by
  fun_induction read space s with
  | case1 => simp at h
  | case2 most later ih => simpa [remaining] using ih h
  | case3 => simp at h
  | case4 error later => cases h; simp [remaining]
  | case5 error later => cases h; simp [remaining]
  | case6 => simp at h
  | case7 later ih => simpa [remaining] using ih h
  | case8 => simp at h

end Script

end Reader

end ChunkedUpload
