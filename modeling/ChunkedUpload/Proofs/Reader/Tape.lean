import ChunkedUpload.Proofs.Reader.Delivery
import Mathlib.Data.Stream.Init

/-!
# What reads meet

A stream is an endless tape of marks: bytes, reads that hand out none, failures. How a script cuts
its bytes into reads, and how long it takes, does not show on the tape. A read takes the marks it
answers off the front (`Script.read_tape`), whatever the size of the read, and so does a read of a
reader, which has what was read ahead in front of the tape (`read_tape`).
-/

namespace ChunkedUpload.Reader

open Stream' (const const_eq append_append_stream)

/-- One thing that reads meet. -/
inductive Mark
  | byte (b : UInt8)
  /-- A read that hands out no bytes. -/
  | blank
  | failed (error : IoError)
  /-- The stream never answers. -/
  | stalled

namespace Mark

/-- The byte, if the mark is one. -/
def byte? : Mark → Option UInt8
  | byte b => some b
  | _ => none

/-- A read fails, and may be tried again. -/
def Interrupts : Mark → Prop
  | failed error => error.kind = .interrupted
  | _ => False

end Mark

/-- The bytes among the marks. -/
def bytesOf (marks : List Mark) : Bytes := marks.filterMap Mark.byte?

@[simp]
theorem bytesOf_nil : bytesOf [] = [] := rfl

@[simp]
theorem bytesOf_append (marks marks' : List Mark) :
    bytesOf (marks ++ marks') = bytesOf marks ++ bytesOf marks' := List.filterMap_append

@[simp]
theorem bytesOf_byte (b : UInt8) (marks : List Mark) :
    bytesOf (.byte b :: marks) = b :: bytesOf marks := rfl

/-- The marks that a read takes off the tape. -/
def Reading.marks : Reading → List Mark
  | .bytes [] => [.blank]
  | .bytes (b :: bs) => (b :: bs).map .byte
  | .failed error => [.failed error]
  | .stalled => [.stalled]

theorem Reading.marks_of_ne_nil {got : Bytes} (h : got ≠ []) :
    (Reading.bytes got).marks = got.map .byte := by
  cases got with
  | nil => exact absurd rfl h
  | cons b bs => rfl

/-! ## Streams -/

namespace Script

/-- All that reads of the stream meet, in order. -/
def tape : Script → Stream' Mark
  | [] => const .blank
  | .data [] _ :: later => tape later
  | .data (_ :: _) (some 0) :: _ => const .blank
  | .data (b :: bs) _ :: later => (b :: bs).map .byte ++ₛ tape later
  | .notReady :: later => tape later
  | .pause :: later => [.blank] ++ₛ tape later
  | .fail error :: later => [.failed error] ++ₛ tape later
  | .failForever error :: _ => const (.failed error)
  | .stall :: _ => const .stalled

theorem tape_data {bytes : Bytes} {most : Option Nat} (later : Script) (h : most ≠ some 0) :
    tape (.data bytes most :: later) = bytes.map .byte ++ₛ tape later := by
  cases bytes with
  | nil => rfl
  | cons b bs =>
    rcases most with _ | _ | n
    · rfl
    · exact absurd rfl h
    · rfl

/-- A read takes what it answers off the tape. -/
theorem read_tape {space : Nat} {s rest : Script} {reading : Reading} (hspace : 0 < space)
    (h : s.read space = (reading, rest)) : s.tape = reading.marks ++ₛ rest.tape := by
  fun_induction read space s with
  | case1 =>
    cases h
    exact const_eq _
  | case2 most later ih | case7 later ih => exact ih h
  | case3 b bs most later count =>
    cases h
    by_cases hmost : most = some 0
    · subst hmost
      have hzero : count = 0 := Nat.min_zero space
      rw [hzero]
      exact const_eq _
    · have hcount : 0 < count := allowed_pos hspace hmost
      have htaken : (b :: bs).take count ≠ [] := take_ne_nil hcount (List.cons_ne_nil b bs)
      rw [Reading.marks_of_ne_nil htaken, tape_data later hmost, tape_data later hmost,
        ← append_append_stream, ← List.map_append, List.take_append_drop]
  | case4 error later | case6 later =>
    cases h
    rfl
  | case5 error later | case8 later =>
    cases h
    exact const_eq _

end Script

/-! ## Readers -/

/-- All that reads meet, what was read ahead first. -/
def tape (r : Reader) : Stream' Mark := r.ahead.map .byte ++ₛ r.script.tape

/-- A read takes what it answers off the tape; bytes that are read ahead stay on it. -/
theorem read_tape {space : Nat} {r rest : Reader} {reading : Reading} (hspace : 0 < space)
    (h : r.read space = (reading, rest)) : r.tape = reading.marks ++ₛ rest.tape := by
  cases reads_of_read h with
  | ahead hall =>
    rw [Reading.marks_of_ne_nil (take_ne_nil hspace hall), tape, tape, ← append_append_stream,
      ← List.map_append, List.take_append_drop]
  | stream hroom hs => exact Script.read_tape (Nat.lt_of_lt_of_le hspace hroom) hs
  | window hroom hgot hs =>
    have htape := Script.read_tape (Nat.lt_trans hspace hroom) hs
    rw [Reading.marks_of_ne_nil hgot] at htape
    rw [Reading.marks_of_ne_nil (take_ne_nil hspace hgot), tape, tape, ← append_append_stream,
      ← List.map_append, List.take_append_drop]
    exact htape

end ChunkedUpload.Reader
