import ChunkedUpload.Reader.Script

/-!
# Readers

A `Reader` is a stream behind an optional read-ahead window. `read` hands out what was read ahead
before it turns to the stream; a request of at least the window's size, with nothing ahead, goes
straight to the stream. `peek` shows what comes next without taking it.
-/

namespace ChunkedUpload

/-- A stream with the bytes that were read ahead of it. -/
structure Reader where
  /-- What the stream still does. -/
  script : Reader.Script
  /-- Bytes taken from the stream that no caller has had yet. -/
  ahead : Bytes := []
  /-- How many bytes are read ahead at a time; `0` for none. -/
  window : Nat := 0

namespace Reader

/-- The size of the read-ahead window of an upload. -/
def defaultWindow : Nat := 8192

/-- Puts a read-ahead window in front of a stream. -/
def buffered (script : Script) : Reader := ⟨script, [], defaultWindow⟩

/-- One read with room for `space` bytes. -/
def read (space : Nat) (r : Reader) : Reading × Reader :=
  match r.ahead with
  | b :: bs => (.bytes ((b :: bs).take space), { r with ahead := (b :: bs).drop space })
  | [] =>
    if r.window ≤ space then
      let (reading, script) := r.script.read space
      (reading, { r with script })
    else
      match r.script.read r.window with
      | (.bytes got, script) =>
        (.bytes (got.take space), { r with script, ahead := got.drop space })
      | (reading, script) => (reading, { r with script })

/-- What is ahead, after one read of the stream if that is nothing. It stays ahead. -/
def peek (r : Reader) : Reading × Reader :=
  match r.ahead with
  | b :: bs => (.bytes (b :: bs), r)
  | [] =>
    match r.script.read r.window with
    | (.bytes got, script) => (.bytes got, { r with script, ahead := got })
    | (reading, script) => (reading, { r with script })

/-- How many bytes are still to come, those ahead included. -/
def remaining (r : Reader) : Nat := r.ahead.length + r.script.remaining

/-- A read takes just the bytes that it answers; the window neither loses nor repeats one. -/
theorem remaining_of_read {space : Nat} {r rest : Reader} {got : Bytes}
    (h : r.read space = (.bytes got, rest)) : got.length + rest.remaining = r.remaining := by
  obtain ⟨script, ahead, window⟩ := r
  cases ahead with
  | cons b bs =>
    cases h
    simp only [remaining, List.length_take, List.length_drop]
    omega
  | nil =>
    simp only [read] at h
    split at h
    · cases hs : script.read space with
      | mk reading s =>
        simp only [hs, Prod.mk.injEq] at h
        obtain ⟨rfl, rfl⟩ := h
        simpa [remaining] using Script.remaining_of_read hs
    · cases hs : script.read window with
      | mk reading s =>
        cases reading with
        | bytes all =>
          simp only [hs, Prod.mk.injEq, Reading.bytes.injEq] at h
          obtain ⟨rfl, rfl⟩ := h
          have := Script.remaining_of_read hs
          simp only [remaining, List.length_take, List.length_drop, List.length_nil]
          omega
        | failed => simp [hs] at h
        | stalled => simp [hs] at h

/-- A read that fails takes no byte. -/
theorem remaining_of_read_failed {space : Nat} {r rest : Reader} {error : IoError}
    (h : r.read space = (.failed error, rest)) : rest.remaining = r.remaining := by
  obtain ⟨script, ahead, window⟩ := r
  cases ahead with
  | cons b bs => simp [read] at h
  | nil =>
    simp only [read] at h
    split at h
    · cases hs : script.read space with
      | mk reading s =>
        simp only [hs, Prod.mk.injEq] at h
        obtain ⟨rfl, rfl⟩ := h
        simpa [remaining] using Script.remaining_of_read_failed hs
    · cases hs : script.read window with
      | mk reading s =>
        cases reading with
        | bytes => simp [hs] at h
        | failed =>
          simp only [hs, Prod.mk.injEq] at h
          obtain ⟨he, rfl⟩ := h
          simpa [remaining] using Script.remaining_of_read_failed hs
        | stalled => simp [hs] at h

end Reader

end ChunkedUpload
