import ChunkedUpload.Proofs.Reader.Ending
import ChunkedUpload.Proofs.Reader.Responsive
import ChunkedUpload.Proofs.Reader.Tape

/-!
# Filling takes a maximal front

Filling a buffer `Passes` over a front of the tape: bytes are taken as long as more are wanted,
interruptions are skipped, and a read of no bytes or another failure ends it. The bytes are written
over the front of the buffer (`Buffer.toList_overwrite`), whatever it held, so that one filling
`Takes` the marks it has passed and nothing else (`refill_takes`). Fillings one after another take
one front after another (`refills_take`).
-/

namespace ChunkedUpload.Reader

open Stream' (append_append_stream)

/-! ## Passing over marks -/

/-- One who wants `want` bytes passes over the marks, has the bytes then and stops. -/
inductive Passes : (want : Nat) → List Mark → Bytes → Stop → Prop
  | full : Passes 0 [] [] .done
  | blank {want : Nat} : 0 < want → Passes want [.blank] [] .done
  | failed {want : Nat} {error : IoError} : 0 < want → error.kind ≠ .interrupted →
      Passes want [.failed error] [] (.failed error)
  | again {want : Nat} {error : IoError} {marks : List Mark} {bytes : Bytes} {stop : Stop} :
      0 < want → error.kind = .interrupted → Passes want marks bytes stop →
      Passes want (.failed error :: marks) bytes stop
  | byte {want : Nat} {b : UInt8} {marks : List Mark} {bytes : Bytes} {stop : Stop} :
      Passes want marks bytes stop → Passes (want + 1) (.byte b :: marks) (b :: bytes) stop

/-- Taking stopped at the mark `last`, with room for `room` more bytes: at none if there is no room,
else at a read of no bytes or a failure that is no interruption. It does not wait for ever. -/
def Stop.Shown (stop : Stop) (room : Nat) (last : List Mark) : Prop :=
  match stop with
  | .done => last = if room = 0 then [] else [.blank]
  | .failed error => 0 < room ∧ error.kind ≠ .interrupted ∧ last = [.failed error]
  | .stalled => False

theorem Stop.Shown.bytesOf_eq_nil {stop : Stop} {room : Nat} {last : List Mark}
    (h : stop.Shown room last) : bytesOf last = [] := by
  cases stop with
  | done =>
    rw [Shown] at h
    rw [h]
    split <;> rfl
  | failed error =>
    rw [h.2.2]
    rfl
  | stalled => exact h.elim

theorem Stop.Shown.full {stop : Stop} {room : Nat} (h : stop.Shown room []) : room = 0 := by
  cases stop with
  | done =>
    apply Decidable.byContradiction
    intro hroom
    rw [Shown, if_neg hroom] at h
    cases h
  | failed error => cases h.2.2
  | stalled => exact h.elim

/-- The last mark of all is the first one only where no others follow. -/
theorem forall_getLast?_cons {P : Mark → Prop} {mark : Mark} {way : List Mark}
    (hmark : way = [] → P mark) (hway : ∀ last ∈ way.getLast?, P last) :
    ∀ last ∈ (mark :: way).getLast?, P last := by
  cases way with
  | nil =>
    intro last hlast
    cases hlast
    exact hmark rfl
  | cons next way => exact hway

namespace Passes

variable {want : Nat} {marks : List Mark} {bytes : Bytes} {stop : Stop}

/-- Bytes that one read hands out are passed over together. -/
theorem append (h : Passes want marks bytes stop) (got : Bytes) :
    Passes (want + got.length) (got.map .byte ++ marks) (got ++ bytes) stop := by
  induction got with
  | nil => exact h
  | cons b bs ih => exact .byte ih

theorem length_le (h : Passes want marks bytes stop) : bytes.length ≤ want := by
  induction h with
  | full | blank | failed => exact Nat.zero_le _
  | again _ _ _ ih => exact ih
  | byte _ ih => exact Nat.succ_le_succ ih

/-- The marks are the bytes with interruptions between them, and what ended it. An interruption is
passed over only on the way to a byte or to what ended it. -/
theorem split (h : Passes want marks bytes stop) :
    ∃ way last, marks = way ++ last ∧ bytesOf way = bytes ∧
      (∀ mark ∈ way, mark.byte? = none → mark.Interrupts) ∧
      stop.Shown (want - bytes.length) last ∧
      (last = [] → ∀ mark ∈ way.getLast?, mark.byte? ≠ none) := by
  induction h with
  | full => exact ⟨[], [], rfl, rfl, by simp, rfl, by simp⟩
  | blank hwant =>
    refine ⟨[], [.blank], rfl, rfl, by simp, ?_, by simp⟩
    exact (if_neg (Nat.ne_of_gt hwant)).symm
  | failed hwant hkind =>
    exact ⟨[], _, rfl, rfl, by simp, ⟨hwant, hkind, rfl⟩, by simp⟩
  | @again want error marks bytes stop hwant hkind hpasses ih =>
    obtain ⟨way, last, rfl, hbytes, hothers, hshown, hlast⟩ := ih
    refine ⟨.failed error :: way, last, rfl, hbytes, ?_, hshown, fun hnil => ?_⟩
    · rw [List.forall_mem_cons]
      exact ⟨fun _ => hkind, hothers⟩
    · -- where nothing ended it early, the bytes that were wanted come after the interruption
      refine forall_getLast?_cons (fun hway => ?_) (hlast hnil)
      subst hnil hway
      have hroom := hshown.full
      rw [← hbytes, bytesOf_nil, List.length_nil, Nat.sub_zero] at hroom
      exact absurd hroom (Nat.ne_of_gt hwant)
  | @byte want b marks bytes stop hpasses ih =>
    obtain ⟨way, last, rfl, hbytes, hothers, hshown, hlast⟩ := ih
    refine ⟨.byte b :: way, last, rfl, ?_, ?_, ?_, fun hnil => ?_⟩
    · rw [bytesOf_byte, hbytes]
    · rw [List.forall_mem_cons]
      exact ⟨(fun hnone => by cases hnone), hothers⟩
    · rw [List.length_cons, Nat.add_sub_add_right]
      exact hshown
    · exact forall_getLast?_cons (fun _ hnone => by cases hnone) (hlast hnil)

end Passes

/-- Filling passes over a front of the tape, and comes to an end. -/
theorem fillFrom_passes (want : Nat) (taken : Bytes) {r : Reader} (h : r.Responsive) :
    ∃ marks bytes, Passes want marks bytes (fillFrom want taken r).stop ∧
      (fillFrom want taken r).taken = taken.reverse ++ bytes ∧
      r.tape = marks ++ₛ (fillFrom want taken r).rest.tape := by
  fun_induction fillFrom want taken r with
  | case1 taken r => exact ⟨[], [], .full, (List.append_nil _).symm, rfl⟩
  | case2 want taken r hwant rest hr =>
    have hwant := Nat.pos_of_ne_zero hwant
    exact ⟨[.blank], [], .blank hwant, (List.append_nil _).symm, read_tape hwant hr⟩
  | case3 want taken r hwant b bs rest hr ih =>
    have hwant := Nat.pos_of_ne_zero hwant
    obtain ⟨marks, bytes, hpasses, htaken, htape⟩ := ih (h.read hr).1
    refine ⟨(b :: bs).map .byte ++ marks, (b :: bs) ++ bytes, ?_, ?_, ?_⟩
    · have hall := hpasses.append (b :: bs)
      rwa [Nat.sub_add_cancel (length_le_of_read hr)] at hall
    · rw [htaken, List.reverseAux_eq, List.reverse_append, List.reverse_reverse,
        List.append_assoc]
    · rw [read_tape hwant hr, htape, append_append_stream]
      rfl
  | case4 want taken r hwant error rest hr hkind hshorter ih =>
    have hwant := Nat.pos_of_ne_zero hwant
    obtain ⟨marks, bytes, hpasses, htaken, htape⟩ := ih (h.read hr).1
    refine ⟨.failed error :: marks, bytes, .again hwant hkind hpasses, htaken, ?_⟩
    rw [read_tape hwant hr, htape]
    rfl
  | case5 want taken r hwant error rest hr hkind hshorter =>
    exact absurd ((h.read hr).2.2 error rfl hkind) hshorter
  | case6 want taken r hwant error rest hr hkind =>
    have hwant := Nat.pos_of_ne_zero hwant
    exact ⟨[.failed error], [], .failed hwant hkind, (List.append_nil _).symm, read_tape hwant hr⟩
  | case7 want taken r hwant rest hr => exact absurd rfl (h.read hr).2.1

/-! ## Buffers -/

/-- The bytes are at the front of the buffer then, and behind them it is as it was. -/
theorem Buffer.toList_overwrite (b : Buffer) (bytes : Bytes) :
    (b.overwrite bytes).toList = bytes ++ b.toList.drop bytes.length := by
  unfold toList overwrite
  dsimp only
  rw [List.append_assoc, List.drop_append, List.drop_replicate, List.length_append,
    List.length_drop]
  congr 3
  omega

/-- What comes of filling `b` from `r`, where `way` are the marks up to the one that ends it early,
which is `last`. -/
structure Takes (b : Buffer) (r : Reader) (x : Refilled) (way last : List Mark) : Prop where
  /-- The reader has moved past these marks and no others. -/
  tape : r.tape = way ++ₛ (last ++ₛ x.rest.tape)
  bytes : bytesOf way = x.chunk
  others : ∀ mark ∈ way, mark.byte? = none → mark.Interrupts
  /-- A full buffer is noticed with its last byte. -/
  full : last = [] → ∀ mark ∈ way.getLast?, mark.byte? ≠ none
  stop : x.stop.Shown (b.size - x.count) last
  count : x.count = x.chunk.length
  room : x.count ≤ b.size
  written : x.buffer.toList = x.chunk ++ b.toList.drop x.count

/-- Filling a buffer takes a front of the tape. -/
theorem refill_takes {r : Reader} (h : r.Responsive) (b : Buffer) :
    ∃ way last, Takes b r (refill b r) way last := by
  obtain ⟨marks, bytes, hpasses, htaken, htape⟩ := fillFrom_passes b.size [] h
  obtain ⟨way, last, rfl, hbytes, hothers, hshown, hlast⟩ := hpasses.split
  have htaken : (r.fill b.size).taken = bytes := htaken
  have hchunk : (refill b r).chunk = bytes := (refill_chunk b r).trans htaken
  have hcount : (refill b r).count = bytes.length := congrArg List.length htaken
  refine ⟨way, last, ?_⟩
  constructor
  case tape =>
    rw [← append_append_stream]
    exact htape
  case bytes => rw [hchunk, hbytes]
  case others => exact hothers
  case full => exact hlast
  case stop =>
    rw [hcount]
    exact hshown
  case count => rw [hcount, hchunk]
  case room =>
    rw [hcount]
    exact hpasses.length_le
  case written =>
    rw [hchunk, hcount, ← htaken]
    exact Buffer.toList_overwrite b (r.fill b.size).taken

/-! ## Readers without a window -/

/-- Nothing is read ahead. -/
def Unbuffered (r : Reader) : Prop := r.ahead = [] ∧ r.window = 0

namespace Unbuffered

variable {r : Reader}

/-- What the reader still has is what its stream still has. -/
theorem tape_eq (h : r.Unbuffered) : r.tape = r.script.tape := by
  rw [tape, h.1]
  rfl

theorem read (h : r.Unbuffered) (space : Nat) : (r.read space).2.Unbuffered := by
  obtain ⟨script, ahead, window⟩ := r
  obtain ⟨rfl, rfl⟩ := h
  unfold Reader.read
  dsimp only
  rw [if_pos (Nat.zero_le _)]
  exact ⟨rfl, rfl⟩

theorem fillFrom (want : Nat) (taken : Bytes) {r : Reader} (h : r.Unbuffered) :
    (Reader.fillFrom want taken r).rest.Unbuffered := by
  have hread : ∀ {space : Nat} {r rest : Reader} {reading : Reading}, r.Unbuffered →
      r.read space = (reading, rest) → rest.Unbuffered := by
    intro space r rest reading h hr
    have hrest := h.read space
    rwa [hr] at hrest
  fun_induction Reader.fillFrom want taken r with
  | case1 => exact h
  | case3 _ _ _ _ _ _ _ hr ih | case4 _ _ _ _ _ _ hr _ _ ih => exact ih (hread h hr)
  | case2 _ _ _ _ _ hr | case5 _ _ _ _ _ _ hr | case6 _ _ _ _ _ _ hr | case7 _ _ _ _ _ hr =>
    exact hread h hr

end Unbuffered

/-! ## One filling after another -/

/-- Fills the buffers in turn. -/
def refills : List Buffer → Reader → List Refilled × Reader
  | [], r => ([], r)
  | b :: later, r =>
    let x := refill b r
    let (xs, rest) := refills later x.rest
    (x :: xs, rest)

/-- The fillings take one front of the tape together, each its chunk behind those before. -/
theorem refills_take {r : Reader} (h : r.Responsive) (buffers : List Buffer) :
    ∃ marks, r.tape = marks ++ₛ (refills buffers r).2.tape ∧
      bytesOf marks = ((refills buffers r).1.map Refilled.chunk).flatten := by
  induction buffers generalizing r with
  | nil => exact ⟨[], rfl, rfl⟩
  | cons b later ih =>
    obtain ⟨way, last, htakes⟩ := refill_takes h b
    obtain ⟨marks, htape, hbytes⟩ := ih (h.refill b).2
    refine ⟨way ++ last ++ marks, ?_, ?_⟩
    · rw [append_append_stream, append_append_stream, htakes.tape, htape]
      rfl
    · rw [bytesOf_append, bytesOf_append, htakes.bytes, htakes.stop.bytesOf_eq_nil, hbytes,
        List.append_nil]
      rfl

/-- **Filling takes a maximal front and nothing else.** If a stream answers every read, after
retries if need be, then filling a buffer from it comes to an end. It moves past the bytes that it
takes and past interruptions on the way; if the buffer is not full, also past the one read of no
bytes or the one failure that ended it, and the failure is handed on. The bytes are at the front of
the buffer, which is as it was behind them. They alone are the chunk, whatever the buffer held.
Buffers of any sizes that are filled in turn have their chunks from the tape one behind the other.
-/
theorem fillings_take_fronts {r : Reader} (h : r.Responsive) :
    (∀ b : Buffer,
      (∃ way last, Takes b r (refill b r) way last) ∧ (refill b r).rest.Responsive ∧
      (r.Unbuffered → r.tape = r.script.tape ∧ (refill b r).rest.Unbuffered) ∧
      ∀ other : Buffer, other.size = b.size → (refill other r).chunk = (refill b r).chunk) ∧
    ∀ buffers : List Buffer, ∃ marks, r.tape = marks ++ₛ (refills buffers r).2.tape ∧
      bytesOf marks = ((refills buffers r).1.map Refilled.chunk).flatten := by
  refine ⟨fun b => ⟨refill_takes h b, (h.refill b).2, fun hplain => ?_, fun other hsize => ?_⟩,
    refills_take h⟩
  · exact ⟨hplain.tape_eq, hplain.fillFrom b.size []⟩
  · rw [refill_chunk, refill_chunk, hsize]

/-- A stream in pieces, with an interruption, a pause and a failure. -/
theorem fillings_take_fronts_brokenUp :
    let r : Reader := ⟨[.data [1, 2, 3] (some 2), .fail (.ofKind .interrupted), .notReady,
      .data [4, 5, 6] none, .pause, .data [7] none, .fail (.ofKind .connectionReset)], [], 0⟩
    let b : Buffer := ⟨4, [9, 9, 9, 9]⟩
    r.Responsive ∧ r.Unbuffered ∧ (∃ way last, Takes b r (refill b r) way last) ∧
      ∃ marks, r.tape = marks ++ₛ (refills [b, b, b] r).2.tape ∧
        bytesOf marks = [[1, 2, 3, 4], [5, 6], [7]].flatten := by
  intro r b
  have hresponsive : r.Responsive := by simp [r, Responsive, Step.Answers]
  have hchunks : (refills [b, b, b] r).1.map Refilled.chunk = [[1, 2, 3, 4], [5, 6], [7]] := by
    cbv
  obtain ⟨hone, hmany⟩ := fillings_take_fronts hresponsive
  refine ⟨hresponsive, ⟨rfl, rfl⟩, (hone b).1, ?_⟩
  rw [← hchunks]
  exact hmany [b, b, b]

end ChunkedUpload.Reader
