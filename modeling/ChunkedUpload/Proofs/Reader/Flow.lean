import ChunkedUpload.Proofs.Reader.Delivery

/-!
# What a reader hands out before it ends

The flow of a stream is what it hands out up to the first read that ends reading: one that answers
no bytes, that fails, or that is never answered. Interruptions do not end it. Reading to the end
takes the flow (`drain_taken`), filling a buffer takes a front of it (`fill_taken`), whatever ends
them.
-/

namespace ChunkedUpload.Reader

/-! ## Streams -/

namespace Script

/-- The bytes up to the first read that does not hand out any, interruptions aside. -/
def flow : Script → Bytes
  | [] => []
  | .data [] _ :: later => flow later
  | .data (_ :: _) (some 0) :: _ => []
  | .data (b :: bs) _ :: later => (b :: bs) ++ flow later
  | .notReady :: later => flow later
  | .fail error :: later => if error.kind = .interrupted then flow later else []
  | _ :: _ => []

theorem flow_data {bytes : Bytes} {most : Option Nat} (later : Script) (h : most ≠ some 0) :
    flow (.data bytes most :: later) = bytes ++ flow later := by
  cases bytes with
  | nil => rfl
  | cons b bs =>
    rcases most with _ | _ | n
    · rfl
    · exact absurd rfl h
    · rfl

end Script

/-- How the flow before a read and the flow after it fit what the read answered. After an
interruption that leaves the stream as it was, no more comes. -/
def Reading.Fits (reading : Reading) (shorter : Prop) (before after : Bytes) : Prop :=
  match reading with
  | .bytes [] | .stalled => before = []
  | .bytes (b :: bs) => before = (b :: bs) ++ after
  | .failed error =>
    if error.kind = .interrupted then before = after ∧ (¬shorter → before = []) else before = []

namespace Reading

variable {got before after : Bytes} {error : IoError} {shorter shorter' : Prop}

theorem fits_bytes (h : got ≠ []) :
    (bytes got).Fits shorter before after ↔ before = got ++ after := by
  cases got with
  | nil => exact absurd rfl h
  | cons b bs => rfl

theorem fits_interrupted (h : error.kind = .interrupted) :
    (failed error).Fits shorter before after ↔ before = after ∧ (¬shorter → before = []) := by
  rw [Fits, if_pos h]

theorem fits_failed (h : error.kind ≠ .interrupted) :
    (failed error).Fits shorter before after ↔ before = [] := by
  rw [Fits, if_neg h]

theorem Fits.mono {reading : Reading} (h : reading.Fits shorter before after)
    (hmono : shorter → shorter') : reading.Fits shorter' before after := by
  cases reading with
  | bytes got => cases got <;> exact h
  | failed error =>
    by_cases hkind : error.kind = .interrupted
    · rw [fits_interrupted hkind] at h ⊢
      exact ⟨h.1, fun hnot => h.2 (mt hmono hnot)⟩
    · rw [fits_failed hkind] at h ⊢
      exact h
  | stalled => exact h

end Reading

theorem Script.read_fits {space : Nat} {s rest : Script} {reading : Reading} (hspace : 0 < space)
    (h : s.read space = (reading, rest)) :
    reading.Fits (rest.length < s.length) s.flow rest.flow := by
  fun_induction read space s with
  | case1 => cases h; rfl
  | case2 most later ih =>
    exact (ih h).mono Nat.lt_succ_of_lt
  | case3 b bs most later count =>
    cases h
    by_cases hmost : most = some 0
    · subst hmost
      simp [count, allowed, Reading.Fits, flow]
    · have hcount : 0 < count := allowed_pos hspace hmost
      rw [Reading.fits_bytes (take_ne_nil hcount (List.cons_ne_nil b bs)), flow_data later hmost,
        flow_data later hmost, ← List.append_assoc, List.take_append_drop]
  | case4 error later =>
    cases h
    unfold Reading.Fits
    dsimp only [flow]
    split
    · exact ⟨rfl, fun h => absurd (Nat.lt_succ_self _) h⟩
    · rfl
  | case5 error later =>
    cases h
    unfold Reading.Fits
    dsimp only [flow]
    split
    · exact ⟨rfl, fun _ => rfl⟩
    · rfl
  | case6 later => cases h; rfl
  | case7 later ih =>
    exact (ih h).mono Nat.lt_succ_of_lt
  | case8 later => cases h; rfl

/-! ## Readers -/

/-- All that a reader hands out before it ends, what was read ahead first. -/
def flow (r : Reader) : Bytes := r.ahead ++ r.script.flow

theorem read_fits {space : Nat} {r rest : Reader} {reading : Reading} (hspace : 0 < space)
    (h : r.read space = (reading, rest)) :
    reading.Fits (rest.script.length < r.script.length) r.flow rest.flow := by
  cases reads_of_read h with
  | ahead hall =>
    rw [Reading.fits_bytes (take_ne_nil hspace hall), flow, flow, ← List.append_assoc,
      List.take_append_drop]
  | stream hroom hs => exact Script.read_fits (Nat.lt_of_lt_of_le hspace hroom) hs
  | window hroom hgot hs =>
    have hfits := Script.read_fits (Nat.lt_trans hspace hroom) hs
    rw [Reading.fits_bytes hgot] at hfits
    rw [Reading.fits_bytes (take_ne_nil hspace hgot), flow, flow, ← List.append_assoc,
      List.take_append_drop]
    exact hfits

theorem drainFrom_taken (taken : Bytes) (r : Reader) :
    (drainFrom taken r).taken = taken.reverse ++ r.flow := by
  have hspace : 0 < transferSize := by decide
  fun_induction drainFrom taken r with
  | case1 taken r rest hr =>
    have hflow : r.flow = [] := read_fits hspace hr
    rw [hflow, List.append_nil]
  | case2 taken r b bs rest hr ih =>
    have hflow : r.flow = (b :: bs) ++ rest.flow := read_fits hspace hr
    rw [ih, hflow, List.reverseAux_eq, List.reverse_append, List.reverse_reverse,
      List.append_assoc]
  | case3 taken r error rest hr hkind hshorter ih =>
    have hfits := (Reading.fits_interrupted hkind).1 (read_fits hspace hr)
    rw [ih, hfits.1]
  | case4 taken r error rest hr hkind hshorter =>
    have hfits := (Reading.fits_interrupted hkind).1 (read_fits hspace hr)
    rw [hfits.2 hshorter, List.append_nil]
  | case5 taken r error rest hr hkind =>
    have hflow := (Reading.fits_failed hkind).1 (read_fits hspace hr)
    rw [hflow, List.append_nil]
  | case6 taken r rest hr =>
    have hflow : r.flow = [] := read_fits hspace hr
    rw [hflow, List.append_nil]

/-- Reading to the end takes the flow. -/
theorem drain_taken (r : Reader) : r.drain.taken = r.flow := drainFrom_taken [] r

theorem fillFrom_taken (want : Nat) (taken : Bytes) (r : Reader) :
    (fillFrom want taken r).taken = taken.reverse ++ r.flow.take want := by
  fun_induction fillFrom want taken r with
  | case1 taken r => simp
  | case2 want taken r hwant rest hr =>
    have hflow : r.flow = [] := read_fits (Nat.pos_of_ne_zero hwant) hr
    simp [hflow]
  | case3 want taken r hwant b bs rest hr ih =>
    have hflow : r.flow = (b :: bs) ++ rest.flow := read_fits (Nat.pos_of_ne_zero hwant) hr
    rw [ih, hflow, List.take_append, List.take_of_length_le (length_le_of_read hr),
      List.reverseAux_eq, List.reverse_append, List.reverse_reverse, List.append_assoc]
  | case4 want taken r hwant error rest hr hkind hshorter ih =>
    have hfits := (Reading.fits_interrupted hkind).1 (read_fits (Nat.pos_of_ne_zero hwant) hr)
    rw [ih, hfits.1]
  | case5 want taken r hwant error rest hr hkind hshorter =>
    have hfits := (Reading.fits_interrupted hkind).1 (read_fits (Nat.pos_of_ne_zero hwant) hr)
    simp [hfits.2 hshorter]
  | case6 want taken r hwant error rest hr hkind =>
    have hflow := (Reading.fits_failed hkind).1 (read_fits (Nat.pos_of_ne_zero hwant) hr)
    simp [hflow]
  | case7 want taken r hwant rest hr =>
    have hflow : r.flow = [] := read_fits (Nat.pos_of_ne_zero hwant) hr
    simp [hflow]

/-- Filling a buffer takes as much of the flow as it wants. -/
theorem fill_taken (want : Nat) (r : Reader) : (r.fill want).taken = r.flow.take want :=
  fillFrom_taken want [] r

theorem refill_chunk (b : Buffer) (r : Reader) : (refill b r).chunk = (r.fill b.size).taken :=
  List.take_left' rfl

theorem refill_count (b : Buffer) (r : Reader) :
    (refill b r).count = min b.size r.flow.length := by
  show (r.fill b.size).taken.length = _
  rw [fill_taken, List.length_take]

end ChunkedUpload.Reader
