import ChunkedUpload.Proofs.Reader.Flow

/-!
# How a flow ends

What ends the flow of a stream does not depend on how it is read: filling a buffer ends that way
unless the flow fills it (`fill_stop`), and so does reading to the end (`drain_stop`). After a read
of no bytes there may be more to come, but not if the stream is `Final`: then the flow is all there
is, and buffers that are filled one after another take it in order (`Final.refill`).
-/

namespace ChunkedUpload.Reader

/-! ## Streams -/

namespace Script

/-- What the first read answers that does not hand out bytes, interruptions aside. -/
def ending : Script → Stop
  | [] => .done
  | .data [] _ :: later => ending later
  | .data (_ :: _) (some 0) :: _ => .done
  | .data (_ :: _) _ :: later => ending later
  | .notReady :: later => ending later
  | .fail error :: later => if error.kind = .interrupted then ending later else .failed error
  | .failForever error :: _ => if error.kind = .interrupted then .stalled else .failed error
  | .pause :: _ => .done
  | .stall :: _ => .stalled

theorem ending_data {bytes : Bytes} {most : Option Nat} (later : Script) (h : most ≠ some 0) :
    ending (.data bytes most :: later) = ending later := by
  cases bytes with
  | nil => rfl
  | cons b bs =>
    rcases most with _ | _ | n
    · rfl
    · exact absurd rfl h
    · rfl

end Script

/-- How the ending before a read and the ending after it fit what the read answered. -/
def Reading.EndsFit (reading : Reading) (shorter : Prop) (before after : Stop) : Prop :=
  match reading with
  | .bytes [] => before = .done
  | .bytes (_ :: _) => before = after
  | .failed error =>
    if error.kind = .interrupted then before = after ∧ (¬ shorter → before = .stalled)
    else before = .failed error
  | .stalled => before = .stalled

namespace Reading

variable {got : Bytes} {error : IoError} {shorter shorter' : Prop} {before after : Stop}

theorem endsFit_bytes (h : got ≠ []) :
    (bytes got).EndsFit shorter before after ↔ before = after := by
  cases got with
  | nil => exact absurd rfl h
  | cons b bs => rfl

theorem endsFit_interrupted (h : error.kind = .interrupted) :
    (failed error).EndsFit shorter before after ↔
      before = after ∧ (¬shorter → before = .stalled) := by
  rw [EndsFit, if_pos h]

theorem endsFit_failed (h : error.kind ≠ .interrupted) :
    (failed error).EndsFit shorter before after ↔ before = .failed error := by
  rw [EndsFit, if_neg h]

theorem EndsFit.mono {reading : Reading} (h : reading.EndsFit shorter before after)
    (hmono : shorter → shorter') : reading.EndsFit shorter' before after := by
  cases reading with
  | bytes got => cases got <;> exact h
  | failed error =>
    by_cases hkind : error.kind = .interrupted
    · rw [endsFit_interrupted hkind] at h ⊢
      exact ⟨h.1, fun hnot => h.2 (mt hmono hnot)⟩
    · rw [endsFit_failed hkind] at h ⊢
      exact h
  | stalled => exact h

end Reading

theorem Script.read_ending {space : Nat} {s rest : Script} {reading : Reading} (hspace : 0 < space)
    (h : s.read space = (reading, rest)) :
    reading.EndsFit (rest.length < s.length) s.ending rest.ending := by
  fun_induction read space s with
  | case1 => cases h; rfl
  | case2 most later ih => exact (ih h).mono Nat.lt_succ_of_lt
  | case3 b bs most later count =>
    cases h
    by_cases hmost : most = some 0
    · subst hmost
      simp [count, allowed, Reading.EndsFit, ending]
    · have hcount : 0 < count := allowed_pos hspace hmost
      rw [Reading.endsFit_bytes (take_ne_nil hcount (List.cons_ne_nil b bs)),
        ending_data later hmost, ending_data later hmost]
  | case4 error later =>
    cases h
    unfold Reading.EndsFit
    dsimp only [ending]
    split
    · exact ⟨rfl, fun h => absurd (Nat.lt_succ_self _) h⟩
    · rfl
  | case5 error later =>
    cases h
    unfold Reading.EndsFit
    dsimp only [ending]
    split <;> simp
  | case6 later => cases h; rfl
  | case7 later ih => exact (ih h).mono Nat.lt_succ_of_lt
  | case8 later => cases h; rfl

/-! ## Readers -/

/-- What ends the flow of a reader. -/
def ending (r : Reader) : Stop := r.script.ending

theorem read_ending {space : Nat} {r rest : Reader} {reading : Reading} (hspace : 0 < space)
    (h : r.read space = (reading, rest)) :
    reading.EndsFit (rest.script.length < r.script.length) r.ending rest.ending := by
  cases reads_of_read h with
  | ahead hall =>
    rw [Reading.endsFit_bytes (take_ne_nil hspace hall)]
    rfl
  | stream hroom hs => exact Script.read_ending (Nat.lt_of_lt_of_le hspace hroom) hs
  | window hroom hgot hs =>
    have hends := Script.read_ending (Nat.lt_trans hspace hroom) hs
    rw [Reading.endsFit_bytes hgot] at hends
    rw [Reading.endsFit_bytes (take_ne_nil hspace hgot)]
    exact hends

theorem drainFrom_stop (taken : Bytes) (r : Reader) : (drainFrom taken r).stop = r.ending := by
  have hspace : 0 < transferSize := by decide
  fun_induction drainFrom taken r with
  | case1 taken r rest hr => exact (read_ending hspace hr).symm
  | case2 taken r b bs rest hr ih => exact ih.trans (read_ending hspace hr).symm
  | case3 taken r error rest hr hkind hshorter ih =>
    have hends := (Reading.endsFit_interrupted hkind).1 (read_ending hspace hr)
    exact ih.trans hends.1.symm
  | case4 taken r error rest hr hkind hshorter =>
    have hends := (Reading.endsFit_interrupted hkind).1 (read_ending hspace hr)
    exact (hends.2 hshorter).symm
  | case5 taken r error rest hr hkind =>
    have hends := (Reading.endsFit_failed hkind).1 (read_ending hspace hr)
    exact hends.symm
  | case6 taken r rest hr => exact (read_ending hspace hr).symm

/-- Reading to the end ends as the flow does. -/
theorem drain_stop (r : Reader) : r.drain.stop = r.ending := drainFrom_stop [] r

theorem fillFrom_stop (want : Nat) (taken : Bytes) (r : Reader) :
    (fillFrom want taken r).stop = if want ≤ r.flow.length then .done else r.ending := by
  fun_induction fillFrom want taken r with
  | case1 taken r => simp
  | case2 want taken r hwant rest hr =>
    have hflow : r.flow = [] := read_fits (Nat.pos_of_ne_zero hwant) hr
    have hends : r.ending = .done := read_ending (Nat.pos_of_ne_zero hwant) hr
    simp [hflow, hwant, hends]
  | case3 want taken r hwant b bs rest hr ih =>
    have hflow : r.flow = (b :: bs) ++ rest.flow := read_fits (Nat.pos_of_ne_zero hwant) hr
    have hends : r.ending = rest.ending := read_ending (Nat.pos_of_ne_zero hwant) hr
    rw [ih, hends, hflow, List.length_append]
    simp only [Nat.sub_le_iff_le_add, Nat.add_comm]
  | case4 want taken r hwant error rest hr hkind hshorter ih =>
    have hfits := (Reading.fits_interrupted hkind).1 (read_fits (Nat.pos_of_ne_zero hwant) hr)
    have hends := (Reading.endsFit_interrupted hkind).1 (read_ending (Nat.pos_of_ne_zero hwant) hr)
    rw [ih, hfits.1, hends.1]
  | case5 want taken r hwant error rest hr hkind hshorter =>
    have hfits := (Reading.fits_interrupted hkind).1 (read_fits (Nat.pos_of_ne_zero hwant) hr)
    have hends := (Reading.endsFit_interrupted hkind).1 (read_ending (Nat.pos_of_ne_zero hwant) hr)
    simp [hfits.2 hshorter, hends.2 hshorter, hwant]
  | case6 want taken r hwant error rest hr hkind =>
    have hflow := (Reading.fits_failed hkind).1 (read_fits (Nat.pos_of_ne_zero hwant) hr)
    have hends := (Reading.endsFit_failed hkind).1 (read_ending (Nat.pos_of_ne_zero hwant) hr)
    simp [hflow, hends, hwant]
  | case7 want taken r hwant rest hr =>
    have hflow : r.flow = [] := read_fits (Nat.pos_of_ne_zero hwant) hr
    have hends : r.ending = .stalled := read_ending (Nat.pos_of_ne_zero hwant) hr
    simp [hflow, hwant, hends]

/-- Filling a buffer that the flow does not fill ends as the flow does. -/
theorem fill_stop (want : Nat) (r : Reader) :
    (r.fill want).stop = if want ≤ r.flow.length then .done else r.ending :=
  fillFrom_stop want [] r

/-- Filling a buffer stalls only after the flow, before the buffer is full. -/
theorem length_flow_of_stalled {want : Nat} {r : Reader} (h : (r.fill want).stop = .stalled) :
    r.flow.length < want := by
  refine Nat.lt_of_not_le fun hfull => ?_
  rw [fill_stop, if_pos hfull] at h
  cases h

/-! ## The window -/

theorem fillFrom_window (want : Nat) (taken : Bytes) (r : Reader) :
    (fillFrom want taken r).rest.window = r.window := by
  fun_induction fillFrom want taken r with
  | case1 => rfl
  | case3 _ _ _ _ _ _ _ hr ih | case4 _ _ _ _ _ _ hr _ _ ih => exact ih.trans (window_of_read hr)
  | case2 _ _ _ _ _ hr | case5 _ _ _ _ _ _ hr | case6 _ _ _ _ _ _ hr | case7 _ _ _ _ _ hr =>
    exact window_of_read hr

/-! ## Streams whose end is final -/

/-- After a read of no bytes every read answers none. -/
def Script.Final (s : Script) : Prop :=
  ∀ ⦃t u : Script⦄ ⦃space more : Nat⦄, Later s t → 0 < space → (t.read space).1 = .bytes [] →
    Later (t.read space).2 u → 0 < more → (u.read more).1 = .bytes []

namespace Script

theorem Final.rest {s : Script} (h : s.Final) {space : Nat} (hspace : 0 < space) :
    (s.read space).2.Final := fun _ _ _ _ hlater => h (.read hspace hlater)

/-- Where a final stream has answered no bytes, it answers none again. -/
theorem Final.read_again {s rest : Script} {space : Nat} (h : s.Final) (hspace : 0 < space)
    (hr : s.read space = (.bytes [], rest)) : rest.read 1 = (.bytes [], (rest.read 1).2) := by
  have hrest := @h s rest space 1 (.here s) hspace
  rw [hr] at hrest
  exact Prod.ext (hrest rfl (.here rest) Nat.one_pos) rfl

/-- Nothing comes after the end of a final stream. -/
theorem Final.over {s rest : Script} {space : Nat} (h : s.Final) (hspace : 0 < space)
    (hr : s.read space = (.bytes [], rest)) : rest.flow = [] ∧ rest.ending = .done := by
  have hread := h.read_again hspace hr
  exact ⟨read_fits Nat.one_pos hread, read_ending Nat.one_pos hread⟩

/-- Where a stream without pauses answers no bytes, every later read leaves it as it is. -/
theorem read_of_no_pause {s : Script} {space : Nat} (h : ∀ step ∈ s, step ≠ .pause) :
    (∀ step ∈ (s.read space).2, step ≠ .pause) ∧
      (0 < space → (s.read space).1 = .bytes [] → ∀ more, 0 < more →
        (s.read space).2.read more = (.bytes [], (s.read space).2)) := by
  fun_induction read space s with
  | case1 => exact ⟨h, fun _ _ _ _ => rfl⟩
  | case2 most later ih | case7 later ih =>
    exact ih fun step hstep => h step (List.mem_cons_of_mem _ hstep)
  | case3 b bs most later count =>
    refine ⟨fun step hstep => ?_, fun hspace hnil more hmore => ?_⟩
    · rcases List.mem_cons.1 hstep with rfl | hstep
      · intro hpause
        cases hpause
      · exact h step (List.mem_cons_of_mem _ hstep)
    · have hzero : count = 0 := by simpa using hnil
      have hmost : most = some 0 := Decidable.byContradiction fun hne =>
        Nat.ne_of_gt (allowed_pos hspace hne) hzero
      subst hmost
      simp [hzero, read, allowed]
  | case4 error later =>
    refine ⟨fun step hstep => h step (List.mem_cons_of_mem _ hstep), fun _ hnil => ?_⟩
    cases hnil
  | case5 | case8 =>
    refine ⟨h, fun _ hnil => ?_⟩
    cases hnil
  | case6 later => exact absurd rfl (h .pause List.mem_cons_self)

/-- A stream without pauses is final, however it fails. -/
theorem final_of_no_pause {s : Script} (h : ∀ step ∈ s, step ≠ .pause) : s.Final := by
  have hlater : ∀ {t : Script}, Later s t → ∀ step ∈ t, step ≠ .pause := by
    intro t ht
    induction ht with
    | here => exact h
    | read _ _ ih => exact ih (read_of_no_pause h).1
  have hover : ∀ {t u : Script}, Later t u → (∀ more, 0 < more → t.read more = (.bytes [], t)) →
      u = t := by
    intro t u hu ht
    induction hu with
    | here => rfl
    | read hspace _ ih =>
      rw [ht _ hspace] at ih
      exact ih ht
  intro t u space more ht hspace hnil hu hmore
  have hend := (read_of_no_pause (hlater ht)).2 hspace hnil
  rw [hover hu hend, hend more hmore]

end Script

/-- The stream behind the reader is final. -/
def Final (r : Reader) : Prop := r.script.Final

namespace Final

variable {r rest : Reader}

theorem read (h : r.Final) {space : Nat} {reading : Reading} (hspace : 0 < space)
    (hr : r.read space = (reading, rest)) :
    rest.Final ∧ (reading = .bytes [] → rest.flow = [] ∧ rest.ending = .done) := by
  cases reads_of_read hr with
  | ahead hall =>
    exact ⟨h, fun hnil => absurd (Reading.bytes.inj hnil) (take_ne_nil hspace hall)⟩
  | stream hroom hs =>
    have hroom := Nat.lt_of_lt_of_le hspace hroom
    have hrest := Script.Final.rest h hroom
    rw [hs] at hrest
    refine ⟨hrest, fun hnil => ?_⟩
    subst hnil
    exact Script.Final.over h hroom hs
  | window hroom hgot hs =>
    have hrest := Script.Final.rest h (Nat.lt_trans hspace hroom)
    rw [hs] at hrest
    exact ⟨hrest, fun hnil => absurd (Reading.bytes.inj hnil) (take_ne_nil hspace hgot)⟩

/-- A look ahead keeps the stream final, and shows nothing where nothing is to come. -/
theorem peek (h : r.Final) (hwindow : 0 < r.window) {reading : Reading}
    (hr : r.peek = (reading, rest)) :
    rest.Final ∧ ∀ got, reading = .bytes got → r.flow = [] → got = [] := by
  obtain ⟨script, ahead, window⟩ := r
  cases ahead with
  | cons b bs =>
    cases hr
    exact ⟨h, fun got _ hflow => by cases hflow⟩
  | nil =>
    have hrest := Script.Final.rest h hwindow
    unfold Reader.peek at hr
    dsimp only at hr
    split at hr <;> rename_i hs <;> cases hr <;> rw [hs] at hrest
    · rename_i got later
      refine ⟨hrest, fun shown hshown hflow => ?_⟩
      cases hshown
      cases got with
      | nil => rfl
      | cons b bs =>
        have hfits : script.flow = (b :: bs) ++ later.flow := Script.read_fits hwindow hs
        cases hflow.symm.trans hfits
    · rename_i hbytes
      exact ⟨hrest, fun got hgot => absurd hgot (hbytes got)⟩

theorem fillFrom (want : Nat) (taken : Bytes) {r : Reader} (h : r.Final) :
    (fillFrom want taken r).rest.Final ∧ ((Reader.fillFrom want taken r).stop = .done →
      (Reader.fillFrom want taken r).rest.flow = r.flow.drop want ∧
        (Reader.fillFrom want taken r).rest.ending = r.ending) := by
  fun_induction Reader.fillFrom want taken r with
  | case1 taken r => exact ⟨h, fun _ => ⟨rfl, rfl⟩⟩
  | case2 want taken r hwant rest hr =>
    have hwant := Nat.pos_of_ne_zero hwant
    obtain ⟨hrest, hover⟩ := h.read hwant hr
    have hflow : r.flow = [] := read_fits hwant hr
    have hends : r.ending = .done := read_ending hwant hr
    refine ⟨hrest, fun _ => ?_⟩
    rw [hflow, hends, List.drop_nil]
    exact hover rfl
  | case3 want taken r hwant b bs rest hr ih =>
    have hwant := Nat.pos_of_ne_zero hwant
    have hflow : r.flow = (b :: bs) ++ rest.flow := read_fits hwant hr
    have hends : r.ending = rest.ending := read_ending hwant hr
    have hlen := length_le_of_read hr
    refine ⟨(ih (h.read hwant hr).1).1, fun hdone => ?_⟩
    rw [hflow, hends, List.drop_append, List.drop_of_length_le hlen, List.nil_append]
    exact (ih (h.read hwant hr).1).2 hdone
  | case4 want taken r hwant error rest hr hkind hshorter ih =>
    have hwant := Nat.pos_of_ne_zero hwant
    have hfits := (Reading.fits_interrupted hkind).1 (read_fits hwant hr)
    have hends := (Reading.endsFit_interrupted hkind).1 (read_ending hwant hr)
    rw [hfits.1, hends.1]
    exact ih (h.read hwant hr).1
  | case5 want taken r hwant error rest hr
  | case6 want taken r hwant error rest hr
  | case7 want taken r hwant rest hr =>
    refine ⟨(h.read (Nat.pos_of_ne_zero hwant) hr).1, fun hdone => ?_⟩
    cases hdone

end Final

/-- The buffer holds a front of `flow`, which ends like `ending`, and the reader still has the rest.
A buffer that is not full has all of it. -/
structure Loaded (flow : Bytes) (ending : Stop) (x : Refilled) : Prop where
  final : x.rest.Final
  count : x.count = x.chunk.length
  room : x.count ≤ x.buffer.size
  joined : x.chunk ++ x.rest.flow = flow
  rest : x.rest.ending = ending
  short : x.count < x.buffer.size → x.rest.flow = [] ∧ ending = .done

namespace Loaded

variable {flow : Bytes} {ending : Stop} {x : Refilled}

/-- A chunk that does not fill the buffer is all of the flow. -/
theorem eq_chunk (h : Loaded flow ending x) (hshort : x.count < x.buffer.size) :
    flow = x.chunk ∧ ending = .done := by
  obtain ⟨hrest, hending⟩ := h.short hshort
  rw [← h.joined, hrest, List.append_nil]
  exact ⟨rfl, hending⟩

theorem chunk_ne_nil (h : Loaded flow ending x) (hcount : x.count ≠ 0) : x.chunk ≠ [] := by
  rw [h.count] at hcount
  exact List.ne_nil_of_length_pos (Nat.pos_of_ne_zero hcount)

/-- A chunk that others follow fills the buffer. -/
theorem full (h : Loaded flow ending x) (hmore : x.rest.flow ≠ []) :
    x.chunk.length = x.buffer.size := by
  rw [← h.count]
  exact Nat.le_antisymm h.room (Nat.le_of_not_lt fun hshort => hmore (h.short hshort).1)

end Loaded

/-- Filling a buffer from a final stream, unless that fails. -/
theorem Final.refill {r : Reader} (h : r.Final) {b : Buffer}
    (hdone : (Reader.refill b r).stop = .done) : Loaded r.flow r.ending (Reader.refill b r) := by
  obtain ⟨hfinal, hrest⟩ := Final.fillFrom b.size [] h
  obtain ⟨hflow, hending⟩ := hrest hdone
  have hchunk : (Reader.refill b r).chunk = r.flow.take b.size := by
    rw [refill_chunk, fill_taken]
  have hflow : (Reader.refill b r).rest.flow = r.flow.drop b.size := hflow
  have hsize : (Reader.refill b r).buffer.size = b.size := rfl
  refine ⟨hfinal, ?_, ?_, ?_, hending, fun hshort => ?_⟩
  · rw [hchunk, refill_count, List.length_take]
  · rw [refill_count, hsize]
    exact Nat.min_le_left _ _
  · rw [hchunk, hflow, List.take_append_drop]
  · have hless : ¬ b.size ≤ r.flow.length := by
      rw [refill_count] at hshort
      omega
    have hstop : (Reader.refill b r).stop = r.ending := (fill_stop b.size r).trans (if_neg hless)
    exact ⟨hflow.trans (List.drop_of_length_le (Nat.le_of_not_le hless)), hstop.symm.trans hdone⟩

/-! ## What a reader yields -/

/-- Reads with room for at least one byte, up to the first that answers none, hand out the bytes.
One that is interrupted is made again. -/
inductive Yields : Reader → Bytes → Prop
  | done {r rest : Reader} {space : Nat} : 0 < space → r.read space = (.bytes [], rest) →
      Yields r []
  | more {r rest : Reader} {space : Nat} {got bytes : Bytes} : 0 < space → got ≠ [] →
      r.read space = (.bytes got, rest) → Yields rest bytes → Yields r (got ++ bytes)
  | again {r rest : Reader} {space : Nat} {error : IoError} {bytes : Bytes} : 0 < space →
      r.read space = (.failed error, rest) → error.kind = .interrupted → Yields rest bytes →
      Yields r bytes

/-- Reads of whatever sizes yield the flow, up to its end. -/
theorem Yields.flow_eq {r : Reader} {bytes : Bytes} (h : r.Yields bytes) :
    r.flow = bytes ∧ r.ending = .done := by
  induction h with
  | done hspace hr => exact ⟨read_fits hspace hr, read_ending hspace hr⟩
  | @more r rest space got bytes hspace hgot hr _ ih =>
    obtain ⟨b, bs, rfl⟩ := List.exists_cons_of_ne_nil hgot
    have hflow : r.flow = (b :: bs) ++ rest.flow := read_fits hspace hr
    have hends : r.ending = rest.ending := read_ending hspace hr
    rw [hflow, hends, ih.1]
    exact ⟨rfl, ih.2⟩
  | again hspace hr hkind _ ih =>
    have hfits := (Reading.fits_interrupted hkind).1 (read_fits hspace hr)
    have hends := (Reading.endsFit_interrupted hkind).1 (read_ending hspace hr)
    rw [hfits.1, hends.1]
    exact ih

theorem yields_of_drainFrom {taken : Bytes} {r : Reader} (h : (drainFrom taken r).stop = .done) :
    r.Yields r.flow := by
  have hspace : 0 < transferSize := by decide
  fun_induction drainFrom taken r with
  | case1 taken r rest hr =>
    have hflow : r.flow = [] := read_fits hspace hr
    rw [hflow]
    exact .done hspace hr
  | case2 taken r b bs rest hr ih =>
    have hflow : r.flow = (b :: bs) ++ rest.flow := read_fits hspace hr
    rw [hflow]
    exact .more hspace (List.cons_ne_nil b bs) hr (ih h)
  | case3 taken r error rest hr hkind hshorter ih =>
    have hfits := (Reading.fits_interrupted hkind).1 (read_fits hspace hr)
    rw [hfits.1]
    exact .again hspace hr hkind (ih h)
  | case4 | case5 | case6 => cases h

/-- A reader yields what is read to its end, if that ends well. -/
theorem yields_iff {r : Reader} {bytes : Bytes} :
    r.Yields bytes ↔ r.drain.stop = .done ∧ r.drain.taken = bytes := by
  constructor
  · intro h
    rw [drain_stop, drain_taken]
    exact ⟨h.flow_eq.2, h.flow_eq.1⟩
  · rintro ⟨hstop, rfl⟩
    rw [drain_taken]
    exact yields_of_drainFrom hstop

end ChunkedUpload.Reader
