import ChunkedUpload.Proofs.Reader.Ending

/-!
# Where a flow is interrupted

`Script.interruptions` lists, for each interruption of a flow, how many bytes come before it. Reads
of any sizes meet the interruptions at these places and nowhere else (`read_interruptions`), so
filling a buffer that the flow fills leaves just those behind it (`fill_rest`). The look ahead is
the one reader that does not try again, and it fails if and only if the next byte comes after an
interruption (`peek_of_interrupted`, `peek_of_quiet`). `Script.calm` is the stream without its
interruptions; it hands out the same flow and ends the same way. A stream that `Breaks` hands out
its flow without an interruption and then fails.
-/

namespace ChunkedUpload.Reader

/-! ## Streams -/

namespace Script

/-- For each interruption of the flow, how many bytes come before it. -/
def interruptions : Script → List Nat
  | [] => []
  | .data [] _ :: later => interruptions later
  | .data (_ :: _) (some 0) :: _ => []
  | .data (b :: bs) _ :: later => (interruptions later).map ((b :: bs).length + ·)
  | .notReady :: later => interruptions later
  | .fail error :: later => if error.kind = .interrupted then 0 :: interruptions later else []
  | .failForever error :: _ => if error.kind = .interrupted then [0] else []
  | _ :: _ => []

theorem interruptions_data {bytes : Bytes} {most : Option Nat} (later : Script)
    (h : most ≠ some 0) :
    interruptions (.data bytes most :: later) =
      (interruptions later).map (bytes.length + ·) := by
  cases bytes with
  | nil => simp [interruptions]
  | cons b bs =>
    rcases most with _ | _ | n
    · rfl
    · exact absurd rfl h
    · rfl

/-- An interruption comes after some of the flow, or after all of it. -/
theorem le_length_flow {s : Script} {n : Nat} (h : n ∈ s.interruptions) : n ≤ s.flow.length := by
  fun_induction interruptions s generalizing n with
  | case1 | case3 | case7 | case9 | case10 => cases h
  | case2 most later ih | case5 later ih => exact ih h
  | case4 b bs most later hmost ih =>
    obtain ⟨k, hk, rfl⟩ := List.mem_map.1 h
    rw [flow_data later fun heq => hmost heq, List.length_append]
    exact Nat.add_le_add_left (ih hk) _
  | case6 error later hkind ih =>
    rw [flow, if_pos hkind]
    rcases List.mem_cons.1 h with rfl | hk
    · exact Nat.zero_le _
    · exact ih hk
  | case8 error later hkind =>
    rw [List.mem_singleton.1 h]
    exact Nat.zero_le _

end Script

/-- How the interruptions before a read and those after it fit what the read answered. -/
def Reading.OffsetsFit (reading : Reading) (before after : List Nat) : Prop :=
  match reading with
  | .bytes [] | .stalled => before = []
  | .bytes (b :: bs) => before = after.map ((b :: bs).length + ·)
  | .failed error =>
    if error.kind = .interrupted then ∀ n, n ∈ before ↔ n = 0 ∨ n ∈ after else before = []

namespace Reading

variable {error : IoError} {before after : List Nat}

theorem offsetsFit_bytes {got : Bytes} (h : got ≠ []) :
    (bytes got).OffsetsFit before after ↔ before = after.map (got.length + ·) := by
  cases got with
  | nil => exact absurd rfl h
  | cons b bs => rfl

theorem offsetsFit_interrupted (h : error.kind = .interrupted) :
    (failed error).OffsetsFit before after ↔ ∀ n, n ∈ before ↔ n = 0 ∨ n ∈ after := by
  rw [OffsetsFit, if_pos h]

theorem offsetsFit_failed (h : error.kind ≠ .interrupted) :
    (failed error).OffsetsFit before after ↔ before = [] := by
  rw [OffsetsFit, if_neg h]

end Reading

/-- What a read hands out of some bytes and what it leaves come before the same interruptions. -/
theorem map_length_take_drop (bytes : Bytes) (count : Nat) (offsets : List Nat) :
    (offsets.map ((bytes.drop count).length + ·)).map ((bytes.take count).length + ·) =
      offsets.map (bytes.length + ·) := by
  rw [List.map_map]
  refine List.map_congr_left fun k _ => ?_
  simp only [Function.comp_apply, List.length_take, List.length_drop]
  omega

theorem Script.read_interruptions {space : Nat} {s rest : Script} {reading : Reading}
    (hspace : 0 < space) (h : s.read space = (reading, rest)) :
    reading.OffsetsFit s.interruptions rest.interruptions := by
  fun_induction read space s with
  | case1 => cases h; rfl
  | case2 most later ih | case7 later ih => exact ih h
  | case3 b bs most later count =>
    cases h
    by_cases hmost : most = some 0
    · subst hmost
      simp [count, allowed, Reading.OffsetsFit, interruptions]
    · have hcount : 0 < count := allowed_pos hspace hmost
      rw [Reading.offsetsFit_bytes (take_ne_nil hcount (List.cons_ne_nil b bs)),
        interruptions_data later hmost, interruptions_data later hmost, map_length_take_drop]
  | case4 error later =>
    cases h
    unfold Reading.OffsetsFit
    dsimp only [interruptions]
    split <;> simp
  | case5 error later =>
    cases h
    unfold Reading.OffsetsFit
    dsimp only [interruptions]
    split <;> simp
  | case6 later => cases h; rfl
  | case8 later => cases h; rfl

/-! ## Readers -/

/-- The interruptions of a reader's flow; what was read ahead comes before all of them. -/
def interruptions (r : Reader) : List Nat := r.script.interruptions.map (r.ahead.length + ·)

theorem interruptions_of_no_ahead {script : Script} {window : Nat} :
    interruptions ⟨script, [], window⟩ = script.interruptions := by
  simp [interruptions]

theorem read_interruptions {space : Nat} {r rest : Reader} {reading : Reading} (hspace : 0 < space)
    (h : r.read space = (reading, rest)) :
    reading.OffsetsFit r.interruptions rest.interruptions := by
  cases reads_of_read h with
  | ahead hall =>
    rw [Reading.offsetsFit_bytes (take_ne_nil hspace hall), interruptions, interruptions,
      map_length_take_drop]
  | stream hroom hs =>
    rw [interruptions_of_no_ahead, interruptions_of_no_ahead]
    exact Script.read_interruptions (Nat.lt_of_lt_of_le hspace hroom) hs
  | window hroom hgot hs =>
    have hfits := Script.read_interruptions (Nat.lt_trans hspace hroom) hs
    rw [Reading.offsetsFit_bytes hgot] at hfits
    rw [Reading.offsetsFit_bytes (take_ne_nil hspace hgot), interruptions_of_no_ahead, hfits,
      interruptions, map_length_take_drop]

/-- What filling a buffer leaves to be read, if the flow fills it: an interruption before the last
byte that is wanted has been dealt with, and one right after it has not been met. -/
theorem fillFrom_rest (want : Nat) (taken : Bytes) {r : Reader} (hlong : want ≤ r.flow.length) :
    (fillFrom want taken r).rest.flow = r.flow.drop want ∧
      (fillFrom want taken r).rest.ending = r.ending ∧
      ∀ n, n ∈ (fillFrom want taken r).rest.interruptions ↔ want + n ∈ r.interruptions := by
  -- where the flow has ended, no more is wanted
  have hended : ∀ {want : Nat} {r : Reader}, want ≠ 0 → want ≤ r.flow.length → r.flow ≠ [] := by
    intro want r hwant hlong hflow
    rw [hflow] at hlong
    exact hwant (Nat.le_zero.1 hlong)
  fun_induction fillFrom want taken r with
  | case1 taken r => simp
  | case2 want taken r hwant rest hr | case7 want taken r hwant rest hr =>
    exact absurd (read_fits (Nat.pos_of_ne_zero hwant) hr) (hended hwant hlong)
  | case3 want taken r hwant b bs rest hr ih =>
    have hwant := Nat.pos_of_ne_zero hwant
    have hflow : r.flow = (b :: bs) ++ rest.flow := read_fits hwant hr
    have hends : r.ending = rest.ending := read_ending hwant hr
    have hoffsets : r.interruptions = rest.interruptions.map ((b :: bs).length + ·) :=
      read_interruptions hwant hr
    have hlen := length_le_of_read hr
    rw [hflow, List.length_append] at hlong
    obtain ⟨ihflow, ihends, ihoffsets⟩ := ih (by omega)
    refine ⟨?_, ihends.trans hends.symm, fun n => ?_⟩
    · rw [ihflow, hflow, List.drop_append, List.drop_of_length_le hlen, List.nil_append]
    · rw [ihoffsets, hoffsets, List.mem_map]
      constructor
      · intro hn
        exact ⟨_, hn, by omega⟩
      · intro hn
        obtain ⟨k, hk, hsum⟩ := hn
        rwa [show want - (b :: bs).length + n = k by omega]
  | case4 want taken r hwant error rest hr hkind hshorter ih =>
    have hpos := Nat.pos_of_ne_zero hwant
    have hfits := (Reading.fits_interrupted hkind).1 (read_fits hpos hr)
    have hends := (Reading.endsFit_interrupted hkind).1 (read_ending hpos hr)
    have hoffsets := (Reading.offsetsFit_interrupted hkind).1 (read_interruptions hpos hr)
    rw [hfits.1, hends.1]
    obtain ⟨ihflow, ihends, ihoffsets⟩ := ih (hfits.1 ▸ hlong)
    refine ⟨ihflow, ihends, fun n => ?_⟩
    rw [ihoffsets, hoffsets]
    simp [hwant]
  | case5 want taken r hwant error rest hr hkind hshorter =>
    have hfits := (Reading.fits_interrupted hkind).1 (read_fits (Nat.pos_of_ne_zero hwant) hr)
    exact absurd (hfits.2 hshorter) (hended hwant hlong)
  | case6 want taken r hwant error rest hr hkind =>
    have hflow := (Reading.fits_failed hkind).1 (read_fits (Nat.pos_of_ne_zero hwant) hr)
    exact absurd hflow (hended hwant hlong)

theorem fill_rest (want : Nat) {r : Reader} (hlong : want ≤ r.flow.length) :
    (r.fill want).rest.flow = r.flow.drop want ∧ (r.fill want).rest.ending = r.ending ∧
      ∀ n, n ∈ (r.fill want).rest.interruptions ↔ want + n ∈ r.interruptions :=
  fillFrom_rest want [] hlong

/-! ## Streams whose end is final -/

/-- No interruption comes after the end of a final stream. -/
theorem Script.Final.quiet {s rest : Script} {space : Nat} (h : s.Final) (hspace : 0 < space)
    (hr : s.read space = (.bytes [], rest)) : rest.interruptions = [] :=
  read_interruptions Nat.one_pos (h.read_again hspace hr)

namespace Final

variable {r rest : Reader}

theorem quiet (h : r.Final) {space : Nat} (hspace : 0 < space)
    (hr : r.read space = (.bytes [], rest)) : rest.interruptions = [] := by
  generalize hreading : Reading.bytes [] = reading at hr
  cases reads_of_read hr with
  | ahead hall => exact absurd (Reading.bytes.inj hreading).symm (take_ne_nil hspace hall)
  | stream hroom hs =>
    subst hreading
    rw [interruptions_of_no_ahead]
    exact Script.Final.quiet h (Nat.lt_of_lt_of_le hspace hroom) hs
  | window hroom hgot hs => exact absurd (Reading.bytes.inj hreading).symm (take_ne_nil hspace hgot)

/-- Nor after a buffer that such a stream could not fill. -/
theorem fillFrom_quiet (want : Nat) (taken : Bytes) (h : r.Final)
    (hshort : r.flow.length < want) (hdone : (Reader.fillFrom want taken r).stop = .done) :
    (Reader.fillFrom want taken r).rest.interruptions = [] := by
  fun_induction Reader.fillFrom want taken r with
  | case1 taken r => exact absurd hshort (Nat.not_lt_zero _)
  | case2 want taken r hwant rest hr => exact h.quiet (Nat.pos_of_ne_zero hwant) hr
  | case3 want taken r hwant b bs rest hr ih =>
    have hwant := Nat.pos_of_ne_zero hwant
    have hflow : r.flow = (b :: bs) ++ rest.flow := read_fits hwant hr
    rw [hflow, List.length_append] at hshort
    exact ih (h.read hwant hr).1 (by omega) hdone
  | case4 want taken r hwant error rest hr hkind hshorter ih =>
    have hwant := Nat.pos_of_ne_zero hwant
    have hfits := (Reading.fits_interrupted hkind).1 (read_fits hwant hr)
    exact ih (h.read hwant hr).1 (hfits.1 ▸ hshort) hdone
  | case5 | case6 | case7 => cases hdone

end Final

/-! ## The look ahead -/

/-- What a read answers where the flow has ended. -/
def Stop.reading : Stop → Reading
  | .done => .bytes []
  | .failed error => .failed error
  | .stalled => .stalled

/-- With an interruption right ahead, the look ahead fails. -/
theorem peek_of_interrupted {r : Reader} (hwindow : 0 < r.window) (h : 0 ∈ r.interruptions) :
    ∃ error rest, r.peek = (.failed error, rest) ∧ error.kind = .interrupted := by
  obtain ⟨script, ahead, window⟩ := r
  cases ahead with
  | cons b bs => simp [interruptions] at h
  | nil =>
    rw [interruptions_of_no_ahead] at h
    cases hr : script.read window with
    | mk reading rest =>
      have hfits := Script.read_interruptions hwindow hr
      rcases reading with (_ | ⟨b, bs⟩) | error | _
      · rw [show script.interruptions = [] from hfits] at h
        cases h
      · rw [show script.interruptions = rest.interruptions.map _ from hfits] at h
        simp at h
      · refine ⟨error, _, by simp only [peek, hr]; rfl, Decidable.byContradiction fun hkind => ?_⟩
        rw [(Reading.offsetsFit_failed hkind).1 hfits] at h
        cases h
      · rw [show script.interruptions = [] from hfits] at h
        cases h

/-- With no interruption right ahead, the look ahead shows what comes next and takes nothing. -/
theorem peek_of_quiet {r : Reader} (hwindow : 0 < r.window) (h : 0 ∉ r.interruptions) :
    (r.flow ≠ [] → ∃ ahead rest, r.peek = (.bytes ahead, rest) ∧ ahead ≠ [] ∧
      rest.flow = r.flow ∧ rest.ending = r.ending) ∧
    (r.flow = [] → ∃ rest, r.peek = (r.ending.reading, rest)) := by
  obtain ⟨script, ahead, window⟩ := r
  cases ahead with
  | cons b bs =>
    refine ⟨fun _ => ⟨_, _, rfl, List.cons_ne_nil b bs, rfl, rfl⟩, fun hflow => ?_⟩
    cases hflow
  | nil =>
    rw [interruptions_of_no_ahead] at h
    cases hr : script.read window with
    | mk reading rest =>
      have hflow := Script.read_fits hwindow hr
      have hends := Script.read_ending hwindow hr
      have hoffsets := Script.read_interruptions hwindow hr
      rcases reading with (_ | ⟨b, bs⟩) | error | _
      · refine ⟨fun hsome => absurd hflow hsome, fun _ => ⟨⟨rest, [], window⟩, ?_⟩⟩
        rw [show ending ⟨script, [], window⟩ = .done from hends]
        simp only [peek, hr, Stop.reading]
      · refine ⟨fun _ => ⟨b :: bs, ⟨rest, b :: bs, window⟩, by simp only [peek, hr],
          List.cons_ne_nil b bs, hflow.symm, hends.symm⟩, fun hnone => ?_⟩
        cases hnone.symm.trans (show flow ⟨script, [], window⟩ = (b :: bs) ++ rest.flow from hflow)
      · have hkind : error.kind ≠ .interrupted := by
          intro hkind
          exact h (((Reading.offsetsFit_interrupted hkind).1 hoffsets 0).2 (.inl rfl))
        have hflow := (Reading.fits_failed hkind).1 hflow
        have hends := (Reading.endsFit_failed hkind).1 hends
        refine ⟨fun hsome => absurd hflow hsome, fun _ => ⟨⟨rest, [], window⟩, ?_⟩⟩
        rw [show ending ⟨script, [], window⟩ = .failed error from hends]
        simp only [peek, hr, Stop.reading]
      · refine ⟨fun hsome => absurd hflow hsome, fun _ => ⟨⟨rest, [], window⟩, ?_⟩⟩
        rw [show ending ⟨script, [], window⟩ = .stalled from hends]
        simp only [peek, hr, Stop.reading]

/-! ## Streams without interruptions -/

/-- The step is one interruption. -/
def Step.interrupts : Step → Bool
  | .fail error => error.kind = .interrupted
  | _ => false

namespace Script

/-- The stream without its interruptions. -/
def calm (s : Script) : Script := s.filter (!·.interrupts)

theorem calm_cons (step : Step) (later : Script) :
    calm (step :: later) = if step.interrupts then calm later else step :: calm later := by
  rw [calm, List.filter_cons]
  cases step.interrupts <;> rfl

theorem calm_of_interrupts {step : Step} (later : Script) (h : step.interrupts = true) :
    calm (step :: later) = calm later := by rw [calm_cons, if_pos h]

theorem calm_of_not_interrupts {step : Step} (later : Script) (h : step.interrupts = false) :
    calm (step :: later) = step :: calm later := by rw [calm_cons, h]; rfl

/-- Without its interruptions a stream hands out the same bytes and ends the same way; where it is
interrupted still, for ever, it was before. -/
theorem calm_spec (s : Script) : s.calm.flow = s.flow ∧ s.calm.ending = s.ending ∧
    ∀ n, n ∈ s.calm.interruptions → n ∈ s.interruptions := by
  fun_induction flow s with
  | case1 => exact ⟨rfl, rfl, fun _ hn => hn⟩
  | case2 most later ih | case5 later ih => exact ih
  | case3 b bs later => exact ⟨rfl, rfl, fun _ hn => hn⟩
  | case4 b bs most later hmost ih =>
    obtain ⟨hflow, hending, hoffsets⟩ := ih
    have hmost : most ≠ some 0 := fun heq => hmost heq
    rw [calm_of_not_interrupts later rfl, flow_data _ hmost, ending_data _ hmost,
      ending_data _ hmost, interruptions_data _ hmost, interruptions_data _ hmost, hflow]
    refine ⟨rfl, hending, fun n hn => ?_⟩
    obtain ⟨k, hk, rfl⟩ := List.mem_map.1 hn
    exact List.mem_map_of_mem (hoffsets k hk)
  | case6 error later hkind ih =>
    obtain ⟨hflow, hending, hoffsets⟩ := ih
    have hinterrupts : (Step.fail error).interrupts = true := decide_eq_true hkind
    rw [calm_of_interrupts later hinterrupts, ending, if_pos hkind, interruptions, if_pos hkind]
    exact ⟨hflow, hending, fun n hn => List.mem_cons_of_mem 0 (hoffsets n hn)⟩
  | case7 error later hkind =>
    have hinterrupts : (Step.fail error).interrupts = false := decide_eq_false hkind
    rw [calm_of_not_interrupts later hinterrupts, flow, if_neg hkind, ending, ending,
      if_neg hkind, if_neg hkind, interruptions, if_neg hkind]
    exact ⟨rfl, rfl, fun _ hn => absurd hn List.not_mem_nil⟩
  | case8 step later hempty _ hdata hready hfail =>
    cases step with
    | data bytes most =>
      cases bytes with
      | nil => exact (hempty most rfl).elim
      | cons b bs => exact (hdata b bs most rfl).elim
    | fail error => exact (hfail error rfl).elim
    | notReady => exact (hready rfl).elim
    | failForever | pause | stall => exact ⟨rfl, rfl, fun _ hn => hn⟩

/-! ## Streams that break -/

/-- Reads with room for at least one byte hand out the bytes, and then one fails. -/
inductive Breaks (error : IoError) : Script → Bytes → Prop
  | now {s rest : Script} {space : Nat} : 0 < space → s.read space = (.failed error, rest) →
      Breaks error s []
  | later {s rest : Script} {space : Nat} {got bytes : Bytes} : 0 < space → got ≠ [] →
      s.read space = (.bytes got, rest) → Breaks error rest bytes → Breaks error s (got ++ bytes)

/-- Up to the failure the bytes are the flow, whatever the sizes of the reads. -/
theorem Breaks.flow_eq {error : IoError} {s : Script} {bytes : Bytes} (h : s.Breaks error bytes)
    (hkind : error.kind ≠ .interrupted) :
    s.flow = bytes ∧ s.ending = .failed error ∧ s.interruptions = [] := by
  induction h with
  | now hspace hr =>
    exact ⟨(Reading.fits_failed hkind).1 (read_fits hspace hr),
      (Reading.endsFit_failed hkind).1 (read_ending hspace hr),
      (Reading.offsetsFit_failed hkind).1 (read_interruptions hspace hr)⟩
  | @later s rest space got bytes hspace hgot hr _ ih =>
    obtain ⟨b, bs, rfl⟩ := List.exists_cons_of_ne_nil hgot
    have hflow : s.flow = (b :: bs) ++ rest.flow := read_fits hspace hr
    have hending : s.ending = rest.ending := read_ending hspace hr
    have hoffsets : s.interruptions = rest.interruptions.map ((b :: bs).length + ·) :=
      read_interruptions hspace hr
    obtain ⟨ihflow, ihending, ihoffsets⟩ := ih
    rw [hflow, hending, hoffsets, ihflow, ihending, ihoffsets]
    exact ⟨rfl, rfl, rfl⟩

end Script

end ChunkedUpload.Reader
