import ChunkedUpload.Proofs.Reader.Delivery
import ChunkedUpload.Proofs.Upload.Steps

/-!
# Slices of a stream

A steady stream is cut at the multiples of the chunk size: the part after the first `index` holds
`slice size bytes index`, there are `partCount` parts, and together they are the stream
(`flatten_slices`). `Sliced` collects what has to be known of writing one slice; then the same is
known of all parts of a stream, however its reads are fragmented (`Sliced.writeParts`).
-/

namespace ChunkedUpload

open Call (Ends)

/-! ## Where a stream is cut -/

/-- How many parts `length` bytes make: one for each full or begun chunk, but one even for no bytes,
and one for all that is left after the last part but one of the limit. -/
def partCount (size length : Nat) : Nat :=
  if length ≤ (composeLimit - 1) * size then max 1 ((length + size - 1) / size) else composeLimit

/-- The content of the part after the first `index`. -/
def slice (size : Nat) (bytes : Bytes) (index : Nat) : Bytes :=
  if index < composeLimit - 1 then (bytes.drop (index * size)).take size
  else bytes.drop (index * size)

/-- The contents of the first `count` parts. -/
def slicesUpTo (size : Nat) (bytes : Bytes) (count : Nat) : List Bytes :=
  (List.range count).map (slice size bytes)

/-- The contents of all parts. -/
def slices (size : Nat) (bytes : Bytes) : List Bytes :=
  slicesUpTo size bytes (partCount size bytes.length)

/-- How often the limit is reached, which is once or never. -/
def limitCount (size length : Nat) : Nat := if (composeLimit - 1) * size < length then 1 else 0

variable {size : Nat} {bytes : Bytes}

theorem length_slicesUpTo (count : Nat) : (slicesUpTo size bytes count).length = count := by
  rw [slicesUpTo, List.length_map, List.length_range]

theorem slicesUpTo_succ (count : Nat) : slicesUpTo size bytes (count + 1) =
    slicesUpTo size bytes count ++ [slice size bytes count] := by
  rw [slicesUpTo, List.range_succ, List.map_append]
  rfl

/-- Short of the limit, the number of parts is the one whose last part is begun and not exceeded. -/
theorem partCount_eq {length count : Nat} (hsize : 0 < size) (hpos : 1 ≤ count)
    (hcount : count ≤ composeLimit - 1) (hbegun : (count - 1) * size < max 1 length)
    (hdone : length ≤ count * size) : partCount size length = count := by
  have hshort : length ≤ (composeLimit - 1) * size :=
    Nat.le_trans hdone (Nat.mul_le_mul_right size hcount)
  have hprev : (count - 1) * size + size = count * size := by
    rw [← Nat.succ_mul, Nat.succ_eq_add_one, Nat.sub_add_cancel hpos]
  rw [partCount, if_pos hshort]
  by_cases hzero : length = 0
  · -- no bytes make one part, and no more
    have hfirst : count - 1 = 0 := by
      have hlt : (count - 1) * size < 1 := by rwa [hzero, Nat.max_eq_left (Nat.zero_le 1)] at hbegun
      rcases Nat.mul_eq_zero.1 (Nat.lt_one_iff.1 hlt) with h | h <;> omega
    have hdiv : (length + size - 1) / size = 0 := Nat.div_eq_of_lt (by omega)
    rw [hdiv]
    omega
  · have hdiv : (length + size - 1) / size = count := by
      refine Nat.div_eq_of_lt_le (by omega) ?_
      rw [Nat.succ_mul]
      omega
    rw [hdiv]
    omega

theorem partCount_pos {length : Nat} : 0 < partCount size length := by
  rw [partCount]
  split
  · exact Nat.lt_of_lt_of_le Nat.one_pos (Nat.le_max_left 1 _)
  · decide

theorem partCount_le {length : Nat} (hsize : 0 < size)
    (hshort : length ≤ (composeLimit - 1) * size) :
    partCount size length ≤ composeLimit - 1 := by
  have hdiv : (length + size - 1) / size < composeLimit - 1 + 1 := by
    rw [Nat.div_lt_iff_lt_mul hsize, Nat.succ_mul]
    omega
  have hlimit : 1 ≤ composeLimit - 1 := by decide
  rw [partCount, if_pos hshort]
  omega

theorem le_partCount_mul {length : Nat} (hsize : 0 < size)
    (hshort : length ≤ (composeLimit - 1) * size) : length ≤ partCount size length * size := by
  rw [partCount, if_pos hshort]
  refine Nat.le_trans ?_ (Nat.mul_le_mul_right size (Nat.le_max_right 1 _))
  have hdiv := Nat.div_add_mod (length + size - 1) size
  have hmod := Nat.mod_lt (length + size - 1) hsize
  rw [Nat.mul_comm]
  omega

theorem partCount_of_long {length : Nat} (hlong : (composeLimit - 1) * size < length) :
    partCount size length = composeLimit := if_neg (Nat.not_le.2 hlong)

/-- There is one part for each full or begun chunk, but no more than the limit, and one at least. -/
theorem partCount_eq_min {length : Nat} (hsize : 0 < size) :
    partCount size length = max 1 (min composeLimit ((length + size - 1) / size)) := by
  by_cases hshort : length ≤ (composeLimit - 1) * size
  · have hfew : (length + size - 1) / size ≤ composeLimit := by
      have hmore : (composeLimit + 1) * size = (composeLimit - 1) * size + 2 * size := by
        rw [← Nat.add_mul]
        rfl
      refine Nat.le_of_lt_succ ((Nat.div_lt_iff_lt_mul hsize).2 ?_)
      rw [Nat.succ_eq_add_one]
      omega
    rw [partCount, if_pos hshort, Nat.min_eq_right hfew]
  · have hmany : composeLimit ≤ (length + size - 1) / size := by
      refine (Nat.le_div_iff_mul_le hsize).2 ?_
      have hlast : composeLimit * size = (composeLimit - 1) * size + size := by
        rw [← Nat.succ_mul]
        rfl
      omega
    rw [partCount, if_neg hshort, Nat.min_eq_left hmany]
    rfl

theorem partCount_le_limit {length : Nat} (hsize : 0 < size) :
    partCount size length ≤ composeLimit := by
  rw [partCount_eq_min hsize]
  exact Nat.max_le.2 ⟨by decide, Nat.min_le_left _ _⟩

theorem partCount_of_short {length : Nat} (hsize : 0 < size) (hshort : length ≤ size) :
    partCount size length = 1 :=
  partCount_eq hsize (Nat.le_refl 1) (by decide) (by omega) (by omega)

/-- The slices before the limit make up a front of the stream. -/
theorem flatten_slicesUpTo : ∀ {count : Nat}, count ≤ composeLimit - 1 →
    (slicesUpTo size bytes count).flatten = bytes.take (count * size)
  | 0, _ => by rw [Nat.zero_mul, List.take_zero]; rfl
  | count + 1, hcount => by
    have hslice : slice size bytes count = (bytes.drop (count * size)).take size := if_pos hcount
    rw [slicesUpTo_succ, List.flatten_append, flatten_slicesUpTo (Nat.le_of_succ_le hcount),
      List.flatten_singleton, hslice, Nat.succ_mul, List.take_add]

/-- **No byte is lost or repeated**: the slices of a stream make up the stream. -/
theorem flatten_slices (hsize : 0 < size) (bytes : Bytes) :
    (slices size bytes).flatten = bytes := by
  by_cases hshort : bytes.length ≤ (composeLimit - 1) * size
  · rw [slices, flatten_slicesUpTo (partCount_le hsize hshort),
      List.take_of_length_le (le_partCount_mul hsize hshort)]
  · have hlast : slice size bytes (composeLimit - 1) = bytes.drop ((composeLimit - 1) * size) :=
      if_neg (Nat.lt_irrefl _)
    rw [slices, partCount_of_long (Nat.not_le.1 hshort),
      show composeLimit = composeLimit - 1 + 1 from rfl, slicesUpTo_succ, List.flatten_append,
      flatten_slicesUpTo (Nat.le_refl _), List.flatten_singleton, hlast, List.take_append_drop]

/-- The slice after the first `index` is a part if a byte comes before it, or none does. -/
theorem lt_partCount {length index : Nat} (hsize : 0 < size) (hroom : index < composeLimit)
    (hbegun : index * size < max 1 length) : index < partCount size length := by
  by_cases hshort : length ≤ (composeLimit - 1) * size
  · have hcover := le_partCount_mul hsize hshort
    have hpos : 1 ≤ partCount size length := partCount_pos
    have hone : 1 ≤ partCount size length * size := Nat.mul_pos hpos hsize
    exact Nat.lt_of_mul_lt_mul_right (Nat.lt_of_lt_of_le hbegun (Nat.max_le.2 ⟨hone, hcover⟩))
  · rwa [partCount_of_long (Nat.not_le.1 hshort)]

/-- The limit is reached just if there are as many parts as one compose takes. -/
theorem limitCount_eq {length : Nat} (hsize : 0 < size) :
    limitCount size length = if partCount size length = composeLimit then 1 else 0 := by
  by_cases hlong : (composeLimit - 1) * size < length
  · rw [limitCount, if_pos hlong, partCount_of_long hlong, if_pos rfl]
  · have hfew := partCount_le hsize (Nat.not_lt.1 hlong)
    have hlimit : composeLimit - 1 < composeLimit := by decide
    rw [limitCount, if_neg hlong, if_neg (by omega)]

namespace Session

variable {σ : Type} {s : Session σ}

/-! ## Reading -/

theorem nextChunk_of_steady (h : s.contents.Steady) :
    ∃ t, nextChunk s = .ok (s.contents.content.take s.buffer.size) t ∧ t.contents.Steady ∧
      t.contents.window = s.contents.window ∧
      t.contents.content = s.contents.content.drop s.buffer.size ∧
      t.buffer.size = s.buffer.size ∧
        t = { s with contents := t.contents, buffer := t.buffer } := by
  obtain ⟨x, hx, hstop, hchunk, -, hbuffer, hsteady, hwindow, hcontent⟩ := h.refill s.buffer
  refine ⟨{ s with buffer := x.buffer, contents := x.rest }, ?_, hsteady, hwindow, hcontent,
    hbuffer, rfl⟩
  unfold nextChunk
  rw [hx]
  simp only [hstop, hchunk]

theorem holdsMore_of_steady (h : s.contents.Steady) (hwindow : 0 < s.contents.window) :
    ∃ t, holdsMore s = .ok (decide (s.contents.content ≠ [])) t ∧ t.contents.Steady ∧
      t.contents.content = s.contents.content ∧ t = { s with contents := t.contents } := by
  obtain ⟨ahead, rest, hpeek, hsteady, -, hcontent, hnil⟩ := h.peek hwindow
  refine ⟨{ s with contents := rest }, ?_, hsteady, hcontent, rfl⟩
  have hmore : (!ahead.isEmpty) = decide (s.contents.content ≠ []) := by
    rw [Bool.eq_iff_iff, Bool.not_eq_true', List.isEmpty_eq_false_iff, decide_eq_true_iff, ne_eq,
      hnil]
  unfold holdsMore
  rw [hpeek]
  simp only [hmore]

/-- The stream is behind its first `index` slices, and the last of these was begun. -/
structure AtSlice (size : Nat) (bytes : Bytes) (index : Nat) (s : Session σ) : Prop where
  steady : s.contents.Steady
  window : 0 < s.contents.window
  content : s.contents.content = bytes.drop (index * size)
  buffer : s.buffer.size = size
  begun : (index - 1) * size < max 1 bytes.length

theorem AtSlice.congr {index : Nat} {t : Session σ} (h : AtSlice size bytes index s)
    (hcontents : t.contents = s.contents) (hbuffer : t.buffer = s.buffer) :
    AtSlice size bytes index t :=
  ⟨hcontents ▸ h.steady, hcontents ▸ h.window, hcontents ▸ h.content, hbuffer ▸ h.buffer, h.begun⟩

theorem atSlice_session (u : Uploader) (request : UploadRequest) (m : Metered σ)
    (hsteady : request.script.Steady) :
    AtSlice u.chunkSize request.script.content 0 (u.session request m) where
  steady := hsteady
  window := Nat.succ_pos _
  content := by rw [Nat.zero_mul]; rfl
  buffer := rfl
  begun := by
    rw [Nat.zero_sub, Nat.zero_mul]
    exact Nat.lt_of_lt_of_le Nat.one_pos (Nat.le_max_left 1 _)

/-! ## Writing -/

section
variable [ObjectStore σ] {bucket destination : String}
  {inv : Nat → Written → Session σ → Prop} {bad : Halt → Session σ → Prop}

/-- A part in memory is written without a look at the stream. -/
theorem ends_writePart_reader (number : Nat) (data : Bytes) :
    Ends (writePart bucket destination number data) s
      (fun _ t => t.contents = s.contents ∧ t.buffer = s.buffer) (fun _ _ => True) := by
  refine Ends.modify_bind (Ends.andThen (ends_onStore (Ends.somehow _ _)) (fun _ _ _ => trivial) ?_)
  rintro object t ⟨-, ht⟩
  refine Ends.modify_bind (Ends.pure ?_)
  rw [ht]
  exact ⟨rfl, rfl⟩

/-- `inv n written` holds when the first `n` slices are written and `written` is remembered of
these. It does not look at the stream. Each slice carries it over, or the session stops as `bad`
says. -/
structure Sliced (bucket destination : String) (size : Nat) (bytes : Bytes)
    (inv : Nat → Written → Session σ → Prop) (bad : Halt → Session σ → Prop) : Prop where
  congr : ∀ {n : Nat} {written : Written} {s t : Session σ}, inv n written s →
    t = { s with contents := t.contents, buffer := t.buffer } → inv n written t
  part : ∀ {n : Nat} {written : Written} {s : Session σ}, n < composeLimit - 1 →
    n < partCount size bytes.length → inv n written s →
    Ends (writePart bucket destination (n + 1) (slice size bytes n)) s
      (fun object t => inv (n + 1) (written.add object) t) bad
  rest : ∀ {written : Written} {s : Session σ}, (composeLimit - 1) * size < bytes.length →
    inv (composeLimit - 1) written s → s.contents.Steady →
    s.contents.content = slice size bytes (composeLimit - 1) →
    Ends (writeRest bucket destination (composeLimit - 1 + 1)) s
      (fun object t => inv composeLimit (written.add object) t) bad

/-- From the part after the first `n` on, every part carries its slice of the stream. -/
theorem Sliced.writeParts (h : Sliced bucket destination size bytes inv bad) (hsize : 0 < size) :
    ∀ {left n : Nat} {s : Session σ} {written : Written}, AtSlice size bytes n s →
      inv n written s → n + left = composeLimit - 1 →
      Ends (writeParts bucket destination left (n + 1) written) s
        (fun written t => inv (partCount size bytes.length) written t) bad
  | 0, n, s, written, hs, hinv, hleft => by
    obtain rfl : n = composeLimit - 1 := hleft
    obtain ⟨t, hpeek, hsteady, hcontent, ht⟩ := holdsMore_of_steady hs.steady hs.window
    have hinv' := h.congr hinv (show t = { s with contents := t.contents, buffer := t.buffer } by
      rw [ht])
    rw [hs.content] at hpeek hcontent
    rw [Session.writeParts, Ends, Call.bind_of_ok hpeek]
    by_cases hlong : (composeLimit - 1) * size < bytes.length
    · have hmore : bytes.drop ((composeLimit - 1) * size) ≠ [] :=
        mt List.drop_eq_nil_iff.1 (Nat.not_le.2 hlong)
      have hslice : slice size bytes (composeLimit - 1) = bytes.drop ((composeLimit - 1) * size) :=
        if_neg (Nat.lt_irrefl _)
      rw [decide_eq_true hmore, partCount_of_long hlong]
      exact Ends.bind (h.rest hlong hinv' hsteady (hcontent.trans hslice.symm)) fun _ _ hall => hall
    · have hnone : bytes.drop ((composeLimit - 1) * size) = [] :=
        List.drop_eq_nil_iff.2 (Nat.not_lt.1 hlong)
      rw [decide_eq_false fun hmore => hmore hnone,
        partCount_eq hsize (by decide) (Nat.le_refl _) hs.begun (Nat.not_lt.1 hlong)]
      exact hinv'
  | left + 1, n, s, written, hs, hinv, hleft => by
    obtain ⟨t, hchunk, hsteady, hwindow, hcontent, hbuffer, ht⟩ := nextChunk_of_steady hs.steady
    have hinv' := h.congr hinv ht
    have hroom : n < composeLimit - 1 := by omega
    have hslice : slice size bytes n = (bytes.drop (n * size)).take size := if_pos hroom
    rw [hs.content, hs.buffer] at hchunk hcontent
    rw [← hslice] at hchunk
    rw [Session.writeParts, Ends, Call.bind_of_ok hchunk]
    by_cases hend : 1 < n + 1 ∧ slice size bytes n = []
    · have hdone : bytes.length ≤ n * size := by
        rcases List.take_eq_nil_iff.1 (hslice ▸ hend.2) with hzero | hnil
        · omega
        · exact List.drop_eq_nil_iff.1 hnil
      rw [if_pos hend, partCount_eq hsize (Nat.lt_of_succ_lt_succ hend.1) (Nat.le_of_lt hroom)
        hs.begun hdone]
      exact hinv'
    · have hbegun : n * size < max 1 bytes.length := by
        by_cases hzero : n = 0
        · rw [hzero, Nat.zero_mul]
          exact Nat.lt_of_lt_of_le Nat.one_pos (Nat.le_max_left 1 _)
        · have hsome : bytes.drop (n * size) ≠ [] := fun hnil =>
            hend ⟨Nat.succ_lt_succ (Nat.pos_of_ne_zero hzero), by rw [hslice, hnil, List.take_nil]⟩
          exact Nat.lt_of_lt_of_le (Nat.not_le.1 (mt List.drop_eq_nil_iff.2 hsome))
            (Nat.le_max_right 1 _)
      have hnext : AtSlice size bytes (n + 1) t := by
        refine ⟨hsteady, hwindow ▸ hs.window, ?_, hbuffer.trans hs.buffer, hbegun⟩
        rw [hcontent, List.drop_drop, Nat.succ_mul]
      rw [if_neg hend]
      have hpart := h.part hroom (lt_partCount hsize (by omega) hbegun) hinv'
      refine Ends.andThen (hpart.and (ends_writePart_reader _ _)) (fun _ _ hbad => hbad.1) ?_
      rintro object t' ⟨hmore, hcontents, hbuffer'⟩
      exact h.writeParts hsize (hnext.congr hcontents hbuffer') hmore (by omega)

end

end Session

end ChunkedUpload
