import ChunkedUpload.Reader.Basic

/-!
# One read

A read of a reader goes one of three ways (`Reads`): it hands out what was read ahead, or the stream
answers it, or a whole window is read and what the caller has no room for stays ahead. What is known
of the reads of a stream is carried over to the readers in front of it by cases on these
(`reads_of_read`).
-/

namespace ChunkedUpload.Reader

theorem take_ne_nil {bytes : Bytes} {count : Nat} (hcount : 0 < count) (hbytes : bytes ≠ []) :
    bytes.take count ≠ [] := fun hnil =>
  (List.take_eq_nil_iff.1 hnil).elim (Nat.ne_of_gt hcount) hbytes

/-! ## Streams -/

namespace Script

theorem allowed_pos {space : Nat} {most : Option Nat} (hspace : 0 < space)
    (hmost : most ≠ some 0) : 0 < allowed space most := by
  rcases most with _ | _ | n
  · exact hspace
  · exact absurd rfl hmost
  · exact Nat.lt_min.2 ⟨hspace, Nat.succ_pos n⟩

/-- A read hands out no more than there is room for. -/
theorem length_le_of_read {space : Nat} {s rest : Script} {got : Bytes}
    (h : s.read space = (.bytes got, rest)) : got.length ≤ space := by
  fun_induction read space s with
  | case1 => cases h; exact Nat.zero_le _
  | case2 _ _ ih => exact ih h
  | case3 b bs most later count =>
    cases h
    rw [List.length_take]
    cases most <;> simp only [count, allowed] <;> omega
  | case4 => cases h
  | case5 => cases h
  | case6 => cases h; exact Nat.zero_le _
  | case7 _ ih => exact ih h
  | case8 => cases h

end Script

/-! ## Readers -/

/-- The ways that a read with room for `space` bytes goes. -/
inductive Reads (space : Nat) : Reader → Reading → Reader → Prop
  | ahead {script : Script} {all : Bytes} {window : Nat} : all ≠ [] →
      Reads space ⟨script, all, window⟩ (.bytes (all.take space)) ⟨script, all.drop space, window⟩
  /-- The stream answers, and nothing stays ahead. It may have been asked for a window. -/
  | stream {script later : Script} {reading : Reading} {room window : Nat} : space ≤ room →
      script.read room = (reading, later) → (∀ got, reading = .bytes got → got.length ≤ space) →
      Reads space ⟨script, [], window⟩ reading ⟨later, [], window⟩
  | window {script later : Script} {got : Bytes} {window : Nat} : space < window → got ≠ [] →
      script.read window = (.bytes got, later) →
      Reads space ⟨script, [], window⟩ (.bytes (got.take space)) ⟨later, got.drop space, window⟩

theorem reads_of_read {space : Nat} {r rest : Reader} {reading : Reading}
    (h : r.read space = (reading, rest)) : Reads space r reading rest := by
  obtain ⟨script, ahead, window⟩ := r
  cases ahead with
  | cons b bs =>
    cases h
    exact .ahead (List.cons_ne_nil b bs)
  | nil =>
    unfold read at h
    dsimp only at h
    split at h
    · cases h
      exact .stream (Nat.le_refl space) rfl fun got hgot =>
        Script.length_le_of_read (Prod.ext hgot rfl)
    · rename_i hwindow
      have hwindow := Nat.not_le.1 hwindow
      split at h <;> rename_i hs <;> cases h
      · rename_i got later
        cases got with
        | nil =>
          rw [List.take_nil, List.drop_nil]
          exact .stream (Nat.le_of_lt hwindow) hs fun got hgot => by simp [← Reading.bytes.inj hgot]
        | cons b bs => exact .window hwindow (List.cons_ne_nil b bs) hs
      · rename_i hbytes
        exact .stream (Nat.le_of_lt hwindow) hs fun got hgot => absurd hgot (hbytes got)

theorem length_le_of_read {space : Nat} {r rest : Reader} {got : Bytes}
    (h : r.read space = (.bytes got, rest)) : got.length ≤ space := by
  cases reads_of_read h with
  | ahead | window =>
    rw [List.length_take]
    exact Nat.min_le_left _ _
  | stream _ _ hlen => exact hlen got rfl

theorem window_of_read {space : Nat} {r rest : Reader} {reading : Reading}
    (h : r.read space = (reading, rest)) : rest.window = r.window := by
  cases reads_of_read h <;> rfl

end ChunkedUpload.Reader
