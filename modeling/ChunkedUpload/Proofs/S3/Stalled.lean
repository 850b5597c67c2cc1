import ChunkedUpload.Proofs.Reader.Stalling
import ChunkedUpload.Proofs.S3.Multipart

/-!
# Streams that stall on their way to a service

A service that answers everything does not end a call whose stream stalls: the call waits for the
next part for ever (`createFromReader_stalled`), unless the stream has more than the ten thousand
parts that a service takes.
-/

namespace ChunkedUpload.S3.Store

variable {lenient : Bool} {c : Client} {objects : ObjectMap} {s : Store}
  {bucket key full id : String}

theorem filled_stalled {x : Reader.Refilled} (h : x.stop = .stalled) (s : Store) :
    filled x s = .error .abandoned s := by
  rw [filled, h]
  rfl

/-- A part that the flow fills, and how much it takes of the flow. -/
theorem refill_of_roomy {r : Reader} (h : r.Dries) {b : Reader.Buffer} (hroomy : Roomy b)
    (hlong : b.size ≤ r.flow.length) :
    ∃ x, Reader.refill b r = x ∧ x.stop = .done ∧ x.count = b.size ∧
      x.chunk.length ≤ x.buffer.size ∧ Roomy x.buffer ∧ x.rest.Dries ∧
      x.rest.flow.length + leastPartSize ≤ r.flow.length := by
  obtain ⟨x, hx, hstop, hchunk, hsize, hdries, -, hflow⟩ := h.refill hlong
  have hfull : x.chunk.length = b.size := by
    rw [hchunk, List.length_take]
    exact Nat.min_eq_left hlong
  have hleast : leastPartSize ≤ b.size := hroomy.1
  rw [Roomy, ← hsize] at hroomy
  refine ⟨x, hx, hstop, ?_, Nat.le_of_eq (hfull.trans hsize.symm), hroomy, hdries, ?_⟩
  · rw [← hx, Reader.refill_count]
    exact Nat.min_eq_left hlong
  · rw [hflow, List.length_drop]
    omega

/-- From part `part` on there is room for `left` parts, and the rest of the stream has fewer. -/
theorem uploadParts_stalled (hbucket : bucket ≠ "") (hfull : full ≠ "") :
    ∀ {left part : Nat} {x : Reader.Refilled} {sent : List (Nat × Bytes)}
      {s : Store} (parts : List (Nat × String)) (size : Nat),
      At lenient c objects [⟨id, (bucket, full), sent⟩] s → part + left = mostParts + 1 →
      x.count ≠ 0 → x.chunk.length ≤ x.buffer.size → Roomy x.buffer → x.rest.Dries →
      x.rest.flow.length < left * leastPartSize →
      Call.Abandons (uploadParts bucket full id part x parts size) s := by
  intro left
  induction left with
  | zero =>
    intro part x sent s parts size _ _ _ _ _ _ hshort
    rw [Nat.zero_mul] at hshort
    exact absurd hshort (Nat.not_lt_zero _)
  | succ left ih =>
    intro part x sent s parts size h hleft hcount hfits hroomy hdries hfew
    obtain ⟨s', hupload, hs'⟩ := uploadPart_at h hbucket hfull part
      (Nat.le_trans hfits hroomy.2)
    have hroomy' : Roomy (x.buffer.grow (streamPartSize (part + 1))) := hroomy.grow (part + 1)
    generalize hbuffer : x.buffer.grow (streamPartSize (part + 1)) = buffer at hroomy'
    have hsome : 0 < buffer.size := Nat.lt_of_lt_of_le (by decide) hroomy'.1
    rw [Call.Abandons, uploadParts_of_pos hcount (by omega), hbuffer, Call.bind_of_ok hupload]
    by_cases hlong : buffer.size ≤ x.rest.flow.length
    · obtain ⟨y, hy, hstop, hmore, hfits', hroomy'', hdries', hflow⟩ :=
        refill_of_roomy hdries hroomy' hlong
      have hfew' : y.rest.flow.length < left * leastPartSize := by
        rw [Nat.succ_mul] at hfew
        omega
      rw [hy, filled_eq hstop, Call.pure_bind]
      exact ih _ _ hs' (by omega) (by omega) hfits' hroomy'' hdries' hfew'
    · have hstalled := hdries.refill_stalled (Nat.not_le.1 hlong)
      exact ⟨s', Call.bind_of_error (filled_stalled hstalled s')⟩

/-- A stream that stalls within ten thousand parts is waited for for ever. -/
theorem createFromReader_stalled (h : At lenient c objects [] s) (hbucket : bucket ≠ "")
    (hkey : key ≠ "") {contents : Reader} (hdries : contents.Dries)
    (hfew : contents.flow.length < (mostParts + 1) * leastPartSize) :
    Call.Abandons (createFromReader bucket key contents) s := by
  have hfirst : streamPartSize 1 = leastPartSize := by decide
  have hroomy := roomy_streamPartSize 1 []
  generalize hbuffer : (⟨streamPartSize 1, []⟩ : Reader.Buffer) = buffer at hroomy
  have hroom : buffer.size = leastPartSize := hbuffer ▸ hfirst
  rw [Call.Abandons, createFromReader, hbuffer]
  by_cases hlong : buffer.size ≤ contents.flow.length
  · obtain ⟨y, hy, hstop, hcount, hfits, hroomy', hdries', hflow⟩ :=
      refill_of_roomy hdries hroomy hlong
    have hmore : y.count ≠ 0 := by
      rw [hcount, hroom]
      decide
    have hfew' : y.rest.flow.length < mostParts * leastPartSize := by
      rw [Nat.succ_mul] at hfew
      omega
    have hfull := Client.fullKey_ne_empty (c := c) hkey
    obtain ⟨id, s₁, hstart, hs₁⟩ := startUpload_at h hbucket hfull
    obtain ⟨t, ht⟩ := uploadParts_stalled hbucket hfull [] 0 hs₁ (Nat.add_comm 1 mostParts) hmore
      hfits hroomy' hdries' hfew'
    refine ⟨t, ?_⟩
    rw [hy, filled_eq hstop, Call.pure_bind, if_neg (by omega), Call.bind_of_ok (fullKey_at h),
      Call.bind_of_ok hstart]
    exact Call.bind_of_error (Call.onFailure_of_abandoned (Call.bind_of_error ht))
  · have hstalled := hdries.refill_stalled (Nat.not_le.1 hlong)
    exact ⟨s, Call.bind_of_error (filled_stalled hstalled s)⟩

end ChunkedUpload.S3.Store
