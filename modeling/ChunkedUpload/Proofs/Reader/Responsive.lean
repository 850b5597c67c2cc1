import ChunkedUpload.Proofs.Reader.OneRead
import ChunkedUpload.Reader.Buffer
import ChunkedUpload.Reader.Drain

/-!
# Readers that always answer

A reader whose stream never stalls and does not fail as interrupted for ever answers every read
after some retries: filling a buffer and reading to the end come to an end (`Responsive.refill`,
`Responsive.drain`), with the bytes or with an error.
-/

namespace ChunkedUpload.Reader

/-- A step that leaves no caller waiting: it is no stall and no interruption without end. -/
def Step.Answers : Step → Prop
  | .stall => False
  | .failForever error => error.kind ≠ .interrupted
  | _ => True

/-- The stream behind the reader answers every read, if need be after some retries. -/
def Responsive (r : Reader) : Prop := ∀ step ∈ r.script, step.Answers

/-- A read of such a stream answers, and an interruption is over with that read. -/
theorem Script.read_answers {space : Nat} {s rest : Script} {reading : Reading}
    (h : ∀ step ∈ s, step.Answers) (hr : s.read space = (reading, rest)) :
    (∀ step ∈ rest, step.Answers) ∧ reading ≠ .stalled ∧
      ∀ error, reading = .failed error → error.kind = .interrupted → rest.length < s.length := by
  fun_induction Script.read space s with
  | case1 => cases hr; simp
  | case2 most later ih | case7 later ih =>
    obtain ⟨hrest, hreading, hshorter⟩ := ih (fun step hstep => h step (by simp [hstep])) hr
    refine ⟨hrest, hreading, fun error he hk => ?_⟩
    have := hshorter error he hk
    simp
    omega
  | case3 b bs most later count =>
    cases hr
    refine ⟨?_, by simp, by simp⟩
    intro step hstep
    rcases List.mem_cons.1 hstep with rfl | hstep
    · trivial
    · exact h step (by simp [hstep])
  | case4 error later =>
    cases hr
    exact ⟨fun step hstep => h step (by simp [hstep]), by simp, by simp⟩
  | case5 error later =>
    cases hr
    refine ⟨h, by simp, ?_⟩
    rintro _ ⟨⟩ hk
    exact absurd hk (h (.failForever error) (by simp))
  | case6 later =>
    cases hr
    exact ⟨fun step hstep => h step (by simp [hstep]), by simp, by simp⟩
  | case8 later => exact (h .stall (by simp)).elim

namespace Responsive

variable {r rest : Reader} {reading : Reading}

theorem read (h : r.Responsive) {space : Nat} (hr : r.read space = (reading, rest)) :
    rest.Responsive ∧ reading ≠ .stalled ∧
      ∀ error, reading = .failed error → error.kind = .interrupted →
        rest.script.length < r.script.length := by
  cases reads_of_read hr with
  | ahead => exact ⟨h, nofun, nofun⟩
  | stream _ hs => exact Script.read_answers h hs
  | window _ _ hs => exact ⟨(Script.read_answers h hs).1, nofun, nofun⟩

theorem fillFrom (want : Nat) (taken : Bytes) {r : Reader} (h : r.Responsive) :
    (Reader.fillFrom want taken r).stop ≠ .stalled ∧
      (Reader.fillFrom want taken r).rest.Responsive := by
  fun_induction Reader.fillFrom want taken r with
  | case1 => exact ⟨nofun, h⟩
  | case2 _ _ _ _ rest hr => exact ⟨nofun, (h.read hr).1⟩
  | case3 _ _ _ _ _ _ rest hr ih => exact ih (h.read hr).1
  | case4 _ _ _ _ error rest hr _ _ ih => exact ih (h.read hr).1
  | case5 _ _ _ _ error rest hr hkind hshorter =>
    exact absurd ((h.read hr).2.2 error rfl hkind) hshorter
  | case6 _ _ _ _ error rest hr => exact ⟨nofun, (h.read hr).1⟩
  | case7 _ _ _ _ rest hr => exact absurd rfl (h.read hr).2.1

/-- Filling a buffer comes to an end. -/
theorem refill (h : r.Responsive) (b : Buffer) :
    (Reader.refill b r).stop ≠ .stalled ∧ (Reader.refill b r).rest.Responsive :=
  fillFrom b.size [] h

theorem drainFrom (taken : Bytes) {r : Reader} (h : r.Responsive) :
    (Reader.drainFrom taken r).stop ≠ .stalled := by
  fun_induction Reader.drainFrom taken r with
  | case1 => exact nofun
  | case2 _ _ _ _ rest hr ih => exact ih (h.read hr).1
  | case3 _ _ error rest hr _ _ ih => exact ih (h.read hr).1
  | case4 _ _ error rest hr hkind hshorter =>
    exact absurd ((h.read hr).2.2 error rfl hkind) hshorter
  | case5 => exact nofun
  | case6 _ _ rest hr => exact absurd rfl (h.read hr).2.1

/-- So does reading to the end. -/
theorem drain (h : r.Responsive) : r.drain.stop ≠ .stalled := drainFrom [] h

end Responsive

end ChunkedUpload.Reader
