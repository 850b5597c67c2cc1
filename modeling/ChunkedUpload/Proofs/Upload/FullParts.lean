import ChunkedUpload.Proofs.Part.Names
import ChunkedUpload.Proofs.Reader.Ending
import ChunkedUpload.Proofs.Upload.Steps

/-!
# All parts but the last one are full

A chunk that does not fill the buffer is the end of a stream whose end is final (`Ready.nextChunk`),
so only the last part of an upload can be short. `FullParts` says what has to be known of a store
for that: `held n` of the state in which `n` full parts are written, and `safe` of any state that an
upload can leave. Then it leaves no other (`FullParts.run`), whatever the stream holds and however
it ends.
-/

namespace ChunkedUpload

open Call (Ends)

namespace Session

variable {σ : Type} {size : Nat} {s : Session σ}

/-- The stream behind the window is final, and chunks are as large as `size`. -/
structure Ready (size : Nat) (s : Session σ) : Prop where
  final : s.contents.Final
  window : 0 < s.contents.window
  buffer : s.buffer.size = size

/-- A chunk is full, or nothing comes after it. -/
theorem Ready.nextChunk (h : Ready size s) :
    Ends nextChunk s
      (fun data t => Ready size t ∧ (data.length = size ∨ t.contents.flow = []) ∧
        (s.contents.flow = [] → data = []) ∧ t.names = s.names ∧ t.store = s.store)
      (fun _ t => t.store = s.store) := by
  unfold Ends Session.nextChunk
  dsimp only
  cases hstop : (Reader.refill s.buffer s.contents).stop with
  | done =>
    have hloaded := h.final.refill hstop
    have hsize : (Reader.refill s.buffer s.contents).buffer.size = size := h.buffer
    have hwindow : (Reader.refill s.buffer s.contents).rest.window = s.contents.window :=
      Reader.fillFrom_window s.buffer.size [] s.contents
    refine ⟨⟨hloaded.final, hwindow ▸ h.window, hsize⟩, ?_, fun hflow => ?_, rfl, rfl⟩
    · rcases Nat.eq_or_lt_of_le hloaded.room with hfull | hshort
      · exact .inl (hloaded.count.symm.trans (hfull.trans hsize))
      · exact .inr (hloaded.short hshort).1
    · have hjoined := hloaded.joined
      rw [hflow] at hjoined
      exact (List.append_eq_nil_iff.1 hjoined).1
  | failed | stalled => rfl

/-- Where nothing is to come, the look ahead shows nothing. -/
theorem Ready.holdsMore (h : Ready size s) :
    Ends holdsMore s
      (fun more t => t.contents.Final ∧ (s.contents.flow = [] → more = false) ∧
        t.names = s.names ∧ t.store = s.store)
      (fun _ t => t.store = s.store) := by
  unfold Ends Session.holdsMore
  rcases hpeek : s.contents.peek with ⟨ahead | _ | _, contents⟩
  · obtain ⟨hfinal, hnone⟩ := h.final.peek h.window hpeek
    refine ⟨hfinal, fun hflow => ?_, rfl, rfl⟩
    rw [hnone ahead rfl hflow]
    rfl
  · rfl
  · rfl

/-! ## The rule -/

variable [ObjectStore σ] {bucket destination : String} {held : Nat → σ → Prop} {safe : σ → Prop}

/-- `held n` holds when the first `n` parts are written and have `size` bytes each. It follows of
fewer parts, too, and it is kept by a part of any length after them. All calls of an upload that are
made then lead to a `safe` state. -/
structure FullParts (bucket destination : String) (size : Nat) (held : Nat → σ → Prop)
    (safe : σ → Prop) : Prop where
  fewer : ∀ {n : Nat} {t : σ}, held (n + 1) t → held n t
  safe_of_held : ∀ {n : Nat} {t : σ}, held n t → safe t
  part : ∀ {n : Nat} {t : σ} (data : Bytes), n + 1 < composeLimit → held n t →
    Ends (ObjectStore.create bucket (Part.name destination (n + 1)) data true) t
      (fun _ u => held n u ∧ (data.length = size → held (n + 1) u)) (fun _ => safe)
  rest : ∀ {t : σ} {contents : Reader}, contents.Final → held (composeLimit - 1) t →
    Ends (ObjectStore.createFromReader bucket (Part.name destination composeLimit) contents) t
      (fun _ => held (composeLimit - 1)) (fun _ => safe)
  compose : ∀ {n : Nat} {t : σ}, n < composeLimit → held n t →
    Ends (ObjectStore.compose bucket (Part.names destination (n + 1)) destination) t
      (fun _ => safe) (fun _ => safe)

namespace FullParts

/-- All parts are written, and those before the last one are full. -/
def Cut (destination : String) (held : Nat → σ → Prop) (t : Session σ) : Prop :=
  ∃ n < composeLimit, held n t.store ∧ t.names = Part.names destination (n + 1)

theorem writePart (h : FullParts bucket destination size held safe) {n : Nat}
    (hroom : n + 1 < composeLimit) (hs : held n s.store)
    (hnames : s.names = Part.names destination n) (data : Bytes) :
    Ends (writePart bucket destination (n + 1) data) s
      (fun _ t => held n t.store ∧ (data.length = size → held (n + 1) t.store) ∧
        t.names = Part.names destination (n + 1) ∧ t.contents = s.contents ∧ t.buffer = s.buffer)
      (fun _ t => safe t.store) := by
  refine Ends.modify_bind (Ends.andThen (ends_onStore (h.part data hroom hs)) ?_ ?_)
  · intro _ t hbad
    exact hbad.1
  · rintro _ t ⟨⟨hkept, hfull⟩, ht⟩
    refine Ends.modify_bind (Ends.pure ⟨hkept, hfull, ?_, ?_, ?_⟩)
    · rw [ht, Part.names_succ, ← hnames]
    · rw [ht]
    · rw [ht]

theorem writeRest (h : FullParts bucket destination size held safe)
    (hs : held (composeLimit - 1) s.store) (hfinal : s.contents.Final)
    (hnames : s.names = Part.names destination (composeLimit - 1)) :
    Ends (writeRest bucket destination (composeLimit - 1 + 1)) s
      (fun _ => Cut destination held) (fun _ t => safe t.store) := by
  refine Ends.modify_bind (Ends.modify_bind (Ends.get_bind
    (Ends.andThen (ends_onStore (h.rest hfinal hs)) ?_ ?_)))
  · intro _ t hbad
    exact hbad.1
  · rintro _ t ⟨hkept, ht⟩
    refine Ends.modify_bind (Ends.pure ⟨composeLimit - 1, by decide, hkept, ?_⟩)
    rw [ht, Part.names_succ, ← hnames]

/-- At the end of the stream no part is added. -/
theorem writeParts_ended {n : Nat} (left : Nat) (written : Written) (hready : Ready size s)
    (hflow : s.contents.flow = []) :
    Ends (writeParts bucket destination left (n + 2) written) s
      (fun _ t => t.names = s.names ∧ t.store = s.store) (fun _ t => t.store = s.store) := by
  cases left with
  | zero =>
    refine hready.holdsMore.andThen (fun _ _ hbad => hbad) ?_
    rintro more t ⟨-, hmore, hkept⟩
    rw [hmore hflow]
    exact Ends.pure hkept
  | succ left =>
    refine hready.nextChunk.andThen (fun _ _ hbad => hbad) ?_
    rintro data t ⟨-, -, hdata, hkept⟩
    rw [if_pos ⟨by omega, hdata hflow⟩]
    exact Ends.pure hkept

theorem writeParts (h : FullParts bucket destination size held safe) :
    ∀ {left n : Nat} {s : Session σ} (written : Written), n + left = composeLimit - 1 →
      Ready size s → held n s.store → s.names = Part.names destination n →
      Ends (writeParts bucket destination left (n + 1) written) s (fun _ => Cut destination held)
        (fun _ t => safe t.store)
  | 0, n, s, written, hleft, hready, hs, hnames => by
    obtain rfl : n = composeLimit - 1 := hleft
    refine hready.holdsMore.andThen ?_ ?_
    · intro _ t hstore
      rw [hstore]
      exact h.safe_of_held hs
    · rintro more t ⟨hfinal, -, hnames', hstore⟩
      rw [← hstore] at hs
      rw [← hnames'] at hnames
      cases more with
      | false => exact Ends.pure ⟨composeLimit - 2, by decide, h.fewer hs, hnames⟩
      | true => exact (h.writeRest hs hfinal hnames).bind fun _ _ hcut => Ends.pure hcut
  | left + 1, n, s, written, hleft, hready, hs, hnames => by
    refine hready.nextChunk.andThen ?_ ?_
    · intro _ t hstore
      rw [hstore]
      exact h.safe_of_held hs
    · rintro data t ⟨hready', hend, -, hnames', hstore⟩
      rw [← hstore] at hs
      rw [← hnames'] at hnames
      by_cases hover : 1 < n + 1 ∧ data = []
      · obtain ⟨k, rfl⟩ := Nat.exists_eq_succ_of_ne_zero (show n ≠ 0 by omega)
        rw [if_pos hover]
        exact Ends.pure ⟨k, by omega, h.fewer hs, hnames⟩
      · rw [if_neg hover]
        refine (h.writePart (by omega) hs hnames data).bind ?_
        rintro object u ⟨hkept, hfull, hnames'', hcontents, hbuffer⟩
        have hready'' : Ready size u :=
          ⟨hcontents ▸ hready'.final, hcontents ▸ hready'.window, hbuffer ▸ hready'.buffer⟩
        rcases hend with hlength | hflow
        · exact h.writeParts _ (by omega) hready'' (hfull hlength) hnames''
        · -- a short part is the last one, but reading may still fail
          refine (writeParts_ended left _ hready'' (hcontents ▸ hflow)).mono ?_ ?_
          · rintro _ v ⟨hsame, hstore'⟩
            exact ⟨n, by omega, hstore' ▸ hkept, hsame.trans hnames''⟩
          · intro _ v hstore'
            rw [hstore']
            exact h.safe_of_held hkept

/-- However an upload ends, it leaves a safe state. -/
theorem run (h : FullParts bucket destination size held safe) (hready : Ready size s)
    (hs : held 0 s.store) (hnames : s.names = []) :
    Ends (run bucket destination) s (fun _ t => safe t.store) (fun _ t => safe t.store) := by
  refine (h.writeParts .nothing (Nat.zero_add _) hready hs hnames).bind ?_
  rintro written t ⟨n, hn, hheld, hnames'⟩
  have hcompose : Ends (countCompose >>= fun _ => MonadState.get >>= fun now : Session σ =>
      onStore (ObjectStore.compose bucket now.names destination)) t (fun _ u => safe u.store)
      (fun _ u => safe u.store) := by
    have hcall := h.compose hn hheld
    rw [← hnames'] at hcall
    refine Ends.modify_bind (Ends.get_bind (Ends.mono (ends_onStore hcall) ?_ ?_))
    · intro _ u hdone
      exact hdone.1
    · intro _ u hbad
      exact hbad.1
  cases written with
  | single object => exact Ends.pure (h.safe_of_held hheld)
  | nothing | several => exact hcompose

end FullParts

end Session

end ChunkedUpload
