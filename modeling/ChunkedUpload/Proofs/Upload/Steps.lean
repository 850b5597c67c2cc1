import ChunkedUpload.Proofs.Storage.Watched

/-!
# Steps of a session

One lemma for each kind of step that a session takes: a call on the store changes nothing but the
store (`ends_onStore`), an observed one is noted at the end of what was seen (`ends_note`), and
reading changes nothing but the stream and the buffer (`ends_nextChunk`, `ends_holdsMore`). What
every part carries over, all parts do (`Carried.writeParts`), and what every call keeps true of the
store, a session keeps (`Keeps.run`). What is known of the end of a session is known of the end of
the upload (`upload_ends`).
-/

namespace ChunkedUpload

open Call (Ends)

namespace Session

variable {σ α : Type}

theorem ends_onStore {call : Call σ α} {s : Session σ} {good : α → σ → Prop}
    {bad : Halt → σ → Prop} (h : Ends call s.store good bad) :
    Ends (onStore call) s (fun a t => good a t.store ∧ t = { s with store := t.store })
      (fun halt t => bad halt t.store ∧ t = { s with store := t.store }) := by
  unfold Ends onStore at *
  cases hc : call s.store <;> rw [hc] at h <;> exact ⟨h, rfl⟩

theorem ends_note {call : StoreCall} {object : α → Option StoredObject} {run : Call σ α}
    {w : Watched σ} {good : α → σ → Prop} {bad : Halt → σ → Prop} (h : Ends run w.store good bad) :
    Ends (Watched.note call object run) w
      (fun a t => good a t.store ∧ t.seen = w.seen ++ [⟨call, .ok (object a), t.store⟩])
      (fun halt t => bad halt t.store ∧ t.seen = w.seen ++ [⟨call, .error halt, t.store⟩]) := by
  unfold Ends Watched.note at *
  cases hc : run w.store <;> rw [hc] at h <;> exact ⟨h, rfl⟩

/-- Reading a chunk changes nothing but the stream and the buffer. -/
theorem ends_nextChunk (s : Session σ) :
    Ends nextChunk s (fun _ t => t = { s with contents := t.contents, buffer := t.buffer })
      (fun _ t => t = { s with contents := t.contents, buffer := t.buffer }) := by
  unfold Ends nextChunk
  dsimp only
  cases (Reader.refill s.buffer s.contents).stop <;> rfl

/-- So does the look ahead. -/
theorem ends_holdsMore (s : Session σ) :
    Ends holdsMore s (fun _ t => t = { s with contents := t.contents, buffer := t.buffer })
      (fun _ t => t = { s with contents := t.contents, buffer := t.buffer }) := by
  unfold Ends holdsMore
  rcases s.contents.peek with ⟨_ | _ | _, _⟩ <;> rfl

/-! ## All parts -/

variable [ObjectStore σ] {bucket destination : String} {inv : Nat → Written → Session σ → Prop}
  {bad : Halt → Session σ → Prop}

/-- `inv n written` holds between two parts, when `n` of them are written and `written` is
remembered of these. Each part carries it over, or the session stops as `bad` says. -/
structure Carried (bucket destination : String) (inv : Nat → Written → Session σ → Prop)
    (bad : Halt → Session σ → Prop) : Prop where
  congr : ∀ {n : Nat} {written : Written} {s t : Session σ}, inv n written s →
    t = { s with contents := t.contents, buffer := t.buffer } → inv n written t
  stops : ∀ {n : Nat} {written : Written} {s : Session σ} (halt : Halt), n < composeLimit →
    inv n written s → bad halt s
  part : ∀ {n : Nat} {written : Written} {s : Session σ} (data : Bytes), n + 1 < composeLimit →
    inv n written s →
    Ends (writePart bucket destination (n + 1) data) s
      (fun object t => inv (n + 1) (written.add object) t) bad
  rest : ∀ {written : Written} {s : Session σ}, inv (composeLimit - 1) written s →
    Ends (writeRest bucket destination (composeLimit - 1 + 1)) s
      (fun object t => inv composeLimit (written.add object) t) bad

/-- However many parts are written, at least one. -/
theorem Carried.writeParts (h : Carried bucket destination inv bad) :
    ∀ {left n : Nat} {s : Session σ} {written : Written}, inv n written s →
      n + left = composeLimit - 1 →
      Ends (writeParts bucket destination left (n + 1) written) s
        (fun written t => ∃ all, 1 ≤ all ∧ all ≤ composeLimit ∧ inv all written t) bad
  | 0, n, s, written, hs, hleft => by
    obtain rfl : n = composeLimit - 1 := hleft
    have hroom : composeLimit - 1 < composeLimit := by decide
    refine Ends.andThen (ends_holdsMore s) ?_ ?_
    · intro halt t hkept
      exact h.stops halt hroom (h.congr hs hkept)
    · intro more t hkept
      have ht := h.congr hs hkept
      cases more with
      | false => exact Ends.pure ⟨_, by decide, Nat.le_of_lt hroom, ht⟩
      | true =>
        refine Ends.bind (h.rest ht) fun object t' hall => ?_
        exact Ends.pure ⟨_, by decide, Nat.le_refl _, hall⟩
  | left + 1, n, s, written, hs, hleft => by
    have hroom : n + 1 < composeLimit := by omega
    have hless : n < composeLimit := Nat.lt_of_succ_lt hroom
    refine Ends.andThen (ends_nextChunk s) ?_ ?_
    · intro halt t hkept
      exact h.stops halt hless (h.congr hs hkept)
    · intro data t hkept
      have ht := h.congr hs hkept
      by_cases hend : 1 < n + 1 ∧ data = []
      · rw [if_pos hend]
        exact Ends.pure ⟨n, Nat.le_of_lt_succ hend.1, Nat.le_of_lt hless, ht⟩
      · rw [if_neg hend]
        refine Ends.bind (h.part data hroom ht) fun object t' hmore => ?_
        exact h.writeParts hmore (by omega)

/-- A property of the store that is kept by the calls of an upload to `destination`. -/
structure Keeps (bucket destination : String) (P : σ → Prop) : Prop where
  create : ∀ {n : Nat} {m : σ} (data : Bytes), n < composeLimit → P m →
    Ends (ObjectStore.create bucket (Part.name destination (n + 1)) data true) m (fun _ => P)
      (fun _ => P)
  createFromReader : ∀ {n : Nat} {m : σ} (contents : Reader), n < composeLimit → P m →
    Ends (ObjectStore.createFromReader bucket (Part.name destination (n + 1)) contents) m
      (fun _ => P) (fun _ => P)
  compose : ∀ {m : σ} (sources : List String), P m →
    Ends (ObjectStore.compose bucket sources destination) m (fun _ => P) (fun _ => P)

theorem Keeps.carried {P : σ → Prop} (h : Keeps bucket destination P) :
    Carried bucket destination (fun _ _ s => P s.store) (fun _ s => P s.store) where
  congr hs ht := by
    rw [ht]
    exact hs
  stops _ _ hs := hs
  part data hroom hs := by
    have hcreate := h.create data (Nat.lt_of_succ_lt hroom) hs
    refine Ends.modify_bind (Ends.andThen (ends_onStore hcreate) (fun _ _ hbad => hbad.1)
      fun object t ht => ?_)
    exact Ends.modify_bind (Ends.pure ht.1)
  rest hs := by
    refine Ends.modify_bind (Ends.modify_bind (Ends.get_bind (Ends.andThen
      (ends_onStore (h.createFromReader _ (by decide) hs)) (fun _ _ hbad => hbad.1)
      fun object t ht => ?_)))
    exact Ends.modify_bind (Ends.pure ht.1)

/-- However a session ends, the store has the property still. -/
theorem Keeps.run {P : σ → Prop} (h : Keeps bucket destination P) {s : Session σ}
    (hs : P s.store) :
    Ends (run bucket destination) s (fun _ t => P t.store) (fun _ t => P t.store) := by
  refine Ends.bind (h.carried.writeParts hs (Nat.zero_add _)) fun written t ht => ?_
  obtain ⟨-, -, -, ht⟩ := ht
  have hcompose : Ends
      (do
        countCompose
        onStore (ObjectStore.compose bucket (← get).names destination)) t
      (fun _ t => P t.store) (fun _ t => P t.store) :=
    Ends.modify_bind (Ends.get_bind (Ends.mono (ends_onStore (h.compose _ ht))
      (fun _ _ hgood => hgood.1) fun _ _ hbad => hbad.1))
  cases written with
  | single object => exact Ends.pure ht
  | nothing | several => exact hcompose

end Session

namespace Uploader

/-- An upload ends as its session does, and leaves the store that the session leaves. -/
theorem upload_ends {σ : Type} [ObjectStore σ] (u : Uploader) (request : UploadRequest)
    {m : Metered σ} {good : StoredObject → Session σ → Prop} {bad : Halt → Session σ → Prop}
    (h : Ends (Session.run request.bucket request.destination) (u.session request m) good bad) :
    ∃ (ending : Ending) (t : Session σ) (metrics : Metrics),
      u.upload request m = (ending, u.close request t, ⟨t.store, metrics⟩) ∧
      ((∃ object, ending = .stored object ∧ good object t) ∨
        (∃ cause, ending = .failed ⟨request.destination, cause⟩ ∧ bad (.failed cause) t) ∨
        ending = .cancelled ∧ bad .abandoned t) := by
  unfold Ends at h
  unfold upload
  rcases hrun : Session.run request.bucket request.destination (u.session request m) with
    ⟨object, t⟩ | ⟨cause | _, t⟩ <;> rw [hrun] at h
  · exact ⟨_, t, _, rfl, .inl ⟨object, rfl, h⟩⟩
  · exact ⟨_, t, _, rfl, .inr (.inl ⟨cause, rfl, h⟩)⟩
  · exact ⟨_, t, _, rfl, .inr (.inr ⟨rfl, h⟩)⟩

end Uploader

end ChunkedUpload
