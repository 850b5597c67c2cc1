import ChunkedUpload.Proofs.Reader.Stalling
import ChunkedUpload.Proofs.Upload.Leftovers

/-!
# Uploads that are cut off

A stream that holds more than 31 chunks and then stalls gets an upload as far as the rest of the
stream. If the store takes the parts before, the upload is cut off there (`cut_off_of_long`).
-/

namespace ChunkedUpload

open Call (Ends)

/-- What is known of a store that is `ready n` after `n` parts: it takes the next part, and it has
nothing to say when a stream stalls after `rest`. -/
structure Accepts (σ : Type) [ObjectStore σ] (bucket destination : String) (rest : Bytes)
    (ready : Nat → σ → Prop) : Prop where
  create : ∀ {n : Nat} {s : σ} (data : Bytes), n + 1 < composeLimit → ready n s →
    Ends (ObjectStore.create bucket (Part.name destination (n + 1)) data true) s
      (fun _ => ready (n + 1)) fun _ _ => False
  stream : ∀ {s : σ} {contents : Reader}, contents.Dries → contents.flow = rest →
    ready (composeLimit - 1) s →
    Ends (ObjectStore.createFromReader bucket (Part.name destination composeLimit) contents) s
      (fun _ _ => False) fun halt _ => halt = .abandoned

namespace Session

variable {σ : Type} {bucket destination : String} {ready : Nat → σ → Prop} {n : Nat}
  {s t : Session (Watched σ)}

/-- A session that has written `n` parts and whose stream has more than `left` chunks to come before
it stalls. `rest` is what is left of it after these. -/
structure Supplied (destination : String) (ready : Nat → σ → Prop) (size : Nat) (rest : Bytes)
    (n left : Nat) (s : Session (Watched σ)) : Prop where
  between : Between destination ready n s
  buffer : s.buffer.size = size
  dries : s.contents.Dries
  window : 0 < s.contents.window
  long : left * size < s.contents.flow.length
  remains : s.contents.flow.drop (left * size) = rest

/-- How such a session ends. -/
def CutIn (rest : Bytes) (halt : Halt) (t : Session (Watched σ)) : Prop :=
  halt = .abandoned ∧ t.store.attempted.length = composeLimit ∧
    t.store.attempted.getLast? = some rest

namespace Supplied

variable {size left : Nat} {rest : Bytes}

theorem nextChunk (h : Supplied destination ready size rest n (left + 1) s) (hsize : 0 < size) :
    Ends nextChunk s
      (fun data t => data ≠ [] ∧ Supplied destination ready size rest n left t)
      fun _ _ => False := by
  have hmul : (left + 1) * size = left * size + size := Nat.succ_mul left size
  have hlong := h.long
  obtain ⟨x, hx, hstop, hchunk, hbuffer, hdries, hwindow, hflow⟩ :=
    h.dries.refill (show s.buffer.size ≤ s.contents.flow.length by rw [h.buffer]; omega)
  unfold Ends Session.nextChunk
  rw [hx]
  simp only [hstop]
  refine ⟨?_, h.between.congr rfl rfl, hbuffer.trans h.buffer, hdries, hwindow ▸ h.window, ?_, ?_⟩
  · rw [hchunk]
    refine List.ne_nil_of_length_pos ?_
    rw [List.length_take, h.buffer]
    omega
  · show left * size < x.rest.flow.length
    rw [hflow, List.length_drop, h.buffer]
    omega
  · show x.rest.flow.drop (left * size) = rest
    rw [hflow, List.drop_drop, h.buffer, Nat.add_comm, ← hmul]
    exact h.remains

variable [ObjectStore σ]

theorem writePart (h : Supplied destination ready size rest n left s)
    (haccepts : Accepts σ bucket destination rest ready) (hroom : n + 1 < composeLimit)
    (data : Bytes) :
    Ends (writePart bucket destination (n + 1) data) s
      (fun _ t => Supplied destination ready size rest (n + 1) left t) fun _ _ => False := by
  refine Ends.modify_bind (Ends.andThen
    (ends_onStore (ends_note (haccepts.create data hroom h.between.clean))) (fun _ _ h => h.1.1) ?_)
  intro object t hgood
  obtain ⟨⟨hready, hseen⟩, ht⟩ := hgood
  obtain ⟨hnames, hattempted⟩ := h.between.noted rfl hseen (by rw [ht])
  have hcount : t.store.attempted.length = n + 1 := by simp [hattempted, h.between.count]
  have hcontents : t.contents = s.contents := by rw [ht]
  have hbuffer : t.buffer = s.buffer := by rw [ht]
  refine Ends.modify_bind (Ends.pure ⟨⟨hnames, hcount, hready⟩, ?_, ?_, ?_, ?_, ?_⟩)
  · exact (congrArg _ hbuffer).trans h.buffer
  · exact hcontents ▸ h.dries
  · exact hcontents ▸ h.window
  · exact hcontents ▸ h.long
  · exact hcontents ▸ h.remains

/-- The look ahead finds the rest, and the call that writes it waits for ever. -/
theorem writeRest (h : Supplied destination ready size rest (composeLimit - 1) 0 s)
    (haccepts : Accepts σ bucket destination rest ready) (written : Written) :
    Ends (writeParts bucket destination 0 (composeLimit - 1 + 1) written) s (fun _ _ => False)
      (CutIn rest) := by
  have hlimit : composeLimit - 1 + 1 = composeLimit := by decide
  have hlong := h.long
  have hrest := h.remains
  rw [Nat.zero_mul] at hlong hrest
  obtain ⟨ahead, contents, hpeek, hahead, hdries, hflow⟩ :=
    h.dries.peek h.window (List.length_pos_iff.1 hlong)
  have hmore : Ends holdsMore s
      (fun more t => more = true ∧ Between destination ready (composeLimit - 1) t ∧
        t.contents = contents) fun _ _ => False := by
    unfold Ends holdsMore
    rw [hpeek]
    exact ⟨by simp [hahead], h.between.congr rfl rfl, rfl⟩
  refine Ends.andThen hmore (fun _ _ h => h.elim) fun more t ht => ?_
  obtain ⟨rfl, hbetween, hcontents⟩ := ht
  have hstream : Ends (Session.writeRest bucket destination (composeLimit - 1 + 1)) t
      (fun _ _ => False) (CutIn rest) := by
    have hstalls := haccepts.stream (hcontents ▸ hdries) (by rw [hcontents, hflow]; exact hrest)
      hbetween.clean
    refine Ends.modify_bind (Ends.modify_bind (Ends.get_bind (Ends.andThen
      (ends_onStore (ends_note hstalls)) ?_ fun _ _ h => h.1.1.elim)))
    intro halt t' hbad
    obtain ⟨⟨hhalt, hseen⟩, ht'⟩ := hbad
    obtain ⟨-, hattempted⟩ := hbetween.noted rfl hseen (by rw [ht'])
    refine ⟨hhalt, by simp [hattempted, hbetween.count, hlimit], ?_⟩
    rw [hattempted, List.getLast?_concat, Reader.drain_taken, hcontents, hflow]
    simpa using hrest
  exact Ends.bind hstream fun _ _ h => h.elim

theorem writeParts {left n : Nat} {s : Session (Watched σ)}
    (h : Supplied destination ready size rest n left s)
    (haccepts : Accepts σ bucket destination rest ready) (hsize : 0 < size)
    (hleft : n + left = composeLimit - 1) (written : Written) :
    Ends (writeParts bucket destination left (n + 1) written) s (fun _ _ => False)
      (CutIn rest) := by
  induction left generalizing n s written with
  | zero =>
    obtain rfl : n = composeLimit - 1 := hleft
    exact h.writeRest haccepts written
  | succ left ih =>
    have hroom : n + 1 < composeLimit := by omega
    refine Ends.andThen (h.nextChunk hsize) (fun _ _ h => h.elim) fun data t hchunk => ?_
    obtain ⟨hsome, hnext⟩ := hchunk
    rw [if_neg fun hend => hsome hend.2]
    refine Ends.andThen (hnext.writePart haccepts hroom data) (fun _ _ h => h.elim) ?_
    intro object t' hmore
    exact ih hmore (by omega) (written.add object)

theorem run (h : Supplied destination ready size rest 0 (composeLimit - 1) s)
    (haccepts : Accepts σ bucket destination rest ready) (hsize : 0 < size) :
    Ends (run bucket destination) s (fun _ _ => False) (CutIn rest) :=
  Ends.bind (h.writeParts haccepts hsize (Nat.zero_add _) .nothing) fun _ _ h => h.elim

end Supplied

end Session

namespace Uploader

/-- If the store takes the parts, a stream of more than 31 chunks that stalls is cut off in the rest
after these. -/
theorem cut_off_of_long {σ : Type} [ObjectStore σ] {bucket destination : String}
    {ready : Nat → σ → Prop} {u : Uploader} {script : Reader.Script} {m : Metered σ}
    {ending : Ending} {w : Watched σ} {swept : σ}
    (h : u.Leaves ⟨bucket, destination, script⟩ m ending w swept)
    (haccepts : Accepts σ bucket destination
      (script.flow.drop ((composeLimit - 1) * u.chunkSize)) ready) (hready : ready 0 m.store)
    (hchunk : 0 < u.chunkSize) (hdries : script.Dries)
    (hlong : (composeLimit - 1) * u.chunkSize < script.flow.length) :
    CutOff ending w (script.flow.drop ((composeLimit - 1) * u.chunkSize)) := by
  have hstart : Session.Supplied destination ready u.chunkSize
      (script.flow.drop ((composeLimit - 1) * u.chunkSize)) 0 (composeLimit - 1)
      (u.session ⟨bucket, destination, script⟩ (watch m)) :=
    ⟨⟨rfl, rfl, hready⟩, rfl, hdries, (by decide : 0 < Reader.defaultWindow), hlong, rfl⟩
  obtain ⟨ending', t, metrics, hupload, hending⟩ :=
    upload_ends u ⟨bucket, destination, script⟩ (hstart.run haccepts hchunk)
  obtain ⟨u', metrics', batch, hleaves, -⟩ := h
  rw [hleaves] at hupload
  cases hupload
  rcases hending with ⟨object, rfl, h⟩ | ⟨cause, rfl, h⟩ | ⟨rfl, -, hcount, hlast⟩
  · exact h.elim
  · exact absurd h.1 nofun
  · exact ⟨rfl, hcount, hlast⟩

end Uploader

end ChunkedUpload
