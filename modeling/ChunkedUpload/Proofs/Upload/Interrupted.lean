import ChunkedUpload.Proofs.Upload.Progress

/-!
# Uploads that come to a stop

Whatever the stream does and whatever calls the store fails, with or without effect, the destination
never holds anything but what it held before, the first part, or all parts; and however the upload
ends, the sweep of its batch takes away each part that it may have written elsewhere, and nothing
else.
-/

namespace ChunkedUpload

open Call (Ends)

namespace Session

/-! ## Any run -/

variable {m : Memory} {bucket destination : String}

/-- Writing parts goes on from progress to progress, and stops in an aftermath. -/
theorem Progress.carried : Carried bucket destination
    (fun n written s => ∃ pieces : List Bytes, pieces.length = n ∧
      Progress m bucket destination pieces s ∧ written.Fits m bucket destination pieces)
    (fun _ t => ∃ all, Aftermath m bucket destination all t) where
  congr h ht := by
    obtain ⟨pieces, hlength, h, hfits⟩ := h
    rw [ht]
    exact ⟨pieces, hlength, h.congr rfl rfl, hfits⟩
  stops _ _ h := by
    obtain ⟨pieces, -, h, -⟩ := h
    exact ⟨pieces, h.aftermath⟩
  part data hroom h := by
    obtain ⟨pieces, rfl, h, hfits⟩ := h
    refine Ends.mono (h.writePart (Nat.lt_sub_of_add_lt hroom) data) (fun object t hpart => ?_)
      fun _ _ hstruck => ⟨_, hstruck.2⟩
    obtain ⟨hnext, hobject, -⟩ := hpart
    exact ⟨_, by simp, hnext, hobject ▸ hfits.add data⟩
  rest h := by
    obtain ⟨pieces, hlength, h, hfits⟩ := h
    rw [← hlength]
    refine Ends.mono (h.writeRest hlength) (fun object t hpart => ?_)
      fun _ _ hstruck => ⟨_, hstruck.2⟩
    obtain ⟨hnext, hobject, -⟩ := hpart
    refine ⟨_, ?_, hnext, hobject ▸ hfits.add _⟩
    rw [List.length_append, hlength]
    rfl

theorem Progress.run {s : Session (Watched Memory)} (h : Progress m bucket destination [] s) :
    Ends (run bucket destination) s
      (fun object t => ∃ all, all ≠ [] ∧ Joined m bucket destination all object t)
      (fun _ t => ∃ all, Aftermath m bucket destination all t) := by
  have hfits : Written.nothing.Fits m bucket destination [] := rfl
  have hparts := Progress.carried.writeParts ⟨[], rfl, h, hfits⟩ (Nat.zero_add _)
  refine Ends.bind hparts fun written t hcut => ?_
  obtain ⟨_, hpos, -, all, rfl, hprogress, hfits⟩ := hcut
  have hsome : all ≠ [] := List.length_pos_iff.1 hpos
  exact Ends.mono (hprogress.join hsome hfits) (fun object t' hjoined => ⟨all, hsome, hjoined.1⟩)
    fun _ t' hstruck => ⟨all, hstruck.2⟩

/-! ## The sweep -/

/-- A part after the first of `count` parts is stored at `a`. -/
def IsLaterPart (bucket destination : String) (count : Nat) (a : Address) : Prop :=
  ∃ n, 2 ≤ n ∧ n ≤ count ∧ a = (bucket, Part.name destination n)

/-- The sweep takes away the parts after the first, and nothing else. -/
theorem Aftermath.sweep {pieces : List Bytes} {s : Session (Watched Memory)}
    (h : Aftermath m bucket destination pieces s) (hdeletes : m.DeletesSafe) (metrics : Metrics)
    {swept : Memory} (hsweep : swept = ((⟨bucket, destination, s.names⟩ : Cleanup.Batch).sweep
      ⟨s.store.store, metrics⟩).store) (a : Address) :
    (IsLaterPart bucket destination pieces.length a → swept.objects.get? a = none) ∧
    (¬IsLaterPart bucket destination pieces.length a →
      swept.objects.get? a = s.store.store.objects.get? a) := by
  have hsafe : s.store.store.DeletesSafe := by
    rw [Memory.DeletesSafe, h.faults]
    exact hdeletes
  have hswept : (a.1 = bucket ∧ a.2 ∈ s.names.filter (Part.isLater destination)) ↔
      IsLaterPart bucket destination pieces.length a := by
    have hmax : composeLimit ≤ Part.maxNumber := by decide
    have hcount := h.count
    rw [h.names, List.mem_filter, Part.mem_names]
    constructor
    · rintro ⟨hbucket, ⟨i, hi, hname⟩, hlater⟩
      rw [← hname, Part.isLater_name (Nat.succ_pos i) (by omega), decide_eq_true_iff] at hlater
      exact ⟨i + 1, hlater, hi, Prod.ext hbucket hname.symm⟩
    · rintro ⟨n, hn, hle, rfl⟩
      refine ⟨rfl, ⟨n - 1, by omega, by rw [Nat.sub_add_cancel (by omega)]⟩, ?_⟩
      rw [Part.isLater_name (by omega) (by omega), decide_eq_true_iff]
      exact hn
  have hget := Cleanup.sweepNames_objects bucket (s.names.filter (Part.isLater destination))
    (m := ⟨s.store.store, metrics⟩) hsafe a
  rw [hsweep, ← hswept]
  exact ⟨fun hlater => hget.trans (if_pos hlater), fun hlater => hget.trans (if_neg hlater)⟩

end Session

namespace Uploader

/-- The session of an upload, when it has ended one way or another. -/
theorem upload_aftermath (u : Uploader) (request : UploadRequest) (m : Metered Memory) :
    ∃ (ending : Ending) (pieces : List Bytes) (t : Session (Watched Memory)) (metrics : Metrics),
      u.upload request (watch m) = (ending, u.close request t, ⟨t.store, metrics⟩) ∧
      Session.Aftermath m.store request.bucket request.destination pieces t ∧
      ∀ object, ending = .stored object → pieces ≠ [] ∧
        Session.Joined m.store request.bucket request.destination pieces object t := by
  obtain ⟨ending, t, metrics, hupload, hending⟩ :=
    upload_ends u request (u.progress_session request m).run
  rcases hending with ⟨object, rfl, pieces, hsome, hjoined⟩ | ⟨cause, rfl, pieces, haftermath⟩ |
    ⟨rfl, pieces, haftermath⟩
  · refine ⟨_, pieces, t, metrics, hupload, hjoined.aftermath, fun object' hobject => ?_⟩
    cases hobject
    exact ⟨hsome, hjoined⟩
  · exact ⟨_, pieces, t, metrics, hupload, haftermath, nofun⟩
  · exact ⟨_, pieces, t, metrics, hupload, haftermath, nofun⟩

/-- **All, the first part, or nothing**: after each call of an upload the destination holds what it
held before, the first part, or all parts, and all of them if the upload succeeds. The batch that
the upload puts on the queue, however it ends, is swept clean: of the parts that the upload set out
to write only the one at the destination is left, and every other object is as it was before. -/
theorem upload_all_first_or_nothing (u : Uploader) (bucket destination : String)
    (script : Reader.Script) (m : Metered Memory) (hdeletes : m.store.DeletesSafe) :
    ∃ (ending : Ending) (u' : Uploader) (m' : Metered (Watched Memory)) (batch : Cleanup.Batch),
      u.upload ⟨bucket, destination, script⟩ (watch m) = (ending, u', m') ∧
      u.upload ⟨bucket, destination, script⟩ m = (ending, u', ⟨m'.store.store, m'.metrics⟩) ∧
      (∀ x ∈ m'.store.seen,
        Session.AtDestination m.store bucket destination m'.store x.after) ∧
      (∀ object, ending = .stored object → m'.store.written = m'.store.attempted ∧
        m'.store.store.objects.get? (bucket, destination) = some m'.store.attempted.flatten) ∧
      u'.queue.waiting = u.queue.waiting ++ [batch] ∧
      (∀ a, Session.IsLaterPart bucket destination m'.store.attempted.length a →
        (batch.sweep ⟨m'.store.store, m'.metrics⟩).store.objects.get? a = none) ∧
      (∀ a, a ≠ (bucket, destination) →
        ¬Session.IsLaterPart bucket destination m'.store.attempted.length a →
        (batch.sweep ⟨m'.store.store, m'.metrics⟩).store.objects.get? a =
          m.store.objects.get? a) ∧
      (batch.sweep ⟨m'.store.store, m'.metrics⟩).store.objects.get? (bucket, destination) =
        m'.store.store.objects.get? (bucket, destination) ∧
      (u.queue.waiting = [] → (u'.flush ⟨m'.store.store, m'.metrics⟩).2 =
        batch.sweep ⟨m'.store.store, m'.metrics⟩) := by
  obtain ⟨ending, pieces, t, metrics, hupload, haftermath, hstored⟩ :=
    upload_aftermath u ⟨bucket, destination, script⟩ m
  have hswept := haftermath.sweep hdeletes metrics rfl
  refine ⟨ending, _, _, ⟨bucket, destination, t.names⟩, hupload, ?_, haftermath.seen, ?_, rfl, ?_,
    ?_, ?_, ?_⟩
  · rw [upload_watched, hupload]
  · intro object hobject
    obtain ⟨-, hjoined⟩ := hstored object hobject
    rw [hjoined.aftermath.attempted]
    exact ⟨hjoined.written, hjoined.content⟩
  · intro a hlater
    rw [haftermath.attempted] at hlater
    exact (hswept a).1 hlater
  · intro a hdestination hother
    rw [haftermath.attempted] at hother
    refine ((hswept a).2 hother).trans (haftermath.others a fun i hi ha => ?_)
    by_cases hfirst : i = 0
    · subst hfirst
      exact hdestination ha
    · exact hother ⟨i + 1, by omega, hi, ha⟩
  · have hmax : composeLimit ≤ Part.maxNumber := by decide
    have hcount := haftermath.count
    refine (hswept _).2 ?_
    rintro ⟨n, hn, hle, ha⟩
    have hname : Part.name destination 1 = Part.name destination n := congrArg Prod.snd ha
    have := (Part.name_inj (Nat.le_refl 1) (by omega) (by decide) (by omega)).1 hname
    omega
  · intro hqueue
    rw [flush, Cleanup.Queue.flush]
    show ((u.queue.waiting ++ [_]).foldl _ _) = _
    rw [hqueue]
    rfl

/-- The store fails to answer for part 2, which it has stored, and the stream is cut off. -/
theorem upload_all_first_or_nothing_struck :
    let fault : Memory.Fault := ⟨.create, some 2, none, true, .failed (.io (.system .busy))⟩
    let store : Memory := ⟨ObjectMap.insert ("b", "d") [9] {}, [], [fault], 0⟩
    ∃ (ending : Ending) (u' : Uploader) (m' : Metered (Watched Memory)) (batch : Cleanup.Batch),
      (⟨1, 0, {}⟩ : Uploader).upload ⟨"b", "d", [.data [1, 2, 3] none, .stall]⟩
        (watch ⟨store, {}⟩) = (ending, u', m') ∧
      (∀ x ∈ m'.store.seen, Session.AtDestination store "b" "d" m'.store x.after) ∧
      ∀ a, Session.IsLaterPart "b" "d" m'.store.attempted.length a →
        (batch.sweep ⟨m'.store.store, m'.metrics⟩).store.objects.get? a = none := by
  intro fault store
  have hdeletes : store.DeletesSafe := by
    intro other hother
    rw [List.mem_singleton.1 hother]
    decide
  obtain ⟨ending, u', m', batch, hupload, -, hseen, -, -, hswept, -⟩ :=
    upload_all_first_or_nothing ⟨1, 0, {}⟩ "b" "d" [.data [1, 2, 3] none, .stall] ⟨store, {}⟩
      hdeletes
  exact ⟨ending, u', m', batch, hupload, hseen, hswept⟩

end Uploader

end ChunkedUpload
