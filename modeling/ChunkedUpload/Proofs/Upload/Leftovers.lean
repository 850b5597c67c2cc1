import ChunkedUpload.Proofs.Part.Names
import ChunkedUpload.Proofs.Reader.Flow
import ChunkedUpload.Proofs.Upload.Steps

/-!
# What an upload leaves behind

What a call may leave behind depends on the store. `Tidy` collects what has to be known of it: calls
that end by themselves keep it `clean`, and only a stream that is abandoned leaves it `littered`.
Then the same is true of a whole upload and the sweep of its parts (`upload_settles`): the state is
clean, or the upload was cancelled while it wrote the rest of its stream.
-/

namespace ChunkedUpload

open Call (Ends)

/-- The call ends by itself, with a value or an error, and `P` holds then. -/
def Call.Settles {σ α : Type} (call : Call σ α) (s : σ) (P : σ → Prop) : Prop :=
  Ends call s (fun _ => P) fun halt t => halt ≠ .abandoned ∧ P t

theorem Call.Settles.mono {σ α : Type} {call : Call σ α} {s : σ} {P Q : σ → Prop}
    (h : Call.Settles call s P) (hkeeps : ∀ t, P t → Q t) : Call.Settles call s Q :=
  Ends.mono h (fun _ t ht => hkeeps t ht) fun _ t ht => ⟨ht.1, hkeeps t ht.2⟩

/-- What is known of a store that takes the parts of one upload: `clean n` holds after `n` calls
that ended by themselves, and `littered rest` after a stream that hands out `rest` and then stalls.
-/
structure Tidy (σ : Type) [ObjectStore σ] (bucket destination : String) (clean : Nat → σ → Prop)
    (littered : Bytes → σ → Prop) : Prop where
  create : ∀ {n : Nat} {s : σ} (data : Bytes), n < composeLimit → clean n s →
    Call.Settles (ObjectStore.create bucket (Part.name destination (n + 1)) data true) s
      (clean (n + 1))
  stream : ∀ {n : Nat} {s : σ} (contents : Reader), n < composeLimit → clean n s →
    Ends (ObjectStore.createFromReader bucket (Part.name destination (n + 1)) contents) s
      (fun _ => clean (n + 1))
      (fun halt t => halt ≠ .abandoned ∧ clean (n + 1) t ∨
        halt = .abandoned ∧ littered contents.flow t)
  compose : ∀ {n : Nat} {s : σ}, n ≤ composeLimit → clean n s →
    Call.Settles (ObjectStore.compose bucket (Part.names destination n) destination) s
      (clean (n + 1))
  delete : ∀ {n number : Nat} {s : σ}, 1 ≤ number → number ≤ composeLimit → clean n s →
    Call.Settles (ObjectStore.delete bucket (Part.name destination number)) s (clean n)
  delete_littered : ∀ {number : Nat} {rest : Bytes} {s : σ}, 1 ≤ number → number ≤ composeLimit →
    littered rest s →
    Call.Settles (ObjectStore.delete bucket (Part.name destination number)) s (littered rest)

/-- One more call was seen. -/
theorem Watched.attempted_concat {σ : Type} {w w' : Watched σ} {x : Sighting σ}
    (h : w'.seen = w.seen ++ [x]) :
    w'.attempted = w.attempted ++ x.call.partContent?.toList := by
  unfold attempted calls
  rw [h, List.map_append, List.filterMap_append]
  cases hcontent : x.call.partContent? <;> simp [hcontent]

namespace Session

variable {σ : Type} {bucket destination : String} {clean : Nat → σ → Prop}
  {littered : Bytes → σ → Prop} {n : Nat} {s t : Session (Watched σ)}

/-! ## Between two parts -/

/-- After `n` parts, each of which the store has answered. -/
structure Between (destination : String) (clean : Nat → σ → Prop) (n : Nat)
    (s : Session (Watched σ)) : Prop where
  names : s.names = Part.names destination n
  count : s.store.attempted.length = n
  clean : clean n s.store.store

/-- The session has come to its end after `n` parts were attempted. If it was abandoned in the last
one of the limit, the store is littered. -/
inductive Stopped (destination : String) (clean : Nat → σ → Prop) (littered : Bytes → σ → Prop)
    (cancelled : Prop) (t : Session (Watched σ)) : Prop
  | settled {n k : Nat} : n ≤ composeLimit → t.names = Part.names destination n →
      t.store.attempted.length = n → (cancelled → n < composeLimit) → clean k t.store.store →
      Stopped destination clean littered cancelled t
  | littered {rest : Bytes} : cancelled → t.names = Part.names destination composeLimit →
      t.store.attempted.length = composeLimit → t.store.attempted.getLast? = some rest →
      littered rest t.store.store → Stopped destination clean littered cancelled t

namespace Between

theorem congr (h : Between destination clean n s) (hnames : t.names = s.names)
    (hstore : t.store = s.store) : Between destination clean n t := by
  obtain ⟨names, count, hclean⟩ := h
  exact ⟨hnames.trans names, hstore ▸ count, hstore ▸ hclean⟩

/-- A session that stops between two parts, before the last one of the limit. -/
theorem stopped {cancelled : Prop} (h : Between destination clean n s) (hroom : n < composeLimit) :
    Stopped destination clean littered cancelled s :=
  .settled (Nat.le_of_lt hroom) h.names h.count (fun _ => hroom) h.clean

/-- A call for one more part is noted by its name and by what it hands over. -/
theorem noted {call : StoreCall} {content : Bytes} {ending : Except Halt (Option StoredObject)}
    {after : σ} (h : Between destination clean n s) (hcall : call.partContent? = some content)
    (hseen : t.store.seen = s.store.seen ++ [⟨call, ending, after⟩])
    (hnames : t.names = s.names ++ [Part.name destination (n + 1)]) :
    t.names = Part.names destination (n + 1) ∧
      t.store.attempted = s.store.attempted ++ [content] := by
  constructor
  · rw [hnames, h.names, Part.names_succ]
  · rw [Watched.attempted_concat hseen, hcall]
    rfl

variable [ObjectStore σ]

theorem writePart (h : Between destination clean n s)
    (htidy : Tidy σ bucket destination clean littered) (hroom : n < composeLimit) (data : Bytes) :
    Ends (writePart bucket destination (n + 1) data) s
      (fun _ t => Between destination clean (n + 1) t)
      (fun halt t => Stopped destination clean littered (halt = .abandoned) t) := by
  refine Ends.modify_bind (Ends.andThen (ends_onStore (ends_note (htidy.create data hroom h.clean)))
    ?_ ?_)
  · intro halt t hbad
    obtain ⟨⟨⟨hhalt, hclean⟩, hseen⟩, ht⟩ := hbad
    obtain ⟨hnames, hattempted⟩ := h.noted rfl hseen (by rw [ht])
    refine .settled hroom hnames ?_ (fun habandoned => absurd habandoned hhalt) hclean
    simp [hattempted, h.count]
  · intro object t hgood
    obtain ⟨⟨hclean, hseen⟩, ht⟩ := hgood
    obtain ⟨hnames, hattempted⟩ := h.noted rfl hseen (by rw [ht])
    have hcount : t.store.attempted.length = n + 1 := by simp [hattempted, h.count]
    have hnext : Between destination clean (n + 1) t := ⟨hnames, hcount, hclean⟩
    exact Ends.modify_bind (Ends.pure (hnext.congr rfl rfl))

/-- The rest of the stream is the one part whose call may be abandoned. -/
theorem writeRest (h : Between destination clean (composeLimit - 1) s)
    (htidy : Tidy σ bucket destination clean littered) :
    Ends (writeRest bucket destination (composeLimit - 1 + 1)) s
      (fun _ t => Between destination clean composeLimit t)
      (fun halt t => Stopped destination clean littered (halt = .abandoned) t) := by
  have hroom : composeLimit - 1 < composeLimit := by decide
  have hlimit : composeLimit - 1 + 1 = composeLimit := by decide
  refine Ends.modify_bind (Ends.modify_bind (Ends.get_bind (Ends.andThen
    (ends_onStore (ends_note (htidy.stream _ hroom h.clean))) ?_ ?_)))
  · intro halt t hbad
    obtain ⟨⟨hends, hseen⟩, ht⟩ := hbad
    obtain ⟨hnames, hattempted⟩ := h.noted rfl hseen (by rw [ht])
    have hcount : t.store.attempted.length = composeLimit := by
      simp [hattempted, h.count, hlimit]
    rw [hlimit] at hnames hends
    rcases hends with ⟨hhalt, hclean⟩ | ⟨hhalt, hlittered⟩
    · exact .settled (Nat.le_refl _) hnames hcount (fun habandoned => absurd habandoned hhalt) hclean
    · refine .littered hhalt hnames hcount ?_ hlittered
      rw [hattempted, List.getLast?_concat, Reader.drain_taken]
  · intro object t hgood
    obtain ⟨⟨hclean, hseen⟩, ht⟩ := hgood
    obtain ⟨hnames, hattempted⟩ := h.noted rfl hseen (by rw [ht])
    have hcount : t.store.attempted.length = composeLimit := by
      simp [hattempted, h.count, hlimit]
    have hnext : Between destination clean composeLimit t := ⟨hnames, hcount, hclean⟩
    exact Ends.modify_bind (Ends.pure (hnext.congr rfl rfl))

theorem carried (htidy : Tidy σ bucket destination clean littered) :
    Carried bucket destination (fun n _ s => Between destination clean n s)
      (fun halt t => Stopped destination clean littered (halt = .abandoned) t) where
  congr h ht := by
    rw [ht]
    exact h.congr rfl rfl
  stops _ hroom h := h.stopped hroom
  part data hroom h := h.writePart htidy (Nat.lt_of_succ_lt hroom) data
  rest h := h.writeRest htidy

/-- However a session ends, the store is clean, or littered by the rest of a stream that stalled. -/
theorem run (h : Between destination clean 0 s)
    (htidy : Tidy σ bucket destination clean littered) :
    Ends (run bucket destination) s (fun _ t => Stopped destination clean littered False t)
      (fun halt t => Stopped destination clean littered (halt = .abandoned) t) := by
  refine Ends.bind ((carried htidy).writeParts h (Nat.zero_add _))
    fun written t hall => ?_
  obtain ⟨all, -, hlimit, hall⟩ := hall
  -- a compose is not the call for a part, so the count stays
  have hcompose : Ends
      (do
        countCompose
        onStore (ObjectStore.compose bucket (← get).names destination)) t
      (fun _ t' => Stopped destination clean littered False t')
      (fun halt t' => Stopped destination clean littered (halt = .abandoned) t') := by
    have hnoted : ∀ {t' : Session (Watched σ)} {ending : Except Halt (Option StoredObject)}
        {after : σ}, t'.store.seen = t.store.seen ++
          [⟨.compose bucket t.names destination, ending, after⟩] →
        t'.store.attempted.length = all := by
      intro t' ending after hseen
      simp [Watched.attempted_concat hseen, StoreCall.partContent?, hall.count]
    have hstore := htidy.compose hlimit hall.clean
    rw [← hall.names] at hstore
    refine Ends.modify_bind (Ends.get_bind (Ends.mono (ends_onStore (ends_note hstore)) ?_ ?_))
    · intro object t' hgood
      obtain ⟨⟨hclean, hseen⟩, ht⟩ := hgood
      exact .settled hlimit (by rw [ht]; exact hall.names) (hnoted hseen) False.elim hclean
    · intro halt t' hbad
      obtain ⟨⟨⟨hhalt, hclean⟩, hseen⟩, ht⟩ := hbad
      exact .settled hlimit (by rw [ht]; exact hall.names) (hnoted hseen)
        (fun habandoned => absurd habandoned hhalt) hclean
  cases written with
  | single object => exact Ends.pure (.settled hlimit hall.names hall.count False.elim hall.clean)
  | nothing | several => exact hcompose

end Between

end Session

/-! ## The sweep -/

/-- What every delete of a sweep keeps, the sweep keeps. -/
theorem Cleanup.sweepNames_keeps {σ : Type} [ObjectStore σ] {bucket : String} {P : σ → Prop} :
    ∀ {names : List String} {m : Metered σ},
      (∀ name ∈ names, ∀ s, P s → Call.Settles (ObjectStore.delete bucket name) s P) → P m.store →
      P (sweepNames bucket names m).store := by
  intro names
  induction names with
  | nil => exact fun _ h => h
  | cons name names ih =>
    intro m hdelete h
    obtain ⟨store, metrics⟩ := m
    have hkeeps := hdelete name List.mem_cons_self store h
    have hmore := fun other hother => hdelete other (List.mem_cons_of_mem name hother)
    unfold Call.Settles Ends at hkeeps
    unfold sweepNames
    rcases hrun : ObjectStore.delete bucket name store with ⟨_, store'⟩ | ⟨_ | _, store'⟩ <;>
      rw [hrun] at hkeeps <;> dsimp only
    · exact ih hmore hkeeps
    · exact ih hmore hkeeps.2
    · exact hkeeps.2

/-- The same for the parts that an upload has noted. -/
theorem Cleanup.Batch.sweep_keeps {σ : Type} [ObjectStore σ] {bucket destination : String}
    {P : σ → Prop} {count : Nat} {m : Metered σ} (hcount : count ≤ composeLimit)
    (hdelete : ∀ number, 1 ≤ number → number ≤ composeLimit → ∀ s, P s →
      Call.Settles (ObjectStore.delete bucket (Part.name destination number)) s P)
    (h : P m.store) :
    P (Batch.sweep ⟨bucket, destination, Part.names destination count⟩ m).store := by
  refine sweepNames_keeps (fun name hname s hs => ?_) h
  obtain ⟨i, hi, rfl⟩ := Part.mem_names.1 (List.mem_filter.1 hname).1
  exact hdelete (i + 1) (Nat.succ_pos i) (by omega) s hs

namespace Uploader

/-- The upload was cancelled while it wrote `rest`, all that was left of the stream, as the last
part that one compose takes. -/
structure CutOff {σ : Type} (ending : Ending) (w : Watched σ) (rest : Bytes) : Prop where
  cancelled : ending = .cancelled
  count : w.attempted.length = composeLimit
  last : w.attempted.getLast? = some rest

/-- The upload of `request` ends as `ending` after the calls that `w` has noted, and the sweep of
the batch that it submits leads to `swept`. -/
def Leaves {σ : Type} [ObjectStore σ] (u : Uploader) (request : UploadRequest) (m : Metered σ)
    (ending : Ending) (w : Watched σ) (swept : σ) : Prop :=
  ∃ (u' : Uploader) (metrics : Metrics) (batch : Cleanup.Batch),
    u.upload request (watch m) = (ending, u', ⟨w, metrics⟩) ∧
    u.upload request m = (ending, u', ⟨w.store, metrics⟩) ∧
    u'.queue.waiting = u.queue.waiting ++ [batch] ∧
    (batch.sweep ⟨w.store, metrics⟩).store = swept

/-- However an upload ends, once its batch is swept the store is clean, or the upload was cut off in
the rest of its stream. -/
theorem upload_settles {σ : Type} [ObjectStore σ] {bucket destination : String}
    {clean : Nat → σ → Prop} {littered : Bytes → σ → Prop} (u : Uploader)
    (script : Reader.Script) (m : Metered σ) (htidy : Tidy σ bucket destination clean littered)
    (hclean : clean 0 m.store) :
    ∃ ending w swept, u.Leaves ⟨bucket, destination, script⟩ m ending w swept ∧
      ((∀ rest, ¬CutOff ending w rest) ∧ (∃ k, clean k swept) ∨
        ∃ rest, CutOff ending w rest ∧ littered rest swept) := by
  have hstart : Session.Between destination clean 0
      (u.session ⟨bucket, destination, script⟩ (watch m)) := ⟨rfl, rfl, hclean⟩
  obtain ⟨ending, t, metrics, hupload, hending⟩ :=
    upload_ends u ⟨bucket, destination, script⟩ (hstart.run htidy)
  have hstopped : Session.Stopped destination clean littered (ending = .cancelled) t := by
    rcases hending with ⟨object, rfl, h⟩ | ⟨cause, rfl, h⟩ | ⟨rfl, h⟩
    · simpa using h
    · simpa using h
    · simpa using h
  have hwatched := upload_watched u ⟨bucket, destination, script⟩ m
  rw [hupload] at hwatched
  refine ⟨ending, t.store, _,
    ⟨_, metrics, ⟨bucket, destination, t.names⟩, hupload, hwatched, rfl, rfl⟩, ?_⟩
  cases hstopped with
  | @settled n k hlimit hnames hcount hcancelled hclean =>
    refine .inl ⟨fun rest hcut => ?_, k, ?_⟩
    · have hroom := hcancelled hcut.cancelled
      have hfull : t.store.attempted.length = composeLimit := hcut.count
      omega
    · rw [hnames]
      exact Cleanup.Batch.sweep_keeps hlimit (fun number hpos hle s => htidy.delete hpos hle) hclean
  | @littered rest hcancelled hnames hcount hlast hlittered =>
    refine .inr ⟨rest, ⟨hcancelled, hcount, hlast⟩, ?_⟩
    rw [hnames]
    exact Cleanup.Batch.sweep_keeps (Nat.le_refl _)
      (fun number hpos hle s => htidy.delete_littered hpos hle) hlittered

end Uploader

end ChunkedUpload
