import ChunkedUpload.Proofs.Part.Names
import ChunkedUpload.Proofs.Reader.Ending
import ChunkedUpload.Proofs.Storage.InStep
import ChunkedUpload.Proofs.Upload.Steps

/-!
# Two uploads side by side

Two uploads of the same size of parts to the same destination, to stores whose calls are in step
(`Paired`) and from streams that are read alike (`Paced`), end the same way and leave related stores
(`upload_twins`). One relation between the two sessions, `Twins`, is kept from step to step. What
the sessions have counted is not looked at, so it is the same in the end if it was in the beginning.
-/

namespace ChunkedUpload

open Call (Agree InStep Together)

/-! ## Streams that are read alike -/

/-- While `left` more buffers of `size` bytes are filled and one look ahead is taken, two readers in
`Q left` answer alike, and have the same rest in the end. -/
structure Reader.Paced (size : Nat) (Q : Nat → Reader → Reader → Prop) : Prop where
  fill : ∀ {left : Nat} {r r' : Reader}, Q (left + 1) r r' →
    (r.fill size).taken = (r'.fill size).taken ∧ (r.fill size).stop = (r'.fill size).stop ∧
      ((r.fill size).stop = .done → Q left (r.fill size).rest (r'.fill size).rest)
  peek : ∀ {r r' : Reader}, Q 0 r r' →
    (∃ ahead ahead' rest rest', r.peek = (.bytes ahead, rest) ∧ r'.peek = (.bytes ahead', rest') ∧
      ahead.isEmpty = ahead'.isEmpty ∧
      (ahead ≠ [] → rest.flow = rest'.flow ∧ rest.ending = rest'.ending)) ∨
    ∃ reading rest rest', r.peek = (reading, rest) ∧ r'.peek = (reading, rest') ∧
      ∀ got, reading ≠ .bytes got

/-- One stream is read like itself. -/
theorem Reader.paced_refl (size : Nat) : Paced size fun _ r r' => r = r' where
  fill := by
    rintro left r _ rfl
    exact ⟨rfl, rfl, fun _ => rfl⟩
  peek := by
    rintro r _ rfl
    cases hpeek : r.peek with
    | mk reading rest =>
      cases reading with
      | bytes ahead => exact .inl ⟨_, _, _, _, rfl, rfl, rfl, fun _ => ⟨rfl, rfl⟩⟩
      | failed | stalled => exact .inr ⟨_, _, _, rfl, rfl, nofun⟩

namespace Session

variable {σ τ : Type} {counted : Prop} {R : σ → τ → Prop} {bucket destination : String}
  {size : Nat}

/-! ## Stores in step -/

/-- The calls of an upload to `destination` are in step. -/
structure Paired [ObjectStore σ] [ObjectStore τ] (R : σ → τ → Prop)
    (bucket destination : String) : Prop where
  create : ∀ {name : String}, name ∈ Part.names destination composeLimit → ∀ data : Bytes,
    InStep R (ObjectStore.create bucket name data true) (ObjectStore.create bucket name data true)
  createFromReader : ∀ {name : String}, name ∈ Part.names destination composeLimit →
    ∀ {r r' : Reader}, r.flow = r'.flow → r.ending = r'.ending →
      InStep R (ObjectStore.createFromReader bucket name r)
        (ObjectStore.createFromReader bucket name r')
  compose : ∀ {sources : List String}, sources ⊆ Part.names destination composeLimit →
    InStep R (ObjectStore.compose bucket sources destination)
      (ObjectStore.compose bucket sources destination)

/-- Two sessions that differ only in their stores, which are in `R`, in their readers, which are in
`Q`, and in what they have counted, unless `counted` holds. -/
structure Twins (counted : Prop) (R : σ → τ → Prop) (destination : String) (size : Nat)
    (Q : Reader → Reader → Prop) (s : Session σ) (t : Session τ) : Prop where
  store : R s.store t.store
  contents : Q s.contents t.contents
  buffer : t.buffer = s.buffer
  size : s.buffer.size = size
  names : t.names = s.names
  own : s.names ⊆ Part.names destination composeLimit
  counters : counted → t.metrics = s.metrics ∧ t.limitHits = s.limitHits

namespace Twins

variable {Q Q' : Reader → Reader → Prop} {s : Session σ} {t : Session τ}

theorem mono (h : Twins counted R destination size Q s t) (hQ : Q' s.contents t.contents) :
    Twins counted R destination size Q' s t :=
  ⟨h.store, hQ, h.buffer, h.size, h.names, h.own, h.counters⟩

theorem weaken (h : Twins counted R destination size Q s t) :
    Twins counted R destination size (fun _ _ => True) s t := h.mono trivial

/-! ## Step by step -/

/-- Counting does not set twins apart, if both count the same. -/
theorem count (h : Twins counted R destination size Q s t) (f : Metrics → Metrics)
    (g : Nat → Nat) :
    Twins counted R destination size Q
      { s with metrics := f s.metrics, limitHits := g s.limitHits }
      { t with metrics := f t.metrics, limitHits := g t.limitHits } where
  store := h.store
  contents := h.contents
  buffer := h.buffer
  size := h.size
  names := h.names
  own := h.own
  counters := by
    intro hcounted
    obtain ⟨hmetrics, hhits⟩ := h.counters hcounted
    exact ⟨congrArg f hmetrics, congrArg g hhits⟩

theorem begin {name : String} (h : Twins counted R destination size Q s t)
    (hname : name ∈ Part.names destination composeLimit) :
    Twins counted R destination size Q { s with names := s.names ++ [name] }
      { t with names := t.names ++ [name] } where
  store := h.store
  contents := h.contents
  buffer := h.buffer
  size := h.size
  names := congrArg (· ++ [name]) h.names
  own := List.append_subset.2 ⟨h.own, List.cons_subset.2 ⟨hname, List.nil_subset _⟩⟩
  counters := h.counters

theorem onStore {α : Type} {call : Call σ α} {call' : Call τ α}
    (h : Twins counted R destination size Q s t) (hcall : InStep R call call') :
    Agree (Twins counted R destination size Q) (Session.onStore call s)
      (Session.onStore call' t) := by
  unfold Session.onStore
  rcases (hcall _ _ h.store).cases with ⟨a, m, m', hc, hc', hm⟩ | ⟨halt, m, m', hc, hc', hm⟩ <;>
    rw [hc, hc'] <;>
    exact ⟨rfl, ⟨hm, h.contents, h.buffer, h.size, h.names, h.own, h.counters⟩⟩

variable {P : Nat → Reader → Reader → Prop}

theorem nextChunk {left : Nat} (hpace : Reader.Paced size P)
    (h : Twins counted R destination size (P (left + 1)) s t) :
    Together (fun _ => Twins counted R destination size (P left))
      (Twins counted R destination size fun _ _ => True)
      (Session.nextChunk s) (Session.nextChunk t) := by
  obtain ⟨htaken, hstop, hrest⟩ := hpace.fill h.contents
  unfold Session.nextChunk
  simp only [Reader.refill, Reader.Refilled.chunk, h.buffer, h.size, ← htaken, ← hstop]
  have hsize : (s.buffer.overwrite (s.contents.fill size).taken).size = size := h.size
  cases hdone : (s.contents.fill size).stop with
  | done => exact .ok _ ⟨h.store, hrest hdone, rfl, hsize, h.names, h.own, h.counters⟩
  | failed | stalled =>
    exact .error _ ⟨h.store, trivial, rfl, hsize, h.names, h.own, h.counters⟩

theorem holdsMore (hpace : Reader.Paced size P)
    (h : Twins counted R destination size (P 0) s t) :
    Together (fun more => Twins counted R destination size fun r r' =>
        more = true → r.flow = r'.flow ∧ r.ending = r'.ending)
      (Twins counted R destination size fun _ _ => True)
      (Session.holdsMore s) (Session.holdsMore t) := by
  have hmono : ∀ {Q : Reader → Reader → Prop} {r r' : Reader}, Q r r' →
      Twins counted R destination size Q { s with contents := r } { t with contents := r' } :=
    fun hQ => ⟨h.store, hQ, h.buffer, h.size, h.names, h.own, h.counters⟩
  unfold Session.holdsMore
  rcases hpace.peek h.contents with
    ⟨ahead, ahead', rest, rest', hr, hr', hempty, hrest⟩ | ⟨reading, rest, rest', hr, hr', hnone⟩
  · simp only [hr, hr', hempty]
    refine .ok _ (hmono fun hmore => hrest ?_)
    rintro rfl
    rw [← hempty] at hmore
    cases hmore
  · simp only [hr, hr']
    cases reading with
    | bytes got => exact absurd rfl (hnone got)
    | failed | stalled => exact .error _ (hmono trivial)

theorem mem_names {number : Nat} (hpos : 1 ≤ number) (hroom : number ≤ composeLimit) :
    Part.name destination number ∈ Part.names destination composeLimit :=
  Part.mem_names.2 ⟨number - 1, by omega, by rw [Nat.sub_add_cancel hpos]⟩

/-- A part that was written is counted. -/
theorem countPart (h : Twins counted R destination size Q s t) (count : Nat)
    (object : StoredObject) :
    Agree (Twins counted R destination size Q)
      ((do Session.countPart count; pure object : Step σ StoredObject) s)
      ((do Session.countPart count; pure object : Step τ StoredObject) t) :=
  ⟨rfl, h.count (fun m => { m with
    partsUploaded := m.partsUploaded + 1, bytesUploaded := m.bytesUploaded + count }) id⟩

section

variable [ObjectStore σ] [ObjectStore τ]

theorem writePart (hstores : Paired R bucket destination)
    (h : Twins counted R destination size Q s t) {number : Nat} (hpos : 1 ≤ number)
    (hroom : number ≤ composeLimit) (data : Bytes) :
    Agree (Twins counted R destination size Q) (Session.writePart bucket destination number data s)
      (Session.writePart bucket destination number data t) := by
  have hname : Part.name destination number ∈ _ := mem_names hpos hroom
  refine Agree.modify_bind (Agree.bind ((h.begin hname).onStore (hstores.create hname data)) ?_)
  intro object s' t' _ h'
  exact h'.countPart data.length object

theorem writeRest (hstores : Paired R bucket destination)
    (h : Twins counted R destination size
      (fun r r' => r.flow = r'.flow ∧ r.ending = r'.ending) s t) :
    Agree (Twins counted R destination size fun _ _ => True)
      (Session.writeRest bucket destination composeLimit s)
      (Session.writeRest bucket destination composeLimit t) := by
  have hname : Part.name destination composeLimit ∈ _ := mem_names (by decide) (Nat.le_refl _)
  have hcall := hstores.createFromReader hname h.contents.1 h.contents.2
  have hhit := h.weaken.count
    (fun m => { m with composeLimitHits := m.composeLimitHits + 1 }) (· + 1)
  refine Agree.modify_bind (Agree.modify_bind (Agree.get_bind
    (Agree.bind ((hhit.begin hname).onStore hcall) ?_)))
  intro object s' t' _ h'
  exact h'.countPart object.size object

/-! ## Whole sessions -/

theorem writeParts (hstores : Paired R bucket destination) (hpace : Reader.Paced size P) :
    ∀ {left n : Nat} {s : Session σ} {t : Session τ} {written : Written},
      Twins counted R destination size (P left) s t → n + left = composeLimit - 1 →
      Agree (Twins counted R destination size fun _ _ => True)
        (Session.writeParts bucket destination left (n + 1) written s)
        (Session.writeParts bucket destination left (n + 1) written t)
  | 0, n, s, t, written, h, hleft => by
    obtain rfl : n = composeLimit - 1 := hleft
    refine Together.bind (h.holdsMore hpace) fun more s' t' h' => ?_
    cases more with
    | false => exact ⟨rfl, h'.weaken⟩
    | true =>
      have hrest := writeRest hstores (h'.mono (h'.contents rfl))
      exact Agree.bind hrest fun object s'' t'' _ h'' => ⟨rfl, h''⟩
  | left + 1, n, s, t, written, h, hleft => by
    refine Together.bind (h.nextChunk hpace) fun data s' t' h' => ?_
    by_cases hend : 1 < n + 1 ∧ data = []
    · rw [if_pos hend, if_pos hend]
      exact ⟨rfl, h'.weaken⟩
    · rw [if_neg hend, if_neg hend]
      have hpart := h'.writePart hstores (Nat.succ_pos n) (by omega) data
      refine Together.bind (hpart.together fun _ _ h => h.weaken) fun object s'' t'' h'' => ?_
      exact writeParts hstores hpace h'' (by omega)

theorem run (hstores : Paired R bucket destination) (hpace : Reader.Paced size P)
    (h : Twins counted R destination size (P (composeLimit - 1)) s t) :
    Agree (Twins counted R destination size fun _ _ => True) (Session.run bucket destination s)
      (Session.run bucket destination t) := by
  refine Agree.bind (writeParts hstores hpace h (Nat.zero_add _)) fun written s' t' _ h' => ?_
  have hcompose : Agree (Twins counted R destination size fun _ _ => True)
      ((do
        countCompose
        Session.onStore (ObjectStore.compose bucket (← get).names destination)) s')
      ((do
        countCompose
        Session.onStore (ObjectStore.compose bucket (← get).names destination)) t') := by
    have hcall : InStep R (ObjectStore.compose bucket s'.names destination)
        (ObjectStore.compose bucket t'.names destination) := by
      rw [h'.names]
      exact hstores.compose h'.own
    have hasked := h'.count
      (fun m => { m with composeRequests := m.composeRequests + 1 }) id
    exact Agree.modify_bind (Agree.get_bind (hasked.onStore hcall))
  cases written with
  | single object => exact ⟨rfl, h'⟩
  | nothing | several => exact hcompose

end

end Twins

end Session

namespace Uploader

variable {σ τ : Type} [ObjectStore σ] [ObjectStore τ] {R : σ → τ → Prop}

/-- Two uploads to the same destination end the same way, with the same parts to be swept, and leave
related stores. They have counted the same if they had before. -/
theorem upload_twins (counted : Prop) {u u' : Uploader} {bucket destination : String}
    {script script' : Reader.Script} {m : Metered σ} {m' : Metered τ}
    {P : Nat → Reader → Reader → Prop} (hsize : u'.chunkSize = u.chunkSize)
    (hstores : Session.Paired R bucket destination) (hpace : Reader.Paced u.chunkSize P)
    (hstore : R m.store m'.store)
    (hstart : P (composeLimit - 1) (.buffered script) (.buffered script'))
    (hcounters : counted → m'.metrics = m.metrics ∧ u'.limitHits = u.limitHits) :
    ∃ (ending : Ending) (s : Session σ) (t : Session τ) (metrics metrics' : Metrics),
      u.upload ⟨bucket, destination, script⟩ m =
        (ending, u.close ⟨bucket, destination, script⟩ s, ⟨s.store, metrics⟩) ∧
      u'.upload ⟨bucket, destination, script'⟩ m' =
        (ending, u'.close ⟨bucket, destination, script'⟩ t, ⟨t.store, metrics'⟩) ∧
      R s.store t.store ∧ t.names = s.names ∧
      (counted → metrics' = metrics ∧ t.limitHits = s.limitHits) := by
  have htwins : Session.Twins counted R destination u.chunkSize (P (composeLimit - 1))
      (u.session ⟨bucket, destination, script⟩ m)
      (u'.session ⟨bucket, destination, script'⟩ m') := by
    refine ⟨hstore, hstart, ?_, rfl, rfl, List.nil_subset _, fun hcounted => ?_⟩
    · rw [session, session, hsize]
    · obtain ⟨hmetrics, hhits⟩ := hcounters hcounted
      rw [session, session, hmetrics, hhits]
      exact ⟨rfl, rfl⟩
  unfold upload
  rcases (htwins.run hstores hpace).cases with ⟨object, s, t, hs, ht, h⟩ | ⟨halt, s, t, hs, ht, h⟩
  · rw [hs, ht]
    refine ⟨_, s, t, _, _, rfl, rfl, h.store, h.names, fun hcounted => ?_⟩
    obtain ⟨hmetrics, hhits⟩ := h.counters hcounted
    rw [hmetrics]
    exact ⟨rfl, hhits⟩
  · rw [hs, ht]
    cases halt with
    | failed cause =>
      refine ⟨_, s, t, _, _, rfl, rfl, h.store, h.names, fun hcounted => ?_⟩
      obtain ⟨hmetrics, hhits⟩ := h.counters hcounted
      rw [hmetrics]
      exact ⟨rfl, hhits⟩
    | abandoned => exact ⟨_, s, t, _, _, rfl, rfl, h.store, h.names, h.counters⟩

end Uploader

end ChunkedUpload
