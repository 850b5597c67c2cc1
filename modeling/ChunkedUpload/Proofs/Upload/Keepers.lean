import ChunkedUpload.Proofs.Part.Names
import ChunkedUpload.Proofs.Upload.Slices

/-!
# Uploads to a store that keeps its parts

A `Keeper` is a store that takes the parts of one destination and hands them over to a compose
unchanged; what else it holds is not looked at. A `Shelf` tells what it has of these parts. An
upload of a steady stream, its sweep included, leaves the whole stream in the place of the first
part and clears the places of the others (`Keeper.upload`). If the second part is refused, the first
one stays (`Keeper.upload_refused`).
-/

namespace ChunkedUpload

open Call (Ends)

/-! ## Shelves -/

/-- Contents of parts. The index of a part is its number less one. -/
abbrev Shelf := Nat → Option Bytes

namespace Shelf

/-- With another content in one place. -/
def put (shelf : Shelf) (index : Nat) (content : Option Bytes) : Shelf := fun i =>
  if i = index then content else shelf i

/-- With contents in the first places. -/
def fill (shelf : Shelf) (contents : List Bytes) : Shelf := fun i => contents[i]?.or (shelf i)

/-- With nothing in some places. -/
def clear (shelf : Shelf) (indices : List Nat) : Shelf := fun i =>
  if i ∈ indices then none else shelf i

variable {shelf : Shelf} {contents : List Bytes}

theorem fill_concat (content : Bytes) :
    (shelf.fill contents).put contents.length (some content) =
      shelf.fill (contents ++ [content]) := by
  funext i
  rw [put, fill, fill]
  split
  · next h => rw [h, List.getElem?_concat_length, Option.some_or]
  · next h =>
    rcases Nat.lt_or_gt_of_ne h with hlt | hgt
    · rw [List.getElem?_append_left hlt]
    · rw [List.getElem?_eq_none (Nat.le_of_lt hgt), List.getElem?_eq_none]
      rw [List.length_append]
      exact hgt

theorem fill_of_lt {i : Nat} (h : i < contents.length) : shelf.fill contents i = contents[i]? := by
  rw [fill, List.getElem?_eq_getElem h, Option.some_or]

theorem fill_of_le {i : Nat} (h : contents.length ≤ i) : shelf.fill contents i = shelf i := by
  rw [fill, List.getElem?_eq_none h, Option.none_or]

theorem clear_cons (index : Nat) (indices : List Nat) :
    (shelf.put index none).clear indices = shelf.clear (index :: indices) := by
  funext i
  simp only [clear, put, List.mem_cons]
  by_cases hi : i = index <;> simp [hi]

end Shelf

/-! ## Keepers -/

/-- What is known of a store that takes the first `count` parts of a destination: `holds writes
shelf` after `writes` writes, when the parts are those of `shelf`. -/
structure Keeper (σ : Type) [ObjectStore σ] (bucket destination : String) (count : Nat)
    (holds : Nat → Shelf → σ → Prop) : Prop where
  limit : count ≤ composeLimit
  create : ∀ {writes index : Nat} {shelf : Shelf} {s : σ} (data : Bytes), writes ≤ composeLimit →
    index < count → holds writes shelf s →
    Ends (ObjectStore.create bucket (Part.name destination (index + 1)) data true) s
      (fun object t => object = ⟨bucket, Part.name destination (index + 1), data.length⟩ ∧
        holds (writes + 1) (shelf.put index (some data)) t)
      (fun _ _ => False)
  stream : ∀ {writes index : Nat} {shelf : Shelf} {s : σ} {contents : Reader}, contents.Steady →
    writes ≤ composeLimit → index < count → holds writes shelf s →
    Ends (ObjectStore.createFromReader bucket (Part.name destination (index + 1)) contents) s
      (fun object t =>
        object = ⟨bucket, Part.name destination (index + 1), contents.content.length⟩ ∧
        holds (writes + 1) (shelf.put index (some contents.content)) t)
      (fun _ _ => False)
  compose : ∀ {writes : Nat} {shelf : Shelf} {s : σ} {contents : List Bytes},
    writes ≤ composeLimit → contents ≠ [] → contents.length ≤ count →
    (∀ i < contents.length, shelf i = contents[i]?) → holds writes shelf s →
    Ends (ObjectStore.compose bucket (Part.names destination contents.length) destination) s
      (fun object t => object = ⟨bucket, destination, contents.flatten.length⟩ ∧
        holds (writes + 1) (shelf.put 0 (some contents.flatten)) t)
      (fun _ _ => False)
  delete : ∀ {writes index : Nat} {shelf : Shelf} {s : σ}, index < count → holds writes shelf s →
    Ends (ObjectStore.delete bucket (Part.name destination (index + 1))) s
      (fun _ t => holds writes (shelf.put index none) t) (fun _ _ => False)

/-- What is remembered of parts with these contents. -/
def Session.Written.of (bucket destination : String) : List Bytes → Session.Written
  | [] => .nothing
  | [content] => .single ⟨bucket, destination, content.length⟩
  | _ => .several

theorem Session.Written.of_concat {bucket destination : String} (contents : List Bytes)
    (content : Bytes) :
    (Written.of bucket destination contents).add
        ⟨bucket, Part.name destination (contents.length + 1), content.length⟩ =
      Written.of bucket destination (contents ++ [content]) := by
  match contents with
  | [] => rfl
  | [_] => rfl
  | _ :: _ :: _ => rfl

namespace Session

variable {σ : Type} {bucket destination : String} {count size : Nat} {bytes : Bytes}
  {holds : Nat → Shelf → σ → Prop} {shelf : Shelf} {s₀ s : Session σ}

/-- After the first `n` parts of a session that began in `s₀`. -/
structure Kept (bucket destination : String) (holds : Nat → Shelf → σ → Prop) (shelf : Shelf)
    (size : Nat) (bytes : Bytes) (s₀ : Session σ) (n : Nat) (written : Written) (s : Session σ) :
    Prop where
  names : s.names = Part.names destination n
  store : holds n (shelf.fill (slicesUpTo size bytes n)) s.store
  written : written = Written.of bucket destination (slicesUpTo size bytes n)
  limitHits : s.limitHits = s₀.limitHits + if n = composeLimit then 1 else 0

theorem Kept.congr {n : Nat} {written : Written} {t : Session σ}
    (h : Kept bucket destination holds shelf size bytes s₀ n written s)
    (ht : t = { s with contents := t.contents, buffer := t.buffer }) :
    Kept bucket destination holds shelf size bytes s₀ n written t := by
  rw [ht]
  exact ⟨h.names, h.store, h.written, h.limitHits⟩

/-- One more part was written. -/
theorem Kept.add {n : Nat} {written : Written} {object : StoredObject} {t : Session σ}
    (h : Kept bucket destination holds shelf size bytes s₀ n written s)
    (hobject : object = ⟨bucket, Part.name destination (n + 1), (slice size bytes n).length⟩)
    (hstore : holds (n + 1)
      ((shelf.fill (slicesUpTo size bytes n)).put n (some (slice size bytes n))) t.store)
    (hnames : t.names = s.names ++ [Part.name destination (n + 1)])
    (hhits : t.limitHits = s₀.limitHits + if n + 1 = composeLimit then 1 else 0) :
    Kept bucket destination holds shelf size bytes s₀ (n + 1) (written.add object) t := by
  have hfill : (shelf.fill (slicesUpTo size bytes n)).put (slicesUpTo size bytes n).length
      (some (slice size bytes n)) = _ := Shelf.fill_concat _
  have hadd : (Written.of bucket destination (slicesUpTo size bytes n)).add ⟨bucket,
      Part.name destination ((slicesUpTo size bytes n).length + 1), (slice size bytes n).length⟩ =
        _ := Written.of_concat _ _
  rw [length_slicesUpTo, ← slicesUpTo_succ] at hfill hadd
  refine ⟨?_, hfill ▸ hstore, ?_, hhits⟩
  · rw [hnames, h.names, Part.names_succ]
  · rw [h.written, hobject, hadd]

variable [ObjectStore σ]

theorem Kept.writePart {n : Nat} {written : Written}
    (hkeeper : Keeper σ bucket destination count holds) (hn : n < count)
    (hroom : n < composeLimit - 1)
    (h : Kept bucket destination holds shelf size bytes s₀ n written s) :
    Ends (writePart bucket destination (n + 1) (slice size bytes n)) s
      (fun object t =>
        Kept bucket destination holds shelf size bytes s₀ (n + 1) (written.add object) t)
      (fun _ _ => False) := by
  have hcreate := hkeeper.create (slice size bytes n) (by omega) hn h.store
  refine Ends.modify_bind (Ends.andThen (ends_onStore hcreate) (fun _ _ hbad => hbad.1) ?_)
  rintro object t ⟨⟨hobject, hstore⟩, ht⟩
  refine Ends.modify_bind (Ends.pure ?_)
  have hthis : n ≠ composeLimit := by omega
  have hnext : n + 1 ≠ composeLimit := by omega
  refine h.add hobject hstore (by rw [ht]) ?_
  have hhits := h.limitHits
  rw [if_neg hthis] at hhits
  rw [ht, if_neg hnext]
  exact hhits

theorem Kept.writeRest {written : Written} (hkeeper : Keeper σ bucket destination count holds)
    (hcount : composeLimit ≤ count)
    (h : Kept bucket destination holds shelf size bytes s₀ (composeLimit - 1) written s)
    (hsteady : s.contents.Steady)
    (hcontent : s.contents.content = slice size bytes (composeLimit - 1)) :
    Ends (writeRest bucket destination (composeLimit - 1 + 1)) s
      (fun object t =>
        Kept bucket destination holds shelf size bytes s₀ composeLimit (written.add object) t)
      (fun _ _ => False) := by
  have hlast : composeLimit - 1 < count := Nat.lt_of_lt_of_le (by decide) hcount
  have hstream := hkeeper.stream hsteady (Nat.sub_le composeLimit 1) hlast h.store
  rw [hcontent] at hstream
  refine Ends.modify_bind (Ends.modify_bind (Ends.get_bind
    (Ends.andThen (ends_onStore hstream) (fun _ _ hbad => hbad.1) ?_)))
  rintro object t ⟨⟨hobject, hstore⟩, ht⟩
  refine Ends.modify_bind (Ends.pure ?_)
  have hbefore : composeLimit - 1 ≠ composeLimit := by decide
  have hafter : composeLimit - 1 + 1 = composeLimit := by decide
  have hcounted : t.limitHits = s.limitHits + 1 := by rw [ht]
  have hhits := h.limitHits
  rw [if_neg hbefore] at hhits
  refine h.add hobject hstore (by rw [ht]) ?_
  rw [hcounted, hhits, if_pos hafter]

theorem Kept.sliced (hkeeper : Keeper σ bucket destination count holds)
    (hcount : partCount size bytes.length ≤ count) :
    Sliced bucket destination size bytes (Kept bucket destination holds shelf size bytes s₀)
      (fun _ _ => False) where
  congr h ht := h.congr ht
  part hroom hn h := h.writePart hkeeper (Nat.lt_of_lt_of_le hn hcount) hroom
  rest hlong h hsteady hcontent :=
    h.writeRest hkeeper (partCount_of_long hlong ▸ hcount) hsteady hcontent

/-! ## Whole uploads -/

/-- What a session has made of the parts: the first one is the object, and those that were not
written are as before. -/
structure Put (bucket destination : String) (holds : Nat → Shelf → σ → Prop) (shelf : Shelf)
    (size : Nat) (bytes : Bytes) (s₀ : Session σ) (object : StoredObject) (s : Session σ) :
    Prop where
  object : object = ⟨bucket, destination, bytes.length⟩
  names : s.names = Part.names destination (partCount size bytes.length)
  store : ∃ writes shelf', holds writes shelf' s.store ∧ shelf' 0 = some bytes ∧
    ∀ i, partCount size bytes.length ≤ i → shelf' i = shelf i
  limitHits : s.limitHits = s₀.limitHits + limitCount size bytes.length

/-- The end of a session that has written all parts. -/
theorem Kept.join {written : Written} (hkeeper : Keeper σ bucket destination count holds)
    (hcount : partCount size bytes.length ≤ count) (hsize : 0 < size)
    (h : Kept bucket destination holds shelf size bytes s₀ (partCount size bytes.length)
      written s) :
    Ends
      (match written with
      | .single object => pure object
      | _ => do
        countCompose
        onStore (ObjectStore.compose bucket (← get).names destination)) s
      (fun object t => Put bucket destination holds shelf size bytes s₀ object t)
      (fun _ _ => False) := by
  have hflat := flatten_slices hsize bytes
  have hlength : (slices size bytes).length = partCount size bytes.length := length_slicesUpTo _
  have hsome : 0 < partCount size bytes.length := partCount_pos
  obtain ⟨hnames, hstore, hwritten, hhits⟩ := h
  rw [← slices] at hstore hwritten
  rw [← limitCount_eq hsize] at hhits
  have hothers : ∀ i, partCount size bytes.length ≤ i →
      shelf.fill (slices size bytes) i = shelf i :=
    fun i hi => Shelf.fill_of_le (hlength ▸ hi)
  generalize slices size bytes = contents at *
  cases contents with
  | nil =>
    rw [← hlength] at hsome
    exact absurd hsome (Nat.lt_irrefl 0)
  | cons content others =>
    cases others with
    | nil =>
      obtain rfl : content = bytes := by simpa using hflat
      rw [hwritten]
      exact Ends.pure ⟨rfl, hnames, ⟨_, _, hstore, rfl, hothers⟩, hhits⟩
    | cons next others =>
      have hcompose := hkeeper.compose (Nat.le_trans hcount hkeeper.limit) (List.cons_ne_nil _ _)
        (hlength ▸ hcount) (fun i hi => Shelf.fill_of_lt hi) hstore
      rw [hlength, ← hnames, hflat] at hcompose
      rw [hwritten]
      refine Ends.modify_bind (Ends.get_bind (Ends.mono (ends_onStore hcompose) ?_
        fun _ _ hbad => hbad.1))
      rintro object t ⟨⟨hobject, hjoined⟩, ht⟩
      refine ⟨hobject, by rw [ht]; exact hnames, ⟨_, _, hjoined, if_pos rfl, fun i hi => ?_⟩,
        by rw [ht]; exact hhits⟩
      rw [Shelf.put, if_neg (by omega)]
      exact hothers i hi

theorem run_kept (hkeeper : Keeper σ bucket destination count holds)
    (hcount : partCount size bytes.length ≤ count) (hsize : 0 < size)
    (hreader : AtSlice size bytes 0 s) (hnames : s.names = []) (hstore : holds 0 shelf s.store) :
    Ends (run bucket destination) s
      (fun object t => Put bucket destination holds shelf size bytes s object t)
      (fun _ _ => False) := by
  have hstart : Kept bucket destination holds shelf size bytes s 0 .nothing s :=
    ⟨hnames, hstore, rfl, rfl⟩
  exact Ends.bind ((Kept.sliced hkeeper hcount).writeParts hsize hreader hstart (Nat.zero_add _))
    fun _ _ hall => hall.join hkeeper hcount hsize

/-- Where the second part is refused, the session stops there. -/
theorem run_refused {error : StorageError} (hkeeper : Keeper σ bucket destination 1 holds)
    (hrefused : ∀ {writes shelf s} data, holds writes shelf s →
      ObjectStore.create bucket (Part.name destination 2) data true s = .error (.failed error) s)
    (hlong : size < bytes.length) (hsize : 0 < size) (hreader : AtSlice size bytes 0 s)
    (hnames : s.names = []) (hstore : holds 0 shelf s.store) :
    Ends (run bucket destination) s (fun _ _ => False)
      (fun halt t => halt = .failed error ∧ t.names = Part.names destination 2 ∧
        holds 1 (shelf.put 0 (some (bytes.take size))) t.store) := by
  have hmany : 1 < partCount size bytes.length :=
    lt_partCount hsize (by decide) (by
      rw [Nat.one_mul]
      exact Nat.lt_of_lt_of_le hlong (Nat.le_max_right 1 _))
  have hstart : Kept bucket destination holds shelf size bytes s 0 .nothing s :=
    ⟨hnames, hstore, rfl, rfl⟩
  -- no more than one part can be written, so the second one is where it stops
  have hsliced : Sliced bucket destination size bytes
      (fun n written t => n ≤ 1 ∧ Kept bucket destination holds shelf size bytes s n written t)
      (fun halt t => halt = .failed error ∧ t.names = Part.names destination 2 ∧
        holds 1 (shelf.put 0 (some (bytes.take size))) t.store) := by
    refine ⟨fun h ht => ⟨h.1, h.2.congr ht⟩, ?_, ?_⟩
    · rintro n written t hroom - ⟨hn, h⟩
      rcases Nat.le_one_iff_eq_zero_or_eq_one.1 hn with rfl | rfl
      · refine Ends.mono (h.writePart hkeeper Nat.one_pos hroom)
          (fun _ _ hnext => ⟨Nat.le_refl 1, hnext⟩) nofun
      · have hfirst : shelf.fill (slicesUpTo size bytes 1) =
            shelf.put 0 (some (bytes.take size)) := by
          have hone : slicesUpTo size bytes 1 = [bytes.take size] := by
            rw [slicesUpTo, List.range_one, List.map_singleton, slice, if_pos (by decide),
              Nat.zero_mul, List.drop_zero]
          rw [hone]
          exact (show (shelf.fill []).put 0 _ = _ from Shelf.fill_concat (bytes.take size)).symm
        have hstore := h.store
        rw [hfirst] at hstore
        have hstop : onStore (ObjectStore.create bucket (Part.name destination 2)
            (slice size bytes 1) true) { t with names := t.names ++ [Part.name destination 2] } =
              .error (.failed error) { t with names := t.names ++ [Part.name destination 2] } := by
          unfold onStore
          rw [hrefused _ hstore]
        refine Ends.modify_bind ?_
        rw [Ends, Call.bind_of_error hstop]
        exact ⟨rfl, by rw [h.names, ← Part.names_succ], hstore⟩
    · rintro written t - ⟨hn, -⟩
      exact absurd hn (by decide)
  refine Ends.bind (hsliced.writeParts hsize hreader ⟨Nat.zero_le 1, hstart⟩ (Nat.zero_add _))
    fun _ _ hall => absurd hall.1 (Nat.not_le.2 hmany)

end Session

/-! ## The sweep -/

namespace Keeper

variable {σ : Type} [ObjectStore σ] {bucket destination : String} {count : Nat}
  {holds : Nat → Shelf → σ → Prop} {shelf : Shelf}

theorem sweepNames (h : Keeper σ bucket destination count holds) {writes : Nat} :
    ∀ {indices : List Nat} {shelf : Shelf} {m : Metered σ}, (∀ index ∈ indices, index < count) →
      holds writes shelf m.store →
      holds writes (shelf.clear indices) (Cleanup.sweepNames bucket
        (indices.map fun index => Part.name destination (index + 1)) m).store := by
  intro indices
  induction indices with
  | nil => exact fun _ hstore => hstore
  | cons index indices ih =>
    intro shelf m hindices hstore
    rw [List.forall_mem_cons] at hindices
    obtain ⟨store, metrics⟩ := m
    obtain ⟨⟨⟩, store', hdelete, hstore'⟩ := (h.delete hindices.1 hstore).exists_ok
    rw [List.map_cons, Cleanup.sweepNames, hdelete, ← Shelf.clear_cons]
    exact ih hindices.2 hstore'

/-- A sweep clears the places of all parts but the first. -/
theorem sweep (h : Keeper σ bucket destination count holds) {writes parts : Nat} {m : Metered σ}
    (hparts : parts ≤ count) (hstore : holds writes shelf m.store) :
    holds writes (shelf.clear ((List.range parts).filter (1 ≤ ·)))
      (Cleanup.Batch.sweep ⟨bucket, destination, Part.names destination parts⟩ m).store := by
  have hlimit := h.limit
  have hnames : Cleanup.Batch.deletable ⟨bucket, destination, Part.names destination parts⟩ =
      ((List.range parts).filter (1 ≤ ·)).map fun index => Part.name destination (index + 1) := by
    have hmax : composeLimit ≤ Part.maxNumber := by decide
    rw [Cleanup.Batch.deletable, Part.names, List.filter_map]
    refine congrArg _ (List.filter_congr fun index hindex => ?_)
    have hlt := List.mem_range.1 hindex
    rw [Function.comp_apply, Part.isLater_name (Nat.succ_pos index) (by omega)]
    exact decide_eq_decide.2 (Nat.succ_le_succ_iff)
  rw [Cleanup.Batch.sweep, hnames]
  refine h.sweepNames (fun index hindex => ?_) hstore
  exact Nat.lt_of_lt_of_le (List.mem_range.1 (List.mem_filter.1 hindex).1) hparts

/-! ## Uploads with their sweep -/

/-- **Whole uploads**: an upload of a steady stream and the sweep of its parts leave the stream in
the first place, clear those of the later parts, and leave all others as they were. -/
theorem upload (h : Keeper σ bucket destination count holds) (u : Uploader)
    {script : Reader.Script} {m : Metered σ} (hsize : 0 < u.chunkSize) (hsteady : script.Steady)
    (hcount : partCount u.chunkSize script.content.length ≤ count)
    (hqueue : u.queue.waiting = []) (hstore : holds 0 shelf m.store) :
    ∃ (u' : Uploader) (m' : Metered σ) (writes : Nat) (swept : Shelf),
      u.upload ⟨bucket, destination, script⟩ m =
        (.stored ⟨bucket, destination, script.content.length⟩, u', m') ∧
      u'.chunkSize = u.chunkSize ∧
      u'.limitHits = u.limitHits + limitCount u.chunkSize script.content.length ∧
      holds writes swept (u'.flush m').2.store ∧ swept 0 = some script.content ∧
      (∀ i, 1 ≤ i → i < partCount u.chunkSize script.content.length → swept i = none) ∧
      ∀ i, partCount u.chunkSize script.content.length ≤ i → swept i = shelf i := by
  have hreader := Session.atSlice_session u ⟨bucket, destination, script⟩ m hsteady
  obtain ⟨object, t, hrun, hput⟩ :=
    (Session.run_kept h hcount hsize hreader rfl hstore).exists_ok
  obtain ⟨writes, shelf', hput', hfirst, hothers⟩ := hput.store
  obtain ⟨m', hm'⟩ : ∃ m' : Metered σ, m' =
      ⟨t.store, { t.metrics with uploadDurations := t.metrics.uploadDurations + 1 }⟩ := ⟨_, rfl⟩
  refine ⟨u.close ⟨bucket, destination, script⟩ t, m', writes,
    shelf'.clear ((List.range (partCount u.chunkSize script.content.length)).filter (1 ≤ ·)), ?_,
    rfl, hput.limitHits, ?_, ?_, fun i hpos hlt => ?_, fun i hle => ?_⟩
  · rw [Uploader.upload, hrun, hput.object, hm']
  · have hwaiting : (u.close ⟨bucket, destination, script⟩ t).queue.waiting =
        [⟨bucket, destination, t.names⟩] := by
      show u.queue.waiting ++ _ = _
      rw [hqueue]
      rfl
    unfold Uploader.flush Cleanup.Queue.flush
    rw [hwaiting, hput.names]
    exact h.sweep hcount (hm' ▸ hput')
  · rw [Shelf.clear, if_neg (by simp), hfirst]
  · rw [Shelf.clear, if_pos (by simp [hpos, hlt])]
  · rw [Shelf.clear, if_neg (by simp; omega), hothers i hle]

/-- Where the second part is refused, an upload that needs it fails and leaves the first one. -/
theorem upload_refused {error : StorageError} (h : Keeper σ bucket destination 1 holds)
    (hcreate : ∀ {writes shelf s} data, holds writes shelf s →
      ObjectStore.create bucket (Part.name destination 2) data true s = .error (.failed error) s)
    (hdelete : ∀ {writes shelf s}, holds writes shelf s →
      ObjectStore.delete bucket (Part.name destination 2) s = .error (.failed error) s)
    (u : Uploader) {script : Reader.Script} {m : Metered σ} (hsize : 0 < u.chunkSize)
    (hsteady : script.Steady) (hlong : u.chunkSize < script.content.length)
    (hqueue : u.queue.waiting = []) (hstore : holds 0 shelf m.store) :
    ∃ (u' : Uploader) (m' : Metered σ),
      u.upload ⟨bucket, destination, script⟩ m = (.failed ⟨destination, error⟩, u', m') ∧
      holds 1 (shelf.put 0 (some (script.content.take u.chunkSize))) (u'.flush m').2.store := by
  have hreader := Session.atSlice_session u ⟨bucket, destination, script⟩ m hsteady
  have hends := Session.run_refused h hcreate hlong hsize hreader rfl hstore
  unfold Ends at hends
  rcases hrun : Session.run bucket destination (u.session ⟨bucket, destination, script⟩ m) with
    ⟨object, t⟩ | ⟨halt, t⟩ <;> rw [hrun] at hends
  · exact hends.elim
  · obtain ⟨rfl, hnames, hfirst⟩ := hends
    refine ⟨u.close ⟨bucket, destination, script⟩ t, _, by rw [Uploader.upload, hrun], ?_⟩
    have hwaiting : (u.close ⟨bucket, destination, script⟩ t).queue.waiting =
        [⟨bucket, destination, Part.names destination 2⟩] := by
      show u.queue.waiting ++ _ = _
      rw [hqueue, hnames]
      rfl
    have hdeletable : Cleanup.Batch.deletable ⟨bucket, destination, Part.names destination 2⟩ =
        [Part.name destination 2] := by
      have hone : Part.isLater destination (Part.name destination 1) = false :=
        Part.isLater_name (Nat.le_refl 1) (by decide)
      have htwo : Part.isLater destination (Part.name destination 2) = true :=
        Part.isLater_name (by decide) (by decide)
      simp [Cleanup.Batch.deletable, Part.names, List.range_succ, hone, htwo]
    unfold Uploader.flush Cleanup.Queue.flush
    rw [hwaiting, List.foldl_cons, List.foldl_nil, Cleanup.Batch.sweep, hdeletable,
      Cleanup.sweepNames, hdelete hfirst]
    exact hfirst

end Keeper

end ChunkedUpload
