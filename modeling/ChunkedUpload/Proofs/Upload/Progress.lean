import Mathlib.Data.List.Basic
import ChunkedUpload.Proofs.Storage.MemoryCalls
import ChunkedUpload.Proofs.Upload.Steps

/-!
# The parts of an upload in progress

An upload to the store in memory, under observation, is between two parts in a state of `Progress`:
the names it has noted, the calls it has made and the objects it has written all follow from the
contents of the parts so far, `pieces`. Writing one more part leads to `Progress` with one more
piece if the store answers (`Progress.writePart`, `Progress.writeRest`), and to the weaker
`Aftermath` if it does not. An upload that has come to a stop is in `Aftermath`
(`Progress.aftermath`).
-/

namespace ChunkedUpload

namespace Session

open Call (Ends)

/-! ## Between two parts -/

/-- The call that writes the part after the first `index`. -/
def partCall (bucket destination : String) (index : Nat) (content : Bytes) : StoreCall :=
  if index < composeLimit - 1 then
    .create bucket (Part.name destination (index + 1)) content true
  else .createFromReader bucket (Part.name destination (index + 1)) content

theorem partContent?_partCall (bucket destination : String) (index : Nat) (content : Bytes) :
    (partCall bucket destination index content).partContent? = some content := by
  unfold partCall
  split <;> rfl

variable (m : Memory) (bucket destination : String)

/-- The address of the part after the first `index`. -/
abbrev address (index : Nat) : Address := (bucket, Part.name destination (index + 1))

/-- The object at the destination is the one that was there before, or just the first part, or all
parts, each of which has been written. -/
def AtDestination (w : Watched Memory) (now : Memory) : Prop :=
  now.objects.get? (bucket, destination) = m.objects.get? (bucket, destination) ∨
    (∃ first, w.attempted.head? = some first ∧
      now.objects.get? (bucket, destination) = some first) ∨
    w.written = w.attempted ∧ now.objects.get? (bucket, destination) = some w.attempted.flatten

/-- Where an upload that began on `m` is between two parts, after the parts with the contents
`pieces`. -/
structure Progress (pieces : List Bytes) (s : Session (Watched Memory)) : Prop where
  count : pieces.length ≤ composeLimit
  names : s.names = Part.names destination pieces.length
  calls : s.store.calls = pieces.mapIdx (partCall bucket destination)
  answered : ∀ x ∈ s.store.seen, x.ending.isOk = true
  own : ∀ (i : Nat) (hi : i < pieces.length),
    s.store.store.objects.get? (address bucket destination i) = some pieces[i]
  others : ∀ a, (∀ i < pieces.length, a ≠ address bucket destination i) →
    s.store.store.objects.get? a = m.objects.get? a
  faults : s.store.store.faults = m.faults
  extra : s.store.store.extra = m.extra
  seen : ∀ x ∈ s.store.seen, ∃ first, pieces.head? = some first ∧
    x.after.objects.get? (bucket, destination) = some first

/-- Where an upload that began on `m` is when it has stopped, for whatever reason, after it set out
to write parts with the contents `pieces`. -/
structure Aftermath (pieces : List Bytes) (s : Session (Watched Memory)) : Prop where
  count : pieces.length ≤ composeLimit
  names : s.names = Part.names destination pieces.length
  attempted : s.store.attempted = pieces
  others : ∀ a, (∀ i < pieces.length, a ≠ address bucket destination i) →
    s.store.store.objects.get? a = m.objects.get? a
  faults : s.store.store.faults = m.faults
  seen : ∀ x ∈ s.store.seen, AtDestination m bucket destination s.store x.after

variable {m bucket destination} {pieces : List Bytes} {s t : Session (Watched Memory)}

/-- Reading the stream and counting change nothing here. -/
theorem Progress.congr (h : Progress m bucket destination pieces s) (hnames : t.names = s.names)
    (hstore : t.store = s.store) : Progress m bucket destination pieces t := by
  obtain ⟨count, names, calls, answered, own, others, faults, extra, seen⟩ := h
  rw [← hnames] at names
  rw [← hstore] at calls answered own others faults extra seen
  exact ⟨count, names, calls, answered, own, others, faults, extra, seen⟩

theorem filterMap_partContent? (pieces : List Bytes) :
    (pieces.mapIdx (partCall bucket destination)).filterMap StoreCall.partContent? = pieces := by
  have hcontent : (fun x : Bytes × Nat => (partCall bucket destination x.2 x.1).partContent?) =
      fun x => some x.1 := funext fun x => partContent?_partCall bucket destination x.2 x.1
  rw [List.mapIdx_eq_zipIdx_map, List.filterMap_map]
  show List.filterMap (fun x : Bytes × Nat =>
    (partCall bucket destination x.2 x.1).partContent?) _ = _
  rw [hcontent, List.filterMap_eq_map', List.zipIdx_map_fst]

theorem Progress.attempted (h : Progress m bucket destination pieces s) :
    s.store.attempted = pieces := by
  rw [Watched.attempted, h.calls, filterMap_partContent?]

/-- Between two parts, all parts that were begun have been written. -/
theorem Progress.written (h : Progress m bucket destination pieces s) :
    s.store.written = pieces := by
  rw [← h.attempted, Watched.attempted, Watched.calls, List.filterMap_map]
  exact List.filterMap_congr fun x hx => if_pos (h.answered x hx)

/-- Parts before the limit are told apart by their names. -/
theorem address_inj {i j : Nat} (hi : i < composeLimit) (hj : j < composeLimit) :
    address bucket destination i = address bucket destination j ↔ i = j := by
  have hmax : composeLimit < Part.maxNumber := by decide
  have hi' : i + 1 ≤ Part.maxNumber := Nat.le_trans hi (Nat.le_of_lt hmax)
  have hj' : j + 1 ≤ Part.maxNumber := Nat.le_trans hj (Nat.le_of_lt hmax)
  rw [Prod.mk.injEq, Part.name_inj (Nat.succ_pos i) (Nat.succ_pos j) hi' hj', and_iff_right rfl,
    Nat.succ_inj]

/-- An upload that stops between two parts is in the aftermath of those before. -/
theorem Progress.aftermath (h : Progress m bucket destination pieces s) :
    Aftermath m bucket destination pieces s where
  count := h.count
  names := h.names
  attempted := h.attempted
  others := h.others
  faults := h.faults
  seen := fun x hx => .inr (.inl (h.attempted.symm ▸ h.seen x hx))

/-! ## One more part -/

/-- What one more write leaves of a session, whatever became of the object. -/
structure Attempted (bucket destination : String) (pieces : List Bytes) (data : Bytes)
    (ending : Except Halt (Option StoredObject)) (s t : Session (Watched Memory)) : Prop where
  room : pieces.length < composeLimit
  names : t.names = s.names ++ [Part.name destination (pieces.length + 1)]
  seen : t.store.seen = s.store.seen ++
    [⟨partCall bucket destination pieces.length data, ending, t.store.store⟩]

variable {data : Bytes} {ending : Except Halt (Option StoredObject)}

theorem Progress.count_snoc (ht : Attempted bucket destination pieces data ending s t) :
    (pieces ++ [data]).length ≤ composeLimit := by
  have hroom := ht.room
  rw [List.length_append, List.length_singleton]
  omega

theorem Progress.calls_snoc (h : Progress m bucket destination pieces s)
    (ht : Attempted bucket destination pieces data ending s t) :
    t.store.calls = (pieces ++ [data]).mapIdx (partCall bucket destination) := by
  have hcalls : s.store.seen.map (·.call) = _ := h.calls
  rw [Watched.calls, ht.seen, List.map_append, hcalls, List.mapIdx_concat]
  rfl

theorem Progress.names_snoc (h : Progress m bucket destination pieces s)
    (ht : Attempted bucket destination pieces data ending s t) :
    t.names = Part.names destination (pieces ++ [data]).length := by
  rw [ht.names, h.names, List.length_append, List.length_singleton, Part.names_succ]

/-- The first part stays at the destination while later ones are written. -/
theorem Progress.first (h : Progress m bucket destination pieces s)
    (ht : Attempted bucket destination pieces data ending s t)
    (hstored : Memory.Stored (address bucket destination pieces.length) data s.store.store
      t.store.store) :
    ∃ first, (pieces ++ [data]).head? = some first ∧
      t.store.store.objects.get? (bucket, destination) = some first := by
  have hget := hstored.get? (bucket, destination)
  match pieces, h, hget, ht.room with
  | [], _, hget, _ => exact ⟨data, rfl, by rw [hget]; exact if_pos rfl⟩
  | first :: later, h, hget, hroom =>
    refine ⟨first, rfl, ?_⟩
    have hne : (bucket, destination) ≠ address bucket destination (first :: later).length := by
      intro heq
      have := (address_inj (i := 0) (show 0 < composeLimit by decide) hroom).1 heq
      simp at this
    rw [hget, if_neg hne]
    exact h.own 0 (Nat.zero_lt_succ _)

/-- What was seen before one more write still begins with the same part. -/
theorem Progress.seen_snoc (h : Progress m bucket destination pieces s) {x : Sighting Memory}
    (hx : x ∈ s.store.seen) : ∃ first, (pieces ++ [data]).head? = some first ∧
      x.after.objects.get? (bucket, destination) = some first := by
  obtain ⟨first, hfirst, hget⟩ := h.seen x hx
  exact ⟨first, by rw [List.head?_append, hfirst, Option.some_or], hget⟩

theorem Progress.snoc {object : Option StoredObject}
    (h : Progress m bucket destination pieces s)
    (ht : Attempted bucket destination pieces data (.ok object) s t)
    (hstored : Memory.Stored (address bucket destination pieces.length) data s.store.store
      t.store.store) : Progress m bucket destination (pieces ++ [data]) t where
  count := Progress.count_snoc ht
  names := h.names_snoc ht
  calls := h.calls_snoc ht
  answered := by
    intro x hx
    rw [ht.seen, List.mem_append, List.mem_singleton] at hx
    rcases hx with hx | rfl
    · exact h.answered x hx
    · rfl
  own := by
    intro i hi
    have hroom := ht.room
    rw [List.length_append, List.length_singleton] at hi
    rw [hstored.get?]
    by_cases hlast : i = pieces.length
    · subst hlast
      rw [if_pos rfl, List.getElem_concat_length rfl]
    · have hlt : i < pieces.length := by omega
      rw [if_neg fun heq => hlast ((address_inj (by omega) hroom).1 heq),
        List.getElem_append_left hlt]
      exact h.own i hlt
  others := by
    intro a ha
    rw [List.length_append, List.length_singleton] at ha
    rw [hstored.get?, if_neg (ha _ (Nat.lt_succ_self _))]
    exact h.others a fun i hi => ha i (Nat.lt_succ_of_lt hi)
  faults := hstored.faults.trans h.faults
  extra := hstored.extra.trans h.extra
  seen := by
    intro x hx
    rw [ht.seen, List.mem_append, List.mem_singleton] at hx
    rcases hx with hx | rfl
    · exact h.seen_snoc hx
    · exact h.first ht hstored

/-- A write that has not been answered leaves an aftermath, whether or not it took effect. -/
theorem Progress.snoc_aftermath (h : Progress m bucket destination pieces s)
    (ht : Attempted bucket destination pieces data ending s t)
    (hwrote : Memory.Kept s.store.store t.store.store ∨
      Memory.Stored (address bucket destination pieces.length) data s.store.store
        t.store.store) : Aftermath m bucket destination (pieces ++ [data]) t := by
  have hattempted : t.store.attempted = pieces ++ [data] := by
    rw [Watched.attempted, h.calls_snoc ht, filterMap_partContent?]
  refine ⟨Progress.count_snoc ht, h.names_snoc ht, hattempted, fun a ha => ?_, ?_, fun x hx => ?_⟩
  · rw [List.length_append, List.length_singleton] at ha
    have hbefore := h.others a fun i hi => ha i (Nat.lt_succ_of_lt hi)
    rcases hwrote with hkept | hstored
    · rw [hkept.objects, hbefore]
    · rw [hstored.get?, if_neg (ha _ (Nat.lt_succ_self _)), hbefore]
  · rcases hwrote with hkept | hstored
    · exact hkept.faults.trans h.faults
    · exact hstored.faults.trans h.faults
  · unfold AtDestination
    rw [hattempted]
    rw [ht.seen, List.mem_append, List.mem_singleton] at hx
    rcases hx with hx | rfl
    · exact .inr (.inl (h.seen_snoc hx))
    · rcases hwrote with hkept | hstored
      · -- nothing changed, so the destination holds what it held before, or the first part
        show t.store.store.objects.get? _ = _ ∨ _
        rw [hkept.objects]
        match pieces, h with
        | [], h => exact .inl (h.others _ nofun)
        | first :: later, h => exact .inr (.inl ⟨first, rfl, h.own 0 (Nat.zero_lt_succ _)⟩)
      · exact .inr (.inl (h.first ht hstored))

theorem Progress.writePart (h : Progress m bucket destination pieces s)
    (hroom : pieces.length < composeLimit - 1) (data : Bytes) :
    Ends (writePart bucket destination (pieces.length + 1) data) s
      (fun object t => Progress m bucket destination (pieces ++ [data]) t ∧
        object = ⟨bucket, Part.name destination (pieces.length + 1), data.length + m.extra⟩ ∧
        t.contents = s.contents ∧ t.buffer = s.buffer ∧ t.limitHits = s.limitHits ∧
        t.metrics.composeLimitHits = s.metrics.composeLimitHits)
      (fun _ t => m.faults ≠ [] ∧ Aftermath m bucket destination (pieces ++ [data]) t) := by
  have hcall : partCall bucket destination pieces.length data =
      .create bucket (Part.name destination (pieces.length + 1)) data true := if_pos hroom
  have hstore := Memory.ends_create bucket (Part.name destination (pieces.length + 1)) data true
    s.store.store
  refine Ends.modify_bind (Ends.bind (Ends.mono (ends_onStore (ends_note hstore))
    (fun _ _ hdone => hdone) ?_) ?_)
  · rintro halt t ⟨⟨⟨hfaults, hwrote⟩, hseen⟩, ht⟩
    have hattempt : Attempted bucket destination pieces data (.error halt) s t :=
      ⟨Nat.lt_of_lt_pred hroom, by rw [ht], by rw [hcall]; exact hseen⟩
    exact ⟨h.faults ▸ hfaults, h.snoc_aftermath hattempt hwrote⟩
  · rintro object t ⟨⟨⟨hobject, hstored⟩, hseen⟩, ht⟩
    have hattempt : Attempted bucket destination pieces data (.ok (some object)) s t :=
      ⟨Nat.lt_of_lt_pred hroom, by rw [ht], by rw [hcall]; exact hseen⟩
    have hpart := h.snoc hattempt hstored
    refine Ends.modify_bind (Ends.pure ⟨hpart.congr rfl rfl, ?_⟩)
    rw [ht, hobject, h.extra]
    exact ⟨rfl, rfl, rfl, rfl, rfl⟩

theorem Progress.writeRest (h : Progress m bucket destination pieces s)
    (hlast : pieces.length = composeLimit - 1) :
    Ends (writeRest bucket destination (pieces.length + 1)) s
      (fun object t =>
        Progress m bucket destination (pieces ++ [s.contents.drain.taken]) t ∧
        object = ⟨bucket, Part.name destination (pieces.length + 1),
          s.contents.drain.taken.length + m.extra⟩ ∧
        t.limitHits = s.limitHits + 1 ∧
        t.metrics.composeLimitHits = s.metrics.composeLimitHits + 1)
      (fun _ t => (s.contents.drain.stop = .done → m.faults ≠ []) ∧
        Aftermath m bucket destination (pieces ++ [s.contents.drain.taken]) t) := by
  have hroom : pieces.length < composeLimit := by rw [hlast]; decide
  have hcall : partCall bucket destination pieces.length s.contents.drain.taken =
      .createFromReader bucket (Part.name destination (pieces.length + 1))
        s.contents.drain.taken := if_neg (by rw [hlast]; exact Nat.lt_irrefl _)
  have hstore := Memory.ends_createFromReader bucket (Part.name destination (pieces.length + 1))
    s.contents s.store.store
  refine Ends.modify_bind (Ends.modify_bind (Ends.get_bind (Ends.bind (Ends.mono
    (ends_onStore (ends_note hstore)) (fun _ _ hdone => hdone) ?_) ?_)))
  · rintro halt t ⟨⟨⟨hfaults, hwrote⟩, hseen⟩, ht⟩
    have hattempt : Attempted bucket destination pieces s.contents.drain.taken (.error halt) s t :=
      ⟨hroom, by rw [ht], by rw [hcall]; exact hseen⟩
    exact ⟨fun hdone => h.faults ▸ hfaults hdone, h.snoc_aftermath hattempt hwrote⟩
  · rintro object t ⟨⟨⟨hobject, hstored⟩, hseen⟩, ht⟩
    have hattempt : Attempted bucket destination pieces s.contents.drain.taken
        (.ok (some object)) s t := ⟨hroom, by rw [ht], by rw [hcall]; exact hseen⟩
    have hpart := h.snoc hattempt hstored
    refine Ends.modify_bind (Ends.pure ⟨hpart.congr rfl rfl, ?_⟩)
    rw [ht, hobject, h.extra]
    exact ⟨rfl, rfl, rfl⟩

/-! ## Joining the parts -/

/-- What has been noted of the parts is right after parts with the contents `pieces`. -/
def Written.Fits (m : Memory) (bucket destination : String) (pieces : List Bytes) : Written → Prop
  | nothing => pieces = []
  | single object => ∃ piece, pieces = [piece] ∧
      object = ⟨bucket, destination, piece.length + m.extra⟩
  | several => 2 ≤ pieces.length

theorem Written.Fits.add {written : Written} (h : written.Fits m bucket destination pieces)
    (data : Bytes) :
    (written.add ⟨bucket, Part.name destination (pieces.length + 1),
      data.length + m.extra⟩).Fits m bucket destination (pieces ++ [data]) := by
  cases written with
  | nothing =>
    obtain rfl : pieces = [] := h
    exact ⟨data, rfl, rfl⟩
  | single object =>
    obtain ⟨piece, rfl, -⟩ := h
    exact Nat.le_refl 2
  | several =>
    show 2 ≤ (pieces ++ [data]).length
    rw [List.length_append]
    exact Nat.le_add_right_of_le h

/-- The sources of the compose hold just the pieces. -/
theorem Progress.gather (h : Progress m bucket destination pieces s) :
    s.store.store.objects.gather bucket s.names = .ok pieces.flatten := by
  rw [h.names]
  refine ObjectMap.gather_eq_ok (List.ext_getElem ?_ fun i _ hi => ?_)
  · rw [List.length_map, List.length_map, Part.length_names]
  · rw [List.getElem_map, List.getElem_map, Part.getElem_names]
    exact h.own i (by rwa [List.length_map] at hi)

/-- What a session is after the compose, if it has put the object in place. -/
structure Joined (m : Memory) (bucket destination : String) (pieces : List Bytes)
    (object : StoredObject) (t : Session (Watched Memory)) : Prop where
  aftermath : Aftermath m bucket destination pieces t
  calls : t.store.calls = pieces.mapIdx (partCall bucket destination) ++
    if 2 ≤ pieces.length then
      [.compose bucket (Part.names destination pieces.length) destination] else []
  written : t.store.written = pieces
  content : t.store.store.objects.get? (bucket, destination) = some pieces.flatten
  object : object = ⟨bucket, destination, pieces.flatten.length + m.extra⟩

/-- One part needs no compose. -/
theorem Progress.joined {piece : Bytes} (h : Progress m bucket destination [piece] s) :
    Joined m bucket destination [piece] ⟨bucket, destination, piece.length + m.extra⟩ s where
  aftermath := h.aftermath
  calls := h.calls
  written := h.written
  content := (h.own 0 Nat.one_pos).trans (by rw [List.flatten_singleton]; rfl)
  object := by rw [List.flatten_singleton]

theorem Progress.written_of_compose {call : StoreCall}
    (h : Progress m bucket destination pieces s) (hcall : call.partContent? = none)
    (hseen : t.store.seen = s.store.seen ++ [⟨call, ending, t.store.store⟩]) :
    t.store.written = pieces := by
  have hnone : Sighting.written? ⟨call, ending, t.store.store⟩ = none := by
    rw [Sighting.written?, hcall, ite_self]
  rw [Watched.written, hseen, List.filterMap_append, List.filterMap_cons_none hnone]
  exact (List.append_nil _).trans h.written

/-- A compose that is carried out, or struck, leaves all or the first part at the destination. -/
theorem Progress.aftermath_of_compose (h : Progress m bucket destination pieces s)
    (hsome : pieces ≠ []) (hnames : t.names = s.names)
    (hseen : t.store.seen = s.store.seen ++
      [⟨.compose bucket s.names destination, ending, t.store.store⟩])
    (hwrote : Memory.Kept s.store.store t.store.store ∨
      Memory.Stored (bucket, destination) pieces.flatten s.store.store t.store.store) :
    Aftermath m bucket destination pieces t := by
  have hattempted : t.store.attempted = pieces := by
    rw [Watched.attempted, Watched.calls, hseen, List.map_append, List.filterMap_append]
    exact (List.append_nil _).trans h.attempted
  have hwritten : t.store.written = pieces := h.written_of_compose rfl hseen
  refine ⟨h.count, hnames.trans h.names, hattempted, fun a ha => ?_, ?_, fun x hx => ?_⟩
  · rcases hwrote with hkept | hstored
    · rw [hkept.objects, h.others a ha]
    · have hne : a ≠ (bucket, destination) := ha 0 (List.length_pos_iff.2 hsome)
      rw [hstored.get?, if_neg hne, h.others a ha]
  · rcases hwrote with hkept | hstored
    · exact hkept.faults.trans h.faults
    · exact hstored.faults.trans h.faults
  · unfold AtDestination
    rw [hattempted, hwritten]
    rw [hseen, List.mem_append, List.mem_singleton] at hx
    rcases hx with hx | rfl
    · exact .inr (.inl (h.seen x hx))
    · rcases hwrote with hkept | hstored
      · refine .inr (.inl ⟨pieces.head hsome, List.head?_eq_some_head hsome, ?_⟩)
        rw [hkept.objects, List.head_eq_getElem]
        exact h.own 0 (List.length_pos_iff.2 hsome)
      · refine .inr (.inr ⟨rfl, ?_⟩)
        rw [hstored.get?, if_pos rfl]

theorem Progress.compose (h : Progress m bucket destination pieces s)
    (hmany : 2 ≤ pieces.length) :
    Ends (countCompose >>= fun _ => MonadState.get >>= fun now : Session (Watched Memory) =>
        onStore (ObjectStore.compose bucket now.names destination)) s
      (fun object t => Joined m bucket destination pieces object t ∧ t.limitHits = s.limitHits ∧
        t.metrics.composeLimitHits = s.metrics.composeLimitHits)
      (fun _ t => m.faults ≠ [] ∧ Aftermath m bucket destination pieces t) := by
  have hsome : pieces ≠ [] := by
    rintro rfl
    exact absurd hmany (by decide)
  have hstore := Memory.ends_compose bucket s.names destination s.store.store
  have hcount : checkSourceCount s.names.length = .ok () := by
    have hle := h.count
    rw [h.names, Part.length_names, checkSourceCount, if_neg (by omega)]
  refine Ends.modify_bind (Ends.get_bind (Ends.mono (ends_onStore (ends_note hstore)) ?_ ?_))
  · rintro object t ⟨⟨⟨content, hcontent, hobject, hstored⟩, hseen⟩, ht⟩
    obtain rfl : pieces.flatten = content := Except.ok.inj (h.gather.symm.trans hcontent)
    refine ⟨⟨h.aftermath_of_compose hsome (by rw [ht]) hseen (.inr hstored), ?_,
      h.written_of_compose rfl hseen, ?_, ?_⟩, ?_⟩
    · have hcalls : s.store.seen.map (·.call) = _ := h.calls
      rw [Watched.calls, hseen, List.map_append, hcalls, if_pos hmany, ← h.names]
      rfl
    · rw [hstored.get?, if_pos rfl]
    · rw [hobject, h.extra]
    · rw [ht]
      exact ⟨rfl, rfl⟩
  · rintro halt t ⟨⟨⟨hfaults, hwrote⟩, hseen⟩, ht⟩
    refine ⟨h.faults ▸ hfaults hcount ⟨_, h.gather⟩,
      h.aftermath_of_compose hsome (by rw [ht]) hseen (hwrote.imp id ?_)⟩
    rintro ⟨content, hcontent, hstored⟩
    rwa [Except.ok.inj (h.gather.symm.trans hcontent)]

/-- The end of an upload that has written at least one part: it composes the parts if there are two
or more. -/
theorem Progress.join {written : Written} (h : Progress m bucket destination pieces s)
    (hsome : pieces ≠ []) (hfits : written.Fits m bucket destination pieces) :
    Ends
      (match written with
      | .single object => pure object
      | _ => do
        countCompose
        onStore (ObjectStore.compose bucket (← get).names destination)) s
      (fun object t => Joined m bucket destination pieces object t ∧ t.limitHits = s.limitHits ∧
        t.metrics.composeLimitHits = s.metrics.composeLimitHits)
      (fun _ t => m.faults ≠ [] ∧ Aftermath m bucket destination pieces t) := by
  cases written with
  | nothing => exact absurd hfits hsome
  | single object =>
    obtain ⟨piece, rfl, rfl⟩ := hfits
    exact Ends.pure ⟨h.joined, rfl, rfl⟩
  | several => exact h.compose hfits

end Session

/-- An upload begins before its first part. -/
theorem Uploader.progress_session (u : Uploader) (request : UploadRequest) (m : Metered Memory) :
    Session.Progress m.store request.bucket request.destination []
      (u.session request (watch m)) where
  count := Nat.zero_le _
  names := rfl
  calls := rfl
  answered := List.forall_mem_nil _
  own i hi := absurd hi (Nat.not_lt_zero i)
  others _ _ := rfl
  faults := rfl
  extra := rfl
  seen := List.forall_mem_nil _

end ChunkedUpload
