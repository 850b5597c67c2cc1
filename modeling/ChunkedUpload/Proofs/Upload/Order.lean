import Mathlib.Data.List.Basic
import ChunkedUpload.Proofs.Part.Names
import ChunkedUpload.Proofs.Upload.Steps
import ChunkedUpload.Storage.ObjectMap

/-!
# Parts in order, then one compose

An upload tells its parts three times: by the names it notes, by what it remembers of them
(`Written`), and by the calls that an observer sees. `Ordered objects s` says that the three agree
on parts that the store has answered with `objects`. Every part that is written keeps this
(`Ordered.writePart`, `Ordered.writeRest`), so a compose can only join all parts, in order, after
each of them has been written (`upload_composes_all_parts`). Nothing is assumed of the store.
-/

namespace ChunkedUpload

/-! ## Calls that write parts -/

/-- Where a call writes a part of an upload. -/
def StoreCall.partAddress? : StoreCall → Option Address
  | .create bucket key _ _ => some (bucket, key)
  | .createFromReader bucket key _ => some (bucket, key)
  | .compose .. | .delete .. => none

def StoreCall.isCompose : StoreCall → Bool
  | .compose .. => true
  | _ => false

variable {σ : Type}

/-- The call has written a part at `address` and the store has answered `object`. -/
def Sighting.Wrote (address : Address) (object : StoredObject) (x : Sighting σ) : Prop :=
  x.call.partAddress? = some address ∧ x.ending = .ok (some object)

/-- A call that comes after the calls `before` is a compose of all the parts, two or more and not
too many, each of which has been written. -/
structure Sighting.JoinsAll (bucket destination : String) (before : List (Sighting σ))
    (x : Sighting σ) : Prop where
  call : x.call = .compose bucket (Part.names destination before.length) destination
  several : 2 ≤ before.length
  limit : before.length ≤ composeLimit
  written : ∀ source ∈ Part.names destination before.length,
    ∃ y ∈ before, ∃ object, y.Wrote (bucket, source) object
  accepted : checkSourceCount (Part.names destination before.length).length = .ok ()

namespace Session

open Call (Ends)

variable {bucket destination : String} {objects : List StoredObject} {object : StoredObject}
  {s t : Session (Watched σ)}

/-! ## Between two parts -/

/-- What an upload remembers of parts that were answered with `objects`. -/
def Written.ofParts : List StoredObject → Written
  | [] => .nothing
  | [object] => .single object
  | _ :: _ :: _ => .several

theorem Written.ofParts_concat :
    ∀ (objects : List StoredObject) (object : StoredObject),
      ofParts (objects ++ [object]) = (ofParts objects).add object
  | [], _ => rfl
  | [_], _ => rfl
  | _ :: _ :: _, _ => rfl

/-- The names and the calls so far are those of parts that the store has answered with
`objects`, first part first. -/
structure Ordered (bucket destination : String) (objects : List StoredObject)
    (s : Session (Watched σ)) : Prop where
  limit : objects.length ≤ composeLimit
  names : s.names = Part.names destination objects.length
  seen : s.store.seen.map (fun x => (x.call.partAddress?, x.ending)) =
    objects.mapIdx fun i object =>
      (some (bucket, Part.name destination (i + 1)), .ok (some object))

namespace Ordered

theorem congr (h : Ordered bucket destination objects s) (hnames : t.names = s.names)
    (hstore : t.store = s.store) : Ordered bucket destination objects t :=
  ⟨h.limit, hnames.trans h.names, hstore ▸ h.seen⟩

theorem length_seen (h : Ordered bucket destination objects s) :
    s.store.seen.length = objects.length := by
  simpa using congrArg List.length h.seen

theorem getElem_seen (h : Ordered bucket destination objects s) {i : Nat}
    (hi : i < s.store.seen.length) (hi' : i < objects.length) :
    s.store.seen[i].Wrote (bucket, Part.name destination (i + 1)) objects[i] := by
  have hget := congrArg (·[i]?) h.seen
  simp only [List.getElem?_map, List.getElem?_mapIdx, List.getElem?_eq_getElem hi,
    List.getElem?_eq_getElem hi', Option.map_some, Option.some.injEq, Prod.mk.injEq] at hget
  exact hget

/-- All calls so far wrote parts. -/
theorem isSome_partAddress? (h : Ordered bucket destination objects s) :
    ∀ x ∈ s.store.seen, x.call.partAddress?.isSome = true := by
  intro x hx
  obtain ⟨i, hi, rfl⟩ := List.getElem_of_mem hx
  rw [(h.getElem_seen hi (h.length_seen ▸ hi)).1]
  rfl

/-- One more part has been answered. -/
theorem concat {call : StoreCall} (h : Ordered bucket destination objects s)
    (hroom : objects.length < composeLimit)
    (hnames : t.names = s.names ++ [Part.name destination (objects.length + 1)])
    (hcall : call.partAddress? = some (bucket, Part.name destination (objects.length + 1)))
    (hseen : t.store.seen = s.store.seen ++ [⟨call, .ok (some object), t.store.store⟩]) :
    Ordered bucket destination (objects ++ [object]) t where
  limit := by
    rw [List.length_append, List.length_singleton]
    exact hroom
  names := by
    rw [List.length_append, List.length_singleton, Part.names_succ, hnames, h.names]
  seen := by
    rw [hseen, List.map_append, h.seen, List.mapIdx_concat, ← hcall]
    rfl

/-- The call for one more part, whose name has been noted, is answered, or the upload stops with
nothing but parts seen. -/
theorem note {call : StoreCall} {run : Call σ StoredObject}
    (h : Ordered bucket destination objects s) (hroom : objects.length < composeLimit)
    (hcall : call.partAddress? = some (bucket, Part.name destination (objects.length + 1)))
    (hnames : t.names = s.names ++ [Part.name destination (objects.length + 1)])
    (hstore : t.store = s.store) :
    Ends (onStore (Watched.note call some run)) t
      (fun object t' => Ordered bucket destination (objects ++ [object]) t')
      (fun _ t' => ∀ x ∈ t'.store.seen, x.call.partAddress?.isSome = true) := by
  refine Ends.mono (ends_onStore (ends_note (Ends.somehow run t.store.store))) ?_ ?_
  · rintro object t' ⟨⟨-, hseen⟩, ht⟩
    rw [hstore] at hseen
    exact h.concat hroom (by rw [ht]; exact hnames) hcall hseen
  · rintro halt t' ⟨⟨-, hseen⟩, -⟩ x hx
    rw [hseen, hstore, List.mem_append, List.mem_singleton] at hx
    rcases hx with hx | rfl
    · exact h.isSome_partAddress? x hx
    · simp [hcall]

variable [ObjectStore σ]

theorem writePart (h : Ordered bucket destination objects s)
    (hroom : objects.length < composeLimit) (data : Bytes) :
    Ends (writePart bucket destination (objects.length + 1) data) s
      (fun object t => Ordered bucket destination (objects ++ [object]) t)
      (fun _ t => ∀ x ∈ t.store.seen, x.call.partAddress?.isSome = true) := by
  refine Ends.modify_bind (Ends.bind (h.note hroom rfl rfl rfl) fun object t hnext => ?_)
  exact Ends.modify_bind (Ends.pure (hnext.congr rfl rfl))

theorem writeRest (h : Ordered bucket destination objects s)
    (hroom : objects.length < composeLimit) :
    Ends (writeRest bucket destination (objects.length + 1)) s
      (fun object t => Ordered bucket destination (objects ++ [object]) t)
      (fun _ t => ∀ x ∈ t.store.seen, x.call.partAddress?.isSome = true) := by
  refine Ends.modify_bind (Ends.modify_bind (Ends.get_bind
    (Ends.bind (h.note hroom rfl rfl rfl) fun object t hnext => ?_)))
  exact Ends.modify_bind (Ends.pure (hnext.congr rfl rfl))

/-- With each part, all that was answered is remembered, noted and seen. -/
theorem carried : Carried (σ := Watched σ) bucket destination
    (fun n written s => ∃ objects : List StoredObject, objects.length = n ∧
      written = .ofParts objects ∧ Ordered bucket destination objects s)
    (fun _ t => ∀ x ∈ t.store.seen, x.call.partAddress?.isSome = true) where
  congr h ht := by
    obtain ⟨objects, hlength, hwritten, h⟩ := h
    rw [ht]
    exact ⟨objects, hlength, hwritten, h.congr rfl rfl⟩
  stops _ _ h := by
    obtain ⟨objects, -, -, h⟩ := h
    exact h.isSome_partAddress?
  part data hroom h := by
    obtain ⟨objects, rfl, rfl, h⟩ := h
    refine Ends.mono (h.writePart (Nat.lt_of_succ_lt hroom) data) (fun object t hnext => ?_)
      fun _ _ hseen => hseen
    exact ⟨_, by simp, (Written.ofParts_concat objects object).symm, hnext⟩
  rest h := by
    obtain ⟨objects, hlength, rfl, h⟩ := h
    have hroom : objects.length < composeLimit := by
      rw [hlength]
      decide
    rw [← hlength]
    refine Ends.mono (h.writeRest hroom) (fun object t hnext => ?_) fun _ _ hseen => hseen
    refine ⟨_, ?_, (Written.ofParts_concat objects object).symm, hnext⟩
    rw [List.length_append, hlength]
    rfl

/-! ## The end of an upload -/

omit [ObjectStore σ] in
/-- A compose of the names that were noted joins all parts. -/
theorem joinsAll {ending : Except Halt (Option StoredObject)} {after : σ}
    (h : Ordered bucket destination objects s) (hseveral : 2 ≤ objects.length) :
    Sighting.JoinsAll bucket destination s.store.seen
      ⟨.compose bucket s.names destination, ending, after⟩ := by
  have hlength := h.length_seen
  have hlimit := h.limit
  refine ⟨?_, ?_, ?_, fun source hsource => ?_, ?_⟩
  · rw [h.names, hlength]
  · omega
  · omega
  · obtain ⟨i, hi, rfl⟩ := Part.mem_names.1 hsource
    have hi' : i < objects.length := by omega
    exact ⟨s.store.seen[i], List.getElem_mem hi, objects[i], h.getElem_seen hi hi'⟩
  · rw [Part.length_names, checkSourceCount, if_neg (by omega)]

/-- After all parts an upload either has its object, which is the only part, or asks for the compose
of all of them. -/
theorem join (h : Ordered bucket destination objects s) (hsome : objects ≠ []) :
    Ends
      (match Written.ofParts objects with
      | .single object => pure object
      | _ => do
        countCompose
        onStore (ObjectStore.compose bucket (← get).names destination)) s
      (fun object t => (∃ x, t.store.seen = [x] ∧ x.Wrote (bucket, destination) object) ∨
        ∃ x, t.store.seen = s.store.seen ++ [x] ∧ x.JoinsAll bucket destination s.store.seen ∧
          x.ending = .ok (some object))
      (fun _ t => ∃ x, t.store.seen = s.store.seen ++ [x] ∧
        x.JoinsAll bucket destination s.store.seen) := by
  match objects, hsome with
  | [object], _ =>
    obtain ⟨x, hx⟩ := List.length_eq_one_iff.1 h.length_seen
    have hwrote := h.getElem_seen (i := 0) (by simp [hx]) Nat.one_pos
    simp only [hx, List.getElem_cons_zero] at hwrote
    exact Ends.pure (.inl ⟨x, hx, hwrote⟩)
  | first :: second :: later, _ =>
    have hseveral : 2 ≤ (first :: second :: later).length := Nat.le_add_left 2 later.length
    have hstore := Ends.somehow (ObjectStore.compose bucket s.names destination) s.store.store
    refine Ends.modify_bind (Ends.get_bind (Ends.mono (ends_onStore (ends_note hstore)) ?_ ?_))
    · rintro object t ⟨⟨-, hseen⟩, -⟩
      exact .inr ⟨_, hseen, h.joinsAll hseveral, rfl⟩
    · rintro halt t ⟨⟨-, hseen⟩, -⟩
      exact ⟨_, hseen, h.joinsAll hseveral⟩

end Ordered

/-- What was seen of a whole upload: parts, and nothing else but perhaps a compose of all of them at
the end. -/
def InOrder (bucket destination : String) (seen : List (Sighting σ)) : Prop :=
  ∃ parts last, seen = parts ++ last ∧ (∀ x ∈ parts, x.call.partAddress?.isSome = true) ∧
    (last = [] ∨ ∃ x, last = [x] ∧ x.JoinsAll bucket destination parts)

namespace InOrder

variable {seen : List (Sighting σ)}

theorem not_isCompose {call : StoreCall} (h : call.partAddress?.isSome = true) :
    call.isCompose = false := by
  cases call <;> simp_all [StoreCall.partAddress?, StoreCall.isCompose]

theorem countP_le (h : InOrder bucket destination seen) :
    (seen.map (·.call)).countP StoreCall.isCompose ≤ 1 := by
  obtain ⟨parts, last, rfl, hparts, hlast⟩ := h
  have hnone : (parts.map (·.call)).countP StoreCall.isCompose = 0 := by
    rw [List.countP_eq_zero]
    intro call hcall
    obtain ⟨x, hx, rfl⟩ := List.mem_map.1 hcall
    simp [not_isCompose (hparts x hx)]
  rw [List.map_append, List.countP_append, hnone, Nat.zero_add]
  rcases hlast with rfl | ⟨x, rfl, -⟩
  · exact Nat.zero_le 1
  · exact List.countP_le_length

/-- A compose is the last call, and it joins all parts. -/
theorem joinsAll (h : InOrder bucket destination seen) {before after : List (Sighting σ)}
    {x : Sighting σ} (hsplit : seen = before ++ x :: after) (hx : x.call.isCompose = true) :
    after = [] ∧ x.JoinsAll bucket destination before := by
  obtain ⟨parts, last, rfl, hparts, hlast⟩ := h
  have hnot : x ∉ parts := by
    intro hmem
    rw [not_isCompose (hparts x hmem)] at hx
    cases hx
  rcases hlast with rfl | ⟨y, rfl, hjoins⟩
  · rw [List.append_nil] at hsplit
    exact absurd (by simp [hsplit]) hnot
  · rcases List.eq_nil_or_concat' after with rfl | ⟨front, z, rfl⟩
    · obtain ⟨rfl, heq⟩ := List.append_inj' hsplit rfl
      cases heq
      exact ⟨rfl, hjoins⟩
    · have hfront : parts = before ++ x :: front := by
        rw [← List.cons_append, ← List.append_assoc] at hsplit
        exact (List.append_inj' hsplit rfl).1
      exact absurd (by simp [hfront]) hnot

end InOrder

/-- Whatever the stream does and whatever calls the store fails, the calls are in order. -/
theorem Ordered.run [ObjectStore σ] (h : Ordered bucket destination [] s) :
    Ends (run bucket destination) s
      (fun object t => InOrder bucket destination t.store.seen ∧
        ((∃ x, t.store.seen = [x] ∧ x.Wrote (bucket, destination) object) ∨
          ∃ before x, t.store.seen = before ++ [x] ∧ x.call.isCompose = true ∧
            x.ending = .ok (some object)))
      (fun _ t => InOrder bucket destination t.store.seen) := by
  have hparts := carried.writeParts ⟨[], rfl, rfl, h⟩ (Nat.zero_add _)
  refine Ends.andThen hparts
    (fun _ t hseen => ⟨_, [], (List.append_nil _).symm, hseen, .inl rfl⟩) fun written t hall => ?_
  obtain ⟨_, hpos, -, all, rfl, rfl, hordered⟩ := hall
  have hsome : all ≠ [] := List.length_pos_iff.1 hpos
  have hseen := hordered.isSome_partAddress?
  refine Ends.mono (hordered.join hsome) ?_ ?_
  · rintro object t' (⟨x, hx, hwrote⟩ | ⟨x, hx, hjoins, hending⟩)
    · refine ⟨⟨[x], [], hx, ?_, .inl rfl⟩, .inl ⟨x, hx, hwrote⟩⟩
      simp [hwrote.1]
    · refine ⟨⟨_, [x], hx, hseen, .inr ⟨x, rfl, hjoins⟩⟩, .inr ⟨_, x, hx, ?_, hending⟩⟩
      rw [hjoins.call]
      rfl
  · rintro halt t' ⟨x, hx, hjoins⟩
    exact ⟨_, [x], hx, hseen, .inr ⟨x, rfl, hjoins⟩⟩

end Session

namespace Uploader

/-- **A compose joins all parts, in order, and each of them has been written**: an upload, to any
store and from any stream, asks for at most one compose, as its last call; the sources are all its
parts, two or more and not too many, and the store has answered for each of them. An upload that
succeeds without a compose has attempted one part, and its object is the one that the store answered
for it. -/
theorem upload_composes_all_parts [ObjectStore σ] (u : Uploader) (bucket destination : String)
    (script : Reader.Script) (m : Metered σ) :
    ∃ (ending : Ending) (u' : Uploader) (m' : Metered (Watched σ)),
      u.upload ⟨bucket, destination, script⟩ (watch m) = (ending, u', m') ∧
      u.upload ⟨bucket, destination, script⟩ m = (ending, u', ⟨m'.store.store, m'.metrics⟩) ∧
      m'.store.calls.countP StoreCall.isCompose ≤ 1 ∧
      (∀ before x after, m'.store.seen = before ++ x :: after → x.call.isCompose = true →
        after = [] ∧ x.JoinsAll bucket destination before) ∧
      ∀ object, ending = .stored object →
        m'.store.calls.countP StoreCall.isCompose = 0 →
          ∃ x, m'.store.seen = [x] ∧ x.Wrote (bucket, destination) object := by
  have hstart : Session.Ordered bucket destination []
      (u.session ⟨bucket, destination, script⟩ (watch m)) := ⟨Nat.zero_le _, rfl, rfl⟩
  obtain ⟨ending, t, metrics, hupload, hending⟩ :=
    upload_ends u ⟨bucket, destination, script⟩ hstart.run
  have horder : Session.InOrder bucket destination t.store.seen := by
    rcases hending with ⟨_, -, h, -⟩ | ⟨_, -, h⟩ | ⟨-, h⟩ <;> exact h
  have hwatched := upload_watched u ⟨bucket, destination, script⟩ m
  rw [hupload] at hwatched
  refine ⟨ending, _, _, hupload, hwatched, horder.countP_le,
    fun before x after hsplit hx => horder.joinsAll hsplit hx, fun object hobject hnone => ?_⟩
  rcases hending with ⟨_, hstored, -, hdone⟩ | ⟨_, hfailed, -⟩ | ⟨hcancelled, -⟩
  · rw [hstored] at hobject
    cases hobject
    rcases hdone with hone | ⟨before, x, hx, hcompose, -⟩
    · exact hone
    · have hmem : x.call ∈ t.store.calls := List.mem_map_of_mem (by simp [hx])
      exact absurd hcompose (List.countP_eq_zero.1 hnone _ hmem)
  · rw [hfailed] at hobject
    cases hobject
  · rw [hcancelled] at hobject
    cases hobject

end Uploader

end ChunkedUpload
