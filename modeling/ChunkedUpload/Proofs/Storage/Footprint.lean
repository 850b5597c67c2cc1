import ChunkedUpload.Proofs.Storage.InStep
import ChunkedUpload.Proofs.Storage.MemoryCalls
import ChunkedUpload.Proofs.Upload.Leftovers
import ChunkedUpload.Proofs.Upload.Twins

/-!
# The places that an upload looks at

An upload to the store in memory looks at the places of its own parts only. On two stores without
faults that hold the same in these places (`SameOn`) its calls are in step (`SameOn.paired`), and so
are the deletes of its sweep (`SameOn.sweepNames`). What other places hold stays there
(`SameOn.keeps`, `SameOn.sweepNames_elsewhere`).
-/

namespace ChunkedUpload

namespace Memory

open Call (Agree Ends InStep)

/-- Two stores without faults hold the same in `places`. -/
structure SameOn (places : Address → Prop) (m m' : Memory) : Prop where
  objects : ∀ a, places a → m'.objects.get? a = m.objects.get? a
  faults : m.faults = []
  faults' : m'.faults = []
  extra : m'.extra = m.extra

variable {places : Address → Prop} {m m' after : Memory} {bucket destination key : String}

namespace SameOn

theorem refl (places : Address → Prop) (hfaults : m.faults = []) : SameOn places m m :=
  ⟨fun _ _ => rfl, hfaults, hfaults, rfl⟩

/-! ## The same calls -/

theorem record (h : SameOn places m m') (entry entry' : Entry) :
    SameOn places (Memory.record entry m) (Memory.record entry' m') :=
  ⟨h.objects, h.faults, h.faults', h.extra⟩

/-- One object is put in the same place. -/
theorem insert (h : SameOn places m m') (address : Address) (content : Bytes) :
    SameOn places { m with objects := m.objects.insert address content }
      { m' with objects := m'.objects.insert address content } where
  objects a ha := by
    dsimp only
    rw [ObjectMap.get?_insert, ObjectMap.get?_insert, h.objects a ha]
  faults := h.faults
  faults' := h.faults'
  extra := h.extra

/-- The object in one place is taken away. -/
theorem erase (h : SameOn places m m') (address : Address) :
    SameOn places { m with objects := m.objects.erase address }
      { m' with objects := m'.objects.erase address } where
  objects a ha := by
    dsimp only
    rw [ObjectMap.get?_erase, ObjectMap.get?_erase, h.objects a ha]
  faults := h.faults
  faults' := h.faults'
  extra := h.extra

theorem putUnlessStruck (h : SameOn places m m') (entry entry' : Entry)
    (hkey : entry'.key = entry.key) (bucket : String) (content : Bytes) :
    Agree (SameOn places) (Memory.putUnlessStruck entry bucket content m)
      (Memory.putUnlessStruck entry' bucket content m') := by
  rw [putUnlessStruck_eq, putUnlessStruck_eq, fault?_of_faultless h.faults,
    fault?_of_faultless h.faults', hkey]
  refine ⟨?_, h.insert (bucket, entry.key) content⟩
  show Except.ok _ = Except.ok _
  rw [h.extra]

theorem gather (h : SameOn places m m') {sources : List String}
    (hsources : ∀ source ∈ sources, places (bucket, source)) :
    m'.objects.gather bucket sources = m.objects.gather bucket sources := by
  induction sources with
  | nil => rfl
  | cons source others ih =>
    have hmore := ih fun other hother => hsources other (List.mem_cons_of_mem source hother)
    rw [ObjectMap.gather, ObjectMap.gather, h.objects _ (hsources source List.mem_cons_self), hmore]

theorem inStep_createFromReader (places : Address → Prop) (bucket key : String) (r : Reader) :
    InStep (SameOn places) (Memory.createFromReader bucket key r)
      (Memory.createFromReader bucket key r) := by
  intro m m' h
  unfold Memory.createFromReader
  dsimp only
  cases r.drain.stop with
  | done => exact (h.record _ _).putUnlessStruck _ _ rfl bucket _
  | failed | stalled => exact ⟨rfl, h⟩

/-- A compose whose sources are in the places. -/
theorem inStep_compose {sources : List String}
    (hsources : ∀ source ∈ sources, places (bucket, source)) :
    InStep (SameOn places) (Memory.compose bucket sources destination)
      (Memory.compose bucket sources destination) := by
  intro m m' h
  have hrecord := h.record (.compose sources destination) (.compose sources destination)
  refine Agree.modify_bind (Agree.bind (InStep.ofExcept _ _ _ hrecord) fun _ s t _ hst => ?_)
  refine Agree.get_bind ?_
  rw [hst.gather hsources]
  exact Agree.bind (InStep.ofExcept _ _ _ hst) fun content s' t' _ hst' =>
    hst'.putUnlessStruck _ _ rfl bucket content

/-- The calls of an upload to a destination all of whose parts are in the places. -/
theorem paired (hplaces : ∀ name ∈ Part.names destination composeLimit, places (bucket, name)) :
    Session.Paired (SameOn places) bucket destination where
  create _ data := fun m m' h => (h.record _ _).putUnlessStruck _ _ rfl bucket data
  createFromReader := by
    intro name _ r r' hflow hending
    have hsame : (ObjectStore.createFromReader bucket name r : Call Memory _) =
        ObjectStore.createFromReader bucket name r' :=
      createFromReader_congr hflow hending bucket name
    rw [← hsame]
    exact inStep_createFromReader places bucket name r
  compose := fun hsources => inStep_compose fun source hsource => hplaces source (hsources hsource)

theorem sweepNames : ∀ (names : List String) {metrics metrics' : Metrics} {m m' : Memory},
    SameOn places m m' →
    SameOn places (Cleanup.sweepNames bucket names ⟨m, metrics⟩).store
      (Cleanup.sweepNames bucket names ⟨m', metrics'⟩).store
  | [], _, _, _, _, h => h
  | name :: names, _, _, m, m', h => by
    have hdelete : ∀ {m : Memory}, m.faults = [] → ObjectStore.delete bucket name m =
        .ok () { Memory.record (.delete name) m with
          objects := m.objects.erase (bucket, name) } :=
      fun hfaults => delete_of_safe (safe_of_faultless hfaults) bucket name
    unfold Cleanup.sweepNames
    rw [hdelete h.faults, hdelete h.faults']
    exact sweepNames names ((h.record _ _).erase (bucket, name))

/-! ## Calls in other places -/

theorem of_kept (h : SameOn places m m') (hkept : Kept m after) : SameOn places after m' :=
  ⟨fun a ha => by rw [hkept.objects, h.objects a ha], hkept.faults.trans h.faults, h.faults',
    h.extra.trans hkept.extra.symm⟩

theorem of_stored {address : Address} {content : Bytes} (h : SameOn places m m')
    (haddress : ¬ places address) (hstored : Stored address content m after) :
    SameOn places after m' where
  objects a ha := by
    have hne : a ≠ address := fun heq => haddress (heq ▸ ha)
    rw [hstored.get?, if_neg hne, h.objects a ha]
  faults := hstored.faults.trans h.faults
  faults' := h.faults'
  extra := h.extra.trans hstored.extra.symm

/-- An upload to a destination none of whose parts are in the places. -/
theorem keeps (hplaces : ∀ name ∈ Part.names destination composeLimit, ¬ places (bucket, name)) :
    Session.Keeps bucket destination fun m => SameOn places m m' where
  create := by
    intro n m data hroom h
    have haway := hplaces _ (Part.mem_names.2 ⟨n, hroom, rfl⟩)
    exact Ends.mono (ends_create bucket _ data true m)
      (fun _ _ hgood => h.of_stored haway hgood.2)
      fun _ _ hbad => hbad.2.elim h.of_kept (h.of_stored haway)
  createFromReader := by
    intro n m contents hroom h
    have haway := hplaces _ (Part.mem_names.2 ⟨n, hroom, rfl⟩)
    exact Ends.mono (ends_createFromReader bucket _ contents m)
      (fun _ _ hgood => h.of_stored haway hgood.2)
      fun _ _ hbad => hbad.2.elim h.of_kept (h.of_stored haway)
  compose := by
    intro m sources h
    have haway : ¬ places (bucket, destination) :=
      hplaces _ (Part.mem_names.2 ⟨0, by decide, rfl⟩)
    refine Ends.mono (ends_compose bucket sources destination m) ?_ ?_
    · intro object after hgood
      obtain ⟨content, -, -, hstored⟩ := hgood
      exact h.of_stored haway hstored
    · intro halt after hbad
      rcases hbad.2 with hkept | ⟨content, -, hstored⟩
      · exact h.of_kept hkept
      · exact h.of_stored haway hstored

/-- A sweep of names that are not in the places. -/
theorem sweepNames_elsewhere {names : List String} {m : Metered Memory}
    (hnames : ∀ name ∈ names, ¬ places (bucket, name)) (h : SameOn places m.store m') :
    SameOn places (Cleanup.sweepNames bucket names m).store m' := by
  refine Cleanup.sweepNames_keeps (P := fun m => SameOn places m m') ?_ h
  intro name hname m h
  have hdelete : ObjectStore.delete bucket name m =
      .ok () { Memory.record (.delete name) m with objects := m.objects.erase (bucket, name) } :=
    delete_of_safe (safe_of_faultless h.faults) bucket name
  refine Ends.of_ok hdelete ⟨fun a ha => ?_, h.faults, h.faults', h.extra⟩
  have hne : a ≠ (bucket, name) := fun heq => hnames name hname (heq ▸ ha)
  dsimp only
  rw [ObjectMap.get?_erase, if_neg hne, h.objects a ha]

end SameOn

end Memory

end ChunkedUpload
