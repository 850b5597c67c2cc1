import ChunkedUpload.Proofs.Part.Names
import ChunkedUpload.Proofs.Reader.Ending
import ChunkedUpload.Proofs.Storage.Ending
import ChunkedUpload.Cleanup.Batch
import ChunkedUpload.Storage.Memory

/-!
# What calls do to the store in memory

A call that writes either leaves all objects as they are (`Kept`) or puts one object in place
(`Stored`); it has done the latter if it answers, and it always answers where no fault is scheduled
(`ends_create`, `ends_createFromReader`, `ends_compose`). A delete that no fault strikes takes one
object away, so a sweep that no fault strikes takes away what it names (`sweepNames_objects`), name
after name (`sweepNames_log`).
-/

namespace ChunkedUpload

namespace Memory

open Call (Ends)

/-- All but the log is as before. -/
structure Kept (m after : Memory) : Prop where
  objects : after.objects = m.objects
  faults : after.faults = m.faults
  extra : after.extra = m.extra

/-- All but the log is as before, but for `content` at `address`. -/
structure Stored (address : Address) (content : Bytes) (m after : Memory) : Prop where
  objects : after.objects = m.objects.insert address content
  faults : after.faults = m.faults
  extra : after.extra = m.extra

theorem Stored.get? {address : Address} {content : Bytes} {m after : Memory}
    (h : Stored address content m after) (b : Address) :
    after.objects.get? b = if b = address then some content else m.objects.get? b := by
  rw [h.objects, ObjectMap.get?_insert]

/-! ## Writing -/

theorem putUnlessStruck_eq (entry : Entry) (bucket : String) (content : Bytes) (m : Memory) :
    putUnlessStruck entry bucket content m =
      match m.fault? entry with
      | none => put bucket entry.key content m
      | some fault => .error fault.halt
          (if fault.after then Call.final (put bucket entry.key content m) else m) := by
  rw [putUnlessStruck, Call.get_bind]
  cases m.fault? entry with
  | none => rfl
  | some fault =>
    cases hafter : fault.after <;> simp only [hafter] <;> rfl

theorem ends_putUnlessStruck (entry : Entry) (bucket : String) (content : Bytes) (m : Memory) :
    Ends (putUnlessStruck entry bucket content) (record entry m)
      (fun object after => object = ⟨bucket, entry.key, content.length + m.extra⟩ ∧
        Stored (bucket, entry.key) content m after)
      (fun _ after => m.faults ≠ [] ∧
        (Kept m after ∨ Stored (bucket, entry.key) content m after)) := by
  rw [Ends, putUnlessStruck_eq]
  cases hfault : (record entry m).fault? entry with
  | none => exact ⟨rfl, rfl, rfl, rfl⟩
  | some fault =>
    refine ⟨fun hnone => ?_, ?_⟩
    · rw [fault?, show (record entry m).faults = m.faults from rfl, hnone] at hfault
      cases hfault
    · split
      · exact .inr ⟨rfl, rfl, rfl⟩
      · exact .inl ⟨rfl, rfl, rfl⟩

theorem ends_create (bucket key : String) (data : Bytes) (uncompressed : Bool) (m : Memory) :
    Ends (create bucket key data uncompressed) m
      (fun object after => object = ⟨bucket, key, data.length + m.extra⟩ ∧
        Stored (bucket, key) data m after)
      (fun _ after => m.faults ≠ [] ∧ (Kept m after ∨ Stored (bucket, key) data m after)) :=
  ends_putUnlessStruck (.create key data.length uncompressed) bucket data m

/-- Nothing happens to the store unless all of the stream has been read. -/
theorem ends_createFromReader (bucket key : String) (contents : Reader) (m : Memory) :
    Ends (createFromReader bucket key contents) m
      (fun object after => object = ⟨bucket, key, contents.drain.taken.length + m.extra⟩ ∧
        Stored (bucket, key) contents.drain.taken m after)
      (fun _ after => (contents.drain.stop = .done → m.faults ≠ []) ∧
        (Kept m after ∨ Stored (bucket, key) contents.drain.taken m after)) := by
  unfold createFromReader
  dsimp only
  cases hstop : contents.drain.stop with
  | failed error => exact ⟨nofun, .inl ⟨rfl, rfl, rfl⟩⟩
  | stalled => exact ⟨nofun, .inl ⟨rfl, rfl, rfl⟩⟩
  | done =>
    refine Ends.mono (ends_putUnlessStruck (.createFromReader key contents.drain.taken.length)
      bucket contents.drain.taken m) (fun _ _ h => h) fun _ _ h => ⟨fun _ => h.1, h.2⟩

theorem fault?_of_faultless {m : Memory} (h : m.faults = []) (entry : Entry) :
    m.fault? entry = none := by
  rw [fault?, h, List.find?_nil]

/-- Where no fault is scheduled, data is stored. -/
theorem create_of_faultless {m : Memory} (h : m.faults = []) (bucket key : String) (data : Bytes)
    (uncompressed : Bool) :
    create bucket key data uncompressed m =
      .ok ⟨bucket, key, data.length + m.extra⟩
        { record (.create key data.length uncompressed) m with
          objects := m.objects.insert (bucket, key) data } := by
  have hrecord : (record (.create key data.length uncompressed) m).faults = [] := h
  rw [create, Call.modify_bind, putUnlessStruck_eq, fault?_of_faultless hrecord]
  rfl

/-- A stream that fails leaves no trace in the store, not even in its log. -/
theorem createFromReader_of_failed {contents : Reader} {error : IoError}
    (h : contents.drain.stop = .failed error) (bucket key : String) (m : Memory) :
    createFromReader bucket key contents m = .error (.failed (.io error)) m := by
  unfold createFromReader
  simp only [h]
  rfl

/-- Streams that hand out the same and end alike cannot be told apart. -/
theorem createFromReader_congr {r r' : Reader} (hflow : r.flow = r'.flow)
    (hending : r.ending = r'.ending) (bucket key : String) :
    createFromReader bucket key r = createFromReader bucket key r' := by
  unfold createFromReader
  simp only [Reader.drain_taken, Reader.drain_stop, hflow, hending]

/-! ## Joining -/

/-- A compose writes what its sources hold, and fails without a fault only for its sources. -/
theorem ends_compose (bucket : String) (sources : List String) (destination : String) (m : Memory) :
    Ends (compose bucket sources destination) m
      (fun object after => ∃ content, m.objects.gather bucket sources = .ok content ∧
        object = ⟨bucket, destination, content.length + m.extra⟩ ∧
        Stored (bucket, destination) content m after)
      (fun _ after =>
        (checkSourceCount sources.length = .ok () →
          (∃ content, m.objects.gather bucket sources = .ok content) → m.faults ≠ []) ∧
        (Kept m after ∨ ∃ content, m.objects.gather bucket sources = .ok content ∧
          Stored (bucket, destination) content m after)) := by
  have hgather : (record (.compose sources destination) m).objects.gather bucket sources =
      m.objects.gather bucket sources := rfl
  rw [compose, Ends, Call.modify_bind]
  cases hcount : checkSourceCount sources.length with
  | error error =>
    refine ⟨fun hok => ?_, .inl ⟨rfl, rfl, rfl⟩⟩
    cases hok
  | ok =>
    rw [Call.ofExcept_ok, Call.pure_bind, Call.get_bind, hgather]
    cases hcontent : m.objects.gather bucket sources with
    | error error =>
      refine ⟨fun _ hsome => ?_, .inl ⟨rfl, rfl, rfl⟩⟩
      obtain ⟨content, hok⟩ := hsome
      cases hok
    | ok content =>
      rw [Call.ofExcept_ok, Call.pure_bind]
      refine Ends.mono (ends_putUnlessStruck (.compose sources destination) bucket content m)
        (fun _ _ h => ⟨content, rfl, h⟩) fun _ _ h => ⟨fun _ _ => h.1, ?_⟩
      exact h.2.imp id fun hstored => ⟨content, rfl, hstored⟩

/-! ## Sweeping -/

/-- No delete is struck. -/
def DeletesSafe (m : Memory) : Prop := ∀ fault ∈ m.faults, fault.on ≠ .delete

theorem safe_of_faultless {m : Memory} (h : m.faults = []) : m.DeletesSafe := by
  rw [DeletesSafe, h]
  exact List.forall_mem_nil _

theorem delete_of_safe {m : Memory} (h : m.DeletesSafe) (bucket key : String) :
    delete bucket key m =
      .ok () { record (.delete key) m with objects := m.objects.erase (bucket, key) } := by
  have hnone : (record (.delete key) m).fault? (.delete key) = none := by
    refine List.find?_eq_none.2 fun fault hmem hstrikes => h fault hmem ?_
    simp only [Fault.strikes, Bool.and_eq_true, decide_eq_true_eq] at hstrikes
    exact hstrikes.1.1
  rw [delete, Call.modify_bind, Call.get_bind, hnone]
  rfl

end Memory

namespace Cleanup

/-- One step of a sweep that no fault strikes. -/
theorem sweepNames_step {m : Metered Memory} (h : m.store.DeletesSafe) (bucket name : String)
    (names : List String) :
    ∃ later : Metered Memory, sweepNames bucket (name :: names) m = sweepNames bucket names later ∧
      later.store.DeletesSafe ∧ later.store.objects = m.store.objects.erase (bucket, name) ∧
      later.store.log = m.store.log ++ [.delete name] := by
  have hdelete : ObjectStore.delete bucket name m.store =
      .ok () { Memory.record (.delete name) m.store with
        objects := m.store.objects.erase (bucket, name) } := Memory.delete_of_safe h bucket name
  rw [sweepNames, hdelete]
  exact ⟨_, rfl, h, rfl, rfl⟩

/-- A sweep that no fault strikes takes away the objects that it names, and no others. -/
theorem sweepNames_objects (bucket : String) :
    ∀ (names : List String) {m : Metered Memory}, m.store.DeletesSafe → ∀ address : Address,
      (sweepNames bucket names m).store.objects.get? address =
        if address.1 = bucket ∧ address.2 ∈ names then none else m.store.objects.get? address
  | [], m, _, address => by simp [sweepNames]
  | name :: names, m, h, address => by
    obtain ⟨later, hstep, hsafe, hobjects, -⟩ := sweepNames_step h bucket name names
    rw [hstep, sweepNames_objects bucket names hsafe address, hobjects, ObjectMap.get?_erase]
    obtain ⟨b, k⟩ := address
    by_cases hb : b = bucket <;> by_cases hk : k = name <;> by_cases hm : k ∈ names <;>
      simp [hb, hk, hm]

/-- Such a sweep deletes what it names, in order. -/
theorem sweepNames_log (bucket : String) :
    ∀ (names : List String) {m : Metered Memory}, m.store.DeletesSafe →
      (sweepNames bucket names m).store.log = m.store.log ++ names.map .delete
  | [], m, _ => by simp [sweepNames]
  | name :: names, m, h => by
    obtain ⟨later, hstep, hsafe, -, hlog⟩ := sweepNames_step h bucket name names
    rw [hstep, sweepNames_log bucket names hsafe, hlog, List.append_assoc]
    rfl

end Cleanup

end ChunkedUpload
