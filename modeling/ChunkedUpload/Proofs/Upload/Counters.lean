import Mathlib.Algebra.GroupWithZero.Nat
import ChunkedUpload.Proofs.Upload.Order

/-!
# What the counters count

The counters are raised at many places, before and after calls that may fail or never answer.
`Metrics.count` tells what they make of the calls that an observer has seen. A session keeps to it
wherever it stops (`Tallied.run`), and so does a sweep, which is `Swept` up to the first delete that
crashes (`sweepNames_seen`). Nothing is assumed of the store.
-/

namespace ChunkedUpload

/-! ## Counting calls and uploads -/

/-- The rest of a stream is written. -/
def StoreCall.isRest : StoreCall → Bool
  | .createFromReader .. => true
  | _ => false

def StoreCall.isDelete : StoreCall → Bool
  | .delete .. => true
  | _ => false

theorem StoreCall.not_isRest {call : StoreCall} (h : call.isDelete = true) :
    ¬ call.isRest = true := by
  cases call with
  | delete => exact Bool.false_ne_true
  | create | createFromReader | compose => cases h

namespace Sighting

variable {σ : Type} (x : Sighting σ)

/-- The size of the part that the call has written, if it has written one: what was handed over,
or, where that is not known in advance, what the store has answered. -/
def partSize? : Option Nat :=
  match x.call, x.ending with
  | .create _ _ data _, .ok _ => some data.length
  | .createFromReader .., .ok object => some (object.elim 0 (·.size))
  | _, _ => none

/-- The call is a delete that was answered. -/
def deleted : Bool := x.call.isDelete && x.ending.isOk

/-- The call has neither answered nor failed. -/
def crashed : Bool :=
  match x.ending with
  | .error .abandoned => true
  | _ => false

/-- The call is a delete that has failed. -/
def refused : Bool := x.call.isDelete && !x.ending.isOk && !x.crashed

variable {x}

theorem isDelete_of_deleted (h : x.deleted = true) : x.call.isDelete = true :=
  (Bool.and_eq_true_iff.1 h).1

theorem isDelete_of_refused (h : x.refused = true) : x.call.isDelete = true :=
  (Bool.and_eq_true_iff.1 (Bool.and_eq_true_iff.1 h).1).1

end Sighting

def Ending.isStored : Ending → Bool
  | .stored _ => true
  | _ => false

def Ending.isFailed : Ending → Bool
  | .failed _ => true
  | _ => false

namespace Metrics

variable {σ : Type}

/-- The counters after some more calls. -/
def count (calls : List (Sighting σ)) (m : Metrics) : Metrics :=
  { m with
    partsUploaded := m.partsUploaded + (calls.filterMap (·.partSize?)).length
    bytesUploaded := m.bytesUploaded + (calls.filterMap (·.partSize?)).sum
    composeRequests := m.composeRequests + calls.countP (·.call.isCompose)
    composeLimitHits := m.composeLimitHits + calls.countP (·.call.isRest)
    cleanupDeletes := m.cleanupDeletes + calls.countP (·.deleted)
    cleanupFailures := m.cleanupFailures + calls.countP (·.refused) }

theorem count_append (calls more : List (Sighting σ)) (m : Metrics) :
    m.count (calls ++ more) = (m.count calls).count more := by
  simp only [count, List.filterMap_append, List.length_append, List.sum_append,
    List.countP_append, Nat.add_assoc]

/-- In which order calls are counted makes no difference. -/
theorem count_comm (calls more : List (Sighting σ)) (m : Metrics) :
    (m.count calls).count more = (m.count more).count calls := by
  simp only [count, Nat.add_right_comm]

/-- The counters after some more uploads, their calls apart. -/
def served (endings : List Ending) (m : Metrics) : Metrics :=
  { m with
    uploadsStarted := m.uploadsStarted + endings.length
    uploadFailures := m.uploadFailures + endings.countP (·.isFailed)
    uploadDurations := m.uploadDurations + endings.countP (·.isStored) }

theorem served_append (endings more : List Ending) (m : Metrics) :
    m.served (endings ++ more) = (m.served endings).served more := by
  simp only [served, List.length_append, List.countP_append, Nat.add_assoc]

theorem served_count (endings : List Ending) (calls : List (Sighting σ)) (m : Metrics) :
    (m.count calls).served endings = (m.served endings).count calls := rfl

end Metrics

/-! ## Sessions -/

namespace Session

open Call (Ends)

variable {σ : Type} {bucket destination : String} {m : Metrics} {hits n : Nat}
  {s t : Session (Watched σ)}

/-- A session that began with the counters `m` and an uploader that had come to the compose limit
`hits` times, after the calls for `n` parts. -/
structure Tallied (bucket destination : String) (m : Metrics) (hits n : Nat)
    (s : Session (Watched σ)) : Prop where
  names : s.names = Part.names destination n
  attempted : s.store.seen.filterMap (·.call.partAddress?) =
    (Part.names destination n).map (bucket, ·)
  metrics : s.metrics = m.count s.store.seen
  rests : s.store.seen.countP (·.call.isRest) = if n = composeLimit then 1 else 0
  limitHits : s.limitHits = hits + if n = composeLimit then 1 else 0
  deletes : s.store.seen.countP (·.call.isDelete) = 0

namespace Tallied

theorem congr (h : Tallied bucket destination m hits n s)
    (ht : t = { s with contents := t.contents, buffer := t.buffer }) :
    Tallied bucket destination m hits n t := by
  rw [ht]
  exact ⟨h.names, h.attempted, h.metrics, h.rests, h.limitHits, h.deletes⟩

/-- One more call for a part was noted. -/
theorem concat {x : Sighting σ} (h : Tallied bucket destination m hits n s)
    (hseen : t.store.seen = s.store.seen ++ [x])
    (hpart : x.call.partAddress? = some (bucket, Part.name destination (n + 1)))
    (hroom : n ≠ composeLimit) (hrest : x.call.isRest = decide (n + 1 = composeLimit))
    (hnames : t.names = s.names ++ [Part.name destination (n + 1)])
    (hmetrics : t.metrics = s.metrics.count [x])
    (hhits : t.limitHits = s.limitHits + if n + 1 = composeLimit then 1 else 0) :
    Tallied bucket destination m hits (n + 1) t where
  names := by rw [hnames, h.names, Part.names_succ]
  attempted := by
    rw [hseen, List.filterMap_append, h.attempted, Part.names_succ, List.map_append]
    simp [hpart]
  metrics := by rw [hmetrics, h.metrics, hseen, Metrics.count_append]
  rests := by
    rw [hseen, List.countP_append, h.rests, if_neg hroom, Nat.zero_add, List.countP_singleton,
      hrest]
    exact if_congr decide_eq_true_iff rfl rfl
  limitHits := by rw [hhits, h.limitHits, if_neg hroom, Nat.add_zero]
  deletes := by
    have hdelete : x.call.isDelete = false := by
      cases hcall : x.call <;> rw [hcall] at hpart <;> first | rfl | cases hpart
    rw [hseen, List.countP_append, h.deletes, List.countP_singleton, hdelete]
    rfl

variable [ObjectStore σ]

theorem writePart (h : Tallied bucket destination m hits n s) (hroom : n + 1 < composeLimit)
    (data : Bytes) :
    Ends (writePart bucket destination (n + 1) data) s
      (fun _ t => Tallied bucket destination m hits (n + 1) t)
      (fun _ t => Tallied bucket destination m hits (n + 1) t) := by
  have hlast : n + 1 ≠ composeLimit := Nat.ne_of_lt hroom
  have hfew : n ≠ composeLimit := Nat.ne_of_lt (Nat.lt_of_succ_lt hroom)
  have hrest : false = decide (n + 1 = composeLimit) := (decide_eq_false hlast).symm
  refine Ends.modify_bind (Ends.andThen (ends_onStore (ends_note (Ends.somehow _ _))) ?_ ?_)
  · intro halt t hbad
    obtain ⟨⟨-, hseen⟩, ht⟩ := hbad
    refine h.concat hseen rfl hfew hrest (by rw [ht]) (by rw [ht]; rfl) ?_
    rw [ht, if_neg hlast]
    rfl
  · intro object t hgood
    obtain ⟨⟨-, hseen⟩, ht⟩ := hgood
    refine Ends.modify_bind (Ends.pure (h.concat hseen rfl hfew hrest ?_ ?_ ?_))
    · rw [ht]
    · rw [ht]
      rfl
    · rw [ht, if_neg hlast]
      rfl

/-- The limit is counted before the call, so however it ends. -/
theorem writeRest (h : Tallied bucket destination m hits (composeLimit - 1) s) :
    Ends (writeRest bucket destination (composeLimit - 1 + 1)) s
      (fun _ t => Tallied bucket destination m hits composeLimit t)
      (fun _ t => Tallied bucket destination m hits composeLimit t) := by
  have hfew : composeLimit - 1 ≠ composeLimit := by decide
  refine Ends.modify_bind (Ends.modify_bind (Ends.get_bind (Ends.andThen
    (ends_onStore (ends_note (Ends.somehow _ _))) ?_ ?_)))
  · intro halt t hbad
    obtain ⟨⟨-, hseen⟩, ht⟩ := hbad
    exact h.concat hseen rfl hfew rfl (by rw [ht]) (by rw [ht]; rfl) (by rw [ht]; rfl)
  · intro object t hgood
    obtain ⟨⟨-, hseen⟩, ht⟩ := hgood
    refine Ends.modify_bind (Ends.pure (h.concat hseen rfl hfew rfl ?_ ?_ ?_)) <;> rw [ht] <;> rfl

theorem carried : Carried (σ := Watched σ) bucket destination
    (fun n _ s => Tallied bucket destination m hits n s)
    (fun _ t => ∃ n ≤ composeLimit, Tallied bucket destination m hits n t) where
  congr h ht := h.congr ht
  stops _ hroom h := ⟨_, Nat.le_of_lt hroom, h⟩
  part data hroom h := Ends.mono (h.writePart hroom data) (fun _ _ ht => ht)
    fun _ _ ht => ⟨_, Nat.le_of_lt hroom, ht⟩
  rest h := Ends.mono h.writeRest (fun _ _ ht => ht) fun _ _ ht => ⟨_, Nat.le_refl _, ht⟩

/-- A compose is counted before the call, so however it ends. -/
theorem compose (h : Tallied bucket destination m hits n s) :
    Ends
      (do
        countCompose
        onStore (ObjectStore.compose bucket (← get).names destination)) s
      (fun _ t => Tallied bucket destination m hits n t)
      (fun _ t => Tallied bucket destination m hits n t) := by
  have hafter : ∀ {ending : Except Halt (Option StoredObject)} {t : Session (Watched σ)},
      t.store.seen = s.store.seen ++ [⟨.compose bucket s.names destination, ending,
        t.store.store⟩] →
      t = { s with
        metrics := { s.metrics with composeRequests := s.metrics.composeRequests + 1 }
        store := t.store } → Tallied bucket destination m hits n t := by
    intro ending t hseen ht
    refine ⟨?_, ?_, ?_, ?_, ?_, ?_⟩
    · rw [ht]
      exact h.names
    · rw [hseen, List.filterMap_append, h.attempted]
      exact List.append_nil _
    · rw [hseen, Metrics.count_append, ← h.metrics, ht]
      rfl
    · rw [hseen, List.countP_append, h.rests]
      rfl
    · rw [ht]
      exact h.limitHits
    · rw [hseen, List.countP_append, h.deletes]
      rfl
  refine Ends.modify_bind (Ends.get_bind (Ends.mono
    (ends_onStore (ends_note (Ends.somehow _ _))) ?_ ?_))
  · intro object t hgood
    exact hafter hgood.1.2 hgood.2
  · intro halt t hbad
    exact hafter hbad.1.2 hbad.2

/-- However a session ends, its counters are those of the calls that were seen. -/
theorem run (h : Tallied bucket destination m hits 0 s) :
    Ends (run bucket destination) s
      (fun _ t => ∃ n ≤ composeLimit, Tallied bucket destination m hits n t)
      (fun _ t => ∃ n ≤ composeLimit, Tallied bucket destination m hits n t) := by
  refine Ends.bind (carried.writeParts h (Nat.zero_add _)) fun written t ht => ?_
  obtain ⟨n, -, hlimit, ht⟩ := ht
  cases written with
  | single object => exact Ends.pure ⟨n, hlimit, ht⟩
  | nothing | several =>
    exact Ends.mono ht.compose (fun _ _ ht' => ⟨n, hlimit, ht'⟩) fun _ _ ht' => ⟨n, hlimit, ht'⟩

end Tallied

end Session

/-! ## Sweeps -/

namespace Cleanup

variable {σ : Type} {bucket : String} {names : List String} {seen : List (Sighting σ)}

/-- One delete for each name, in order, up to the first that crashes. -/
inductive Swept (bucket : String) : List String → List (Sighting σ) → Prop
  | done : Swept bucket [] []
  | crash {x : Sighting σ} {name : String} (names : List String) :
    x.call = .delete bucket name → x.crashed = true → Swept bucket (name :: names) [x]
  | next {x : Sighting σ} {xs : List (Sighting σ)} {name : String} {names : List String} :
    x.call = .delete bucket name → x.crashed = false → Swept bucket names xs →
    Swept bucket (name :: names) (x :: xs)

/-- How many of the names were not deleted because a delete has crashed: its own and those after
it. -/
def spared (names : List String) (seen : List (Sighting σ)) : Nat :=
  if seen.any (·.crashed) then names.length + 1 - seen.length else 0

/-- Every other delete is counted, as done or as failed. -/
theorem Swept.counted (h : Swept bucket names seen) :
    seen.countP (·.deleted) + seen.countP (·.refused) + spared names seen = names.length := by
  have hone : ∀ {x : Sighting σ} {name : String}, x.call = .delete bucket name →
      (if x.deleted then 1 else 0) + (if x.refused then 1 else 0) + (if x.crashed then 1 else 0) =
        1 := by
    intro x name hcall
    unfold Sighting.deleted Sighting.refused Sighting.crashed
    rw [hcall]
    cases x.ending with
    | ok _ => rfl
    | error halt => cases halt <;> rfl
  induction h with
  | done => rfl
  | crash names hcall hcrashed =>
    have hone := hone hcall
    simp only [spared, hcrashed, List.any_cons, Bool.true_or, if_true, List.countP_singleton,
      List.length_cons, List.length_nil] at hone ⊢
    omega
  | next hcall hcrashed _ ih =>
    have hone := hone hcall
    simp only [spared, hcrashed, List.any_cons, Bool.false_or, Bool.false_eq_true, if_false,
      List.countP_cons, List.length_cons, Nat.add_sub_add_right] at hone ih ⊢
    omega

/-- A sweep does nothing but delete. -/
theorem Swept.isDelete (h : Swept bucket names seen) : ∀ x ∈ seen, x.call.isDelete = true := by
  induction h with
  | done => exact List.forall_mem_nil _
  | crash names hcall => exact List.forall_mem_singleton.2 (by rw [hcall]; rfl)
  | next hcall _ _ ih => exact List.forall_mem_cons.2 ⟨by rw [hcall]; rfl, ih⟩

variable [ObjectStore σ]

/-- A sweep to a watched store is one to the store, and its counters are those of the calls that
were seen. -/
theorem sweepNames_seen (bucket : String) :
    ∀ (names : List String) (w : Watched σ) (m : Metrics),
      ∃ seen, Swept bucket names seen ∧
        sweepNames bucket names ⟨w, m⟩ =
          ⟨⟨(sweepNames bucket names ⟨w.store, m⟩).store, w.seen ++ seen⟩, m.count seen⟩ ∧
        (sweepNames bucket names ⟨w.store, m⟩).metrics = m.count seen
  | [], w, m => ⟨[], .done, by rw [List.append_nil]; rfl, rfl⟩
  | name :: names, ⟨store, seen⟩, m => by
    have hdelete : ObjectStore.delete bucket name (⟨store, seen⟩ : Watched σ) =
        Watched.note (.delete bucket name) (fun _ => none) (ObjectStore.delete bucket name)
          ⟨store, seen⟩ := rfl
    have hnext : ∀ x : Sighting σ, x.call = .delete bucket name → x.crashed = false →
        ∃ more, Swept bucket (name :: names) more ∧
          let after : Metered σ := sweepNames bucket names ⟨x.after, m.count [x]⟩
          sweepNames (σ := Watched σ) bucket names ⟨⟨x.after, seen ++ [x]⟩, m.count [x]⟩ =
            ⟨⟨after.store, seen ++ more⟩, m.count more⟩ ∧ after.metrics = m.count more := by
      intro x hcall hcrashed
      obtain ⟨more, hswept, hstore, hmetrics⟩ :=
        sweepNames_seen bucket names ⟨x.after, seen ++ [x]⟩ (m.count [x])
      rw [List.append_assoc, ← Metrics.count_append] at hstore
      rw [← Metrics.count_append] at hmetrics
      exact ⟨x :: more, .next hcall hcrashed hswept, hstore, hmetrics⟩
    unfold sweepNames
    rw [hdelete, Watched.note]
    dsimp only
    cases ObjectStore.delete bucket name store with
    | ok _ after => exact hnext ⟨.delete bucket name, .ok none, after⟩ rfl rfl
    | error halt after =>
      cases halt with
      | failed error => exact hnext ⟨.delete bucket name, .error (.failed error), after⟩ rfl rfl
      | abandoned =>
        let last : Sighting σ := ⟨.delete bucket name, .error .abandoned, after⟩
        exact ⟨[last], .crash names rfl rfl, rfl, rfl⟩

end Cleanup

end ChunkedUpload
