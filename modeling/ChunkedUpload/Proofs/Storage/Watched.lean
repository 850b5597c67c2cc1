import ChunkedUpload.Proofs.Storage.Ending
import ChunkedUpload.Upload.Uploader
import ChunkedUpload.Reader.Drain

/-!
# A store under observation

`Watched σ` is the store `σ` with an observer, who notes each call that may change the store, with
the bytes it hands over, how it ended and the store it left. Nothing that uses a store can tell the
observer is there: an upload to a watched store ends as the upload to the store itself does and
leaves the same store (`upload_watched`). So what the observer saw is what the upload did.
-/

namespace ChunkedUpload

/-- A call that may change a store, with the bytes it hands over. -/
inductive StoreCall
  | create (bucket key : String) (data : Bytes) (uncompressed : Bool)
  /-- `contents` is what the reader hands out up to its next read without bytes. -/
  | createFromReader (bucket key : String) (contents : Bytes)
  | compose (bucket : String) (sources : List String) (destination : String)
  | delete (bucket key : String)
  deriving DecidableEq, Repr

/-- The content that a call writes as a part of an upload. -/
def StoreCall.partContent? : StoreCall → Option Bytes
  | .create _ _ data _ => some data
  | .createFromReader _ _ contents => some contents
  | .compose .. | .delete .. => none

/-- What an observer notes of a call. -/
structure Sighting (σ : Type) where
  call : StoreCall
  /-- How the call ended, with the object that it answered if it wrote one. -/
  ending : Except Halt (Option StoredObject)
  after : σ

/-- The content of the part that the call has written, if it has written one. -/
def Sighting.written? {σ : Type} (x : Sighting σ) : Option Bytes :=
  if x.ending.isOk then x.call.partContent? else none

/-- A store with what was seen of the calls to it, the first call first. -/
structure Watched (σ : Type) where
  store : σ
  seen : List (Sighting σ) := []

namespace Watched

variable {σ α : Type}

/-- The calls that were seen. -/
def calls (w : Watched σ) : List StoreCall := w.seen.map (·.call)

/-- The contents of the parts that calls set out to write. -/
def attempted (w : Watched σ) : List Bytes := w.calls.filterMap (·.partContent?)

/-- The contents of the parts whose calls have answered. -/
def written (w : Watched σ) : List Bytes := w.seen.filterMap (·.written?)

/-- Makes a call on the store and notes it. -/
def note (call : StoreCall) (object : α → Option StoredObject) (run : Call σ α) :
    Call (Watched σ) α := fun w =>
  match run w.store with
  | .ok a store => .ok a ⟨store, w.seen ++ [⟨call, .ok (object a), store⟩]⟩
  | .error halt store => .error halt ⟨store, w.seen ++ [⟨call, .error halt, store⟩]⟩

instance [ObjectStore σ] : ObjectStore (Watched σ) where
  create bucket key data uncompressed :=
    note (.create bucket key data uncompressed) some
      (ObjectStore.create bucket key data uncompressed)
  createFromReader bucket key contents :=
    note (.createFromReader bucket key contents.drain.taken) some
      (ObjectStore.createFromReader bucket key contents)
  compose bucket sources destination :=
    note (.compose bucket sources destination) some
      (ObjectStore.compose bucket sources destination)
  delete bucket key :=
    note (.delete bucket key) (fun _ => none) (ObjectStore.delete bucket key)
  get bucket key := fun w =>
    match ObjectStore.get bucket key w.store with
    | .ok content store => .ok content { w with store }
    | .error halt store => .error halt { w with store }

end Watched

/-! ## The observer is not noticed -/

namespace Call

variable {σ τ α β : Type}

/-- An outcome with the state seen through `view`. -/
def Outcome.map (view : σ → τ) : EStateM.Result Halt σ α → EStateM.Result Halt τ α
  | .ok a s => .ok a (view s)
  | .error halt s => .error halt (view s)

/-- `other` does to what is seen of a state what `call` does to the state. -/
def SeenAs (view : σ → τ) (call : Call σ α) (other : Call τ α) : Prop :=
  ∀ s, other (view s) = Outcome.map view (call s)

namespace SeenAs

variable {view : σ → τ}

theorem pure (a : α) : SeenAs view (Pure.pure a) (Pure.pure a) := fun _ => rfl

theorem modify {f : σ → σ} {g : τ → τ} (h : ∀ s, g (view s) = view (f s)) :
    SeenAs view (modify f) (modify g) := by
  intro s
  show EStateM.Result.ok () (g (view s)) = .ok () (view (f s))
  rw [h]

theorem bind {call : Call σ α} {other : Call τ α} {next : α → Call σ β} {next' : α → Call τ β}
    (h : SeenAs view call other) (hnext : ∀ a, SeenAs view (next a) (next' a)) :
    SeenAs view (call >>= next) (other >>= next') := by
  intro s
  have hs := h s
  cases hc : call s with
  | ok a t =>
    rw [hc] at hs
    rw [bind_of_ok hc, bind_of_ok hs]
    exact hnext a t
  | error halt t =>
    rw [hc] at hs
    rw [bind_of_error hc, bind_of_error hs]
    rfl

end SeenAs

end Call

namespace Watched

variable {σ : Type}

theorem note_seenAs {α : Type} (call : StoreCall) (object : α → Option StoredObject)
    (run : Call σ α) : Call.SeenAs store (note call object run) run := by
  intro w
  unfold note
  cases run w.store <;> rfl

end Watched

namespace Session

variable {σ : Type}

/-- The session without the observer of its store. -/
def unwatched (s : Session (Watched σ)) : Session σ where
  store := s.store.store
  contents := s.contents
  buffer := s.buffer
  names := s.names
  metrics := s.metrics
  limitHits := s.limitHits

open Call (SeenAs)

theorem onStore_seenAs {α : Type} {call : Call (Watched σ) α} {other : Call σ α}
    (h : SeenAs Watched.store call other) : SeenAs unwatched (onStore call) (onStore other) := by
  intro s
  have hs := h s.store
  unfold onStore
  rw [show (unwatched s).store = s.store.store from rfl, hs]
  cases call s.store <;> rfl

theorem nextChunk_seenAs : SeenAs (unwatched (σ := σ)) nextChunk nextChunk := by
  intro s
  unfold nextChunk
  rw [show (unwatched s).buffer = s.buffer from rfl,
    show (unwatched s).contents = s.contents from rfl]
  dsimp only
  cases (Reader.refill s.buffer s.contents).stop <;> rfl

theorem holdsMore_seenAs : SeenAs (unwatched (σ := σ)) holdsMore holdsMore := by
  intro s
  unfold holdsMore
  rw [show (unwatched s).contents = s.contents from rfl]
  rcases s.contents.peek with ⟨_ | _ | _, _⟩ <;> rfl

variable [ObjectStore σ] (bucket destination : String)

theorem writePart_seenAs (number : Nat) (data : Bytes) :
    SeenAs (unwatched (σ := σ)) (writePart bucket destination number data)
      (writePart bucket destination number data) :=
  .bind (.modify fun _ => rfl) fun _ =>
    .bind (onStore_seenAs (Watched.note_seenAs _ _ _)) fun _ =>
      .bind (.modify fun _ => rfl) fun _ => .pure _

theorem writeRest_seenAs (number : Nat) :
    SeenAs (unwatched (σ := σ)) (writeRest bucket destination number)
      (writeRest bucket destination number) := by
  refine .bind (.modify fun _ => rfl) fun _ => .bind (.modify fun _ => rfl) fun _ => ?_
  -- the reader that is handed over is read from the state, which is the same one on both sides
  intro s
  exact SeenAs.bind (onStore_seenAs (Watched.note_seenAs _ _ _))
    (fun _ => .bind (.modify fun _ => rfl) fun _ => .pure _) s

theorem writeParts_seenAs : ∀ (left number : Nat) (written : Written),
    SeenAs (unwatched (σ := σ)) (writeParts bucket destination left number written)
      (writeParts bucket destination left number written)
  | 0, number, written => by
    refine .bind holdsMore_seenAs fun more => ?_
    cases more
    · exact .pure _
    · exact .bind (writeRest_seenAs bucket destination number) fun _ => .pure _
  | left + 1, number, written => by
    refine .bind nextChunk_seenAs fun data => ?_
    by_cases hend : 1 < number ∧ data = []
    · rw [if_pos hend, if_pos hend]
      exact .pure _
    · rw [if_neg hend, if_neg hend]
      exact .bind (writePart_seenAs bucket destination number data) fun object =>
        writeParts_seenAs left (number + 1) (written.add object)

/-- A session on a watched store runs as one on the store. -/
theorem run_seenAs :
    SeenAs (unwatched (σ := σ)) (run bucket destination) (run bucket destination) := by
  refine .bind (writeParts_seenAs bucket destination _ _ _) fun written => ?_
  cases written with
  | single object => exact .pure _
  | nothing | several =>
    refine .bind (.modify fun _ => rfl) fun _ => ?_
    intro s
    exact onStore_seenAs (Watched.note_seenAs _ _ _) s

end Session

namespace Uploader

variable {σ : Type}

/-- A metered store under observation from here on. -/
def watch (m : Metered σ) : Metered (Watched σ) := ⟨⟨m.store, []⟩, m.metrics⟩

/-- An upload to a watched store ends as one to the store, and leaves the same store, counters and
uploader. -/
theorem upload_watched [ObjectStore σ] (u : Uploader) (request : UploadRequest) (m : Metered σ) :
    u.upload request m =
      ((u.upload request (watch m)).1, (u.upload request (watch m)).2.1,
        ⟨(u.upload request (watch m)).2.2.store.store,
          (u.upload request (watch m)).2.2.metrics⟩) := by
  have hrun := Session.run_seenAs request.bucket request.destination (u.session request (watch m))
  have hsession : Session.unwatched (u.session request (watch m)) = u.session request m := rfl
  rw [hsession] at hrun
  unfold upload
  rw [hrun]
  rcases Session.run request.bucket request.destination (u.session request (watch m)) with
    ⟨_, _⟩ | ⟨_ | _, _⟩ <;> rfl

end Uploader

end ChunkedUpload
