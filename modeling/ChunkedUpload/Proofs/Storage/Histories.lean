import ChunkedUpload.Proofs.Reader.Delivery
import ChunkedUpload.Proofs.Storage.Ending
import ChunkedUpload.Proofs.Storage.Requests
import ChunkedUpload.Storage.ObjectMap

/-!
# Histories of requests

`answers` makes requests one after another, whatever each of them answers, and lists the answers.
Two stores answer a history alike if a relation between their states and the requests still to come
is kept by every request, and implies that the next answer is the same (`answers_eq_of_agree`). The
plainest store, a map from addresses to bytes, is the one that others are compared with.
-/

namespace ChunkedUpload

/-! ## The plain store -/

namespace ObjectMap

/-- Stores an object and answers it. -/
def put (bucket key : String) (content : Bytes) : Call ObjectMap StoredObject := fun m =>
  .ok ⟨bucket, key, content.length⟩ (m.insert (bucket, key) content)

def createFromReader (bucket key : String) (contents : Reader) : Call ObjectMap StoredObject :=
  let filled := contents.drain
  match filled.stop with
  | .done => put bucket key filled.taken
  | .failed error => Call.fail (.io error)
  | .stalled => throw .abandoned

def compose (bucket : String) (sources : List String) (destination : String) :
    Call ObjectMap StoredObject := do
  Call.ofExcept (checkSourceCount sources.length)
  let content ← Call.ofExcept ((← get).gather bucket sources)
  put bucket destination content

def read (bucket key : String) : Call ObjectMap Bytes := do
  Call.ofExcept (((← get).get? (bucket, key)).elim (.error (.notFound key)) .ok)

end ObjectMap

/-! Each call in one equation. -/

theorem ObjectMap.createFromReader_eq (bucket key : String) {contents : Reader}
    (h : contents.Steady) :
    createFromReader bucket key contents = put bucket key contents.content := by
  obtain ⟨rest, hdrain, -, -⟩ := h.drain
  unfold createFromReader
  rw [hdrain]

theorem ObjectMap.compose_eq (m : ObjectMap) (bucket : String) (sources : List String)
    (destination : String) :
    compose bucket sources destination m =
      match checkSourceCount sources.length with
      | .error error => .error (.failed error) m
      | .ok () =>
        match m.gather bucket sources with
        | .error error => .error (.failed error) m
        | .ok content => put bucket destination content m := by
  rw [compose]
  cases checkSourceCount sources.length with
  | error error => rfl
  | ok =>
    rw [Call.ofExcept_ok, Call.pure_bind, Call.get_bind]
    cases m.gather bucket sources <;> rfl

theorem ObjectMap.read_eq (m : ObjectMap) (bucket key : String) :
    read bucket key m =
      match m.get? (bucket, key) with
      | some content => .ok content m
      | none => .error (.failed (.notFound key)) m := by
  rw [read, Call.get_bind]
  cases m.get? (bucket, key) <;> rfl

instance : ObjectStore ObjectMap where
  create bucket key data _ := ObjectMap.put bucket key data
  createFromReader := ObjectMap.createFromReader
  compose := ObjectMap.compose
  delete bucket key := modify (·.erase (bucket, key))
  get := ObjectMap.read

/-! ## Histories -/

namespace Call

variable {σ τ α β : Type} {R : σ → τ → Prop}

/-- What a call came to, without the state it left. -/
def outcome : EStateM.Result Halt σ α → Except Halt α
  | .ok a _ => .ok a
  | .error halt _ => .error halt

/-- Two calls came to the same and left related states. -/
structure Agree (R : σ → τ → Prop) (x : EStateM.Result Halt σ α) (y : EStateM.Result Halt τ α) :
    Prop where
  outcome : outcome x = outcome y
  final : R (final x) (final y)

theorem outcome_map (f : α → β) (call : Call σ α) (s : σ) :
    outcome ((f <$> call) s) = (outcome (call s)).map f := by
  show outcome (EStateM.map f call s) = _
  rw [EStateM.map]
  cases call s <;> rfl

theorem final_map (f : α → β) (call : Call σ α) (s : σ) :
    final ((f <$> call) s) = final (call s) := by
  show final (EStateM.map f call s) = _
  rw [EStateM.map]
  cases call s <;> rfl

theorem Agree.map {call : Call σ α} {call' : Call τ α} {s : σ} {t : τ}
    (h : Agree R (call s) (call' t)) (f : α → β) : Agree R ((f <$> call) s) ((f <$> call') t) := by
  refine ⟨?_, ?_⟩
  · rw [outcome_map, outcome_map, h.outcome]
  · rw [final_map, final_map]
    exact h.final

/-- A call answers if the other one does. -/
theorem Agree.ends {call : Call σ α} {s : σ} {t : τ} {a : α} (h : Agree R (call s) (.ok a t)) :
    Ends call s (fun _ s' => R s' t) fun _ _ => False := by
  obtain ⟨houtcome, hfinal⟩ := h
  unfold Ends
  cases hcall : call s with
  | ok b s' =>
    rw [hcall] at hfinal
    exact hfinal
  | error halt s' =>
    rw [hcall] at houtcome
    cases houtcome

end Call

variable {σ τ : Type} [ObjectStore σ] [ObjectStore τ]

/-- The answers to requests that are made one after another. -/
def answers : List Request → σ → List (Except Halt Answer)
  | [], _ => []
  | request :: later, s =>
    Call.outcome (request.run s) :: answers later (Call.final (request.run s))

/-- The states that a store is in before each request and at the end. -/
def states : List Request → σ → List σ
  | [], s => [s]
  | request :: later, s => s :: states later (Call.final (request.run s))

/-- Stores whose states stay related answer alike. -/
theorem answers_eq_of_agree {Related : List Request → σ → τ → Prop}
    (hstep : ∀ {request : Request} {later : List Request} {s : σ} {t : τ},
      Related (request :: later) s t →
        Call.Agree (Related later) (request.run s) (request.run t)) :
    ∀ {requests : List Request} {s : σ} {t : τ}, Related requests s t →
      answers requests s = answers requests t := by
  intro requests
  induction requests with
  | nil => exact fun _ => rfl
  | cons request later ih =>
    intro s t h
    obtain ⟨houtcome, hfinal⟩ := hstep h
    rw [answers, answers, houtcome, ih hfinal]

/-- If every request either keeps the stores related, or comes to something else on one of them,
then they answer alike just where none comes to something else. -/
theorem answers_eq_iff {Related : List Request → σ → τ → Prop} {fit : τ → Request → Prop}
    (hagree : ∀ {request : Request} {later : List Request} {s : σ} {t : τ},
      Related (request :: later) s t → fit t request →
        Call.Agree (Related later) (request.run s) (request.run t))
    (hdiffer : ∀ {request : Request} {later : List Request} {s : σ} {t : τ},
      Related (request :: later) s t → ¬ fit t request →
        Call.outcome (request.run s) ≠ Call.outcome (request.run t)) :
    ∀ {requests : List Request} {s : σ} {t : τ}, Related requests s t →
      (answers requests s = answers requests t ↔
        ∀ p ∈ requests.zip (states requests t), fit p.2 p.1) := by
  intro requests
  induction requests with
  | nil => exact fun _ => iff_of_true rfl nofun
  | cons request later ih =>
    intro s t h
    rw [answers, answers, List.cons.injEq, states, List.zip_cons_cons, List.forall_mem_cons]
    by_cases hfit : fit t request
    · obtain ⟨houtcome, hfinal⟩ := hagree h hfit
      rw [ih hfinal]
      exact and_congr (iff_of_true houtcome hfit) Iff.rfl
    · exact iff_of_false (fun heq => hdiffer h hfit heq.1) fun hall => hfit hall.1

/-- The addresses that a request is about. -/
def Request.addresses : Request → List Address
  | create bucket key _ _ => [(bucket, key)]
  | createFromReader bucket key _ => [(bucket, key)]
  | compose bucket sources destination => (destination :: sources).map fun key => (bucket, key)
  | delete bucket key => [(bucket, key)]
  | get bucket key => [(bucket, key)]

/-- The addresses that a request writes to. -/
def Request.targets : Request → List Address
  | create bucket key _ _ => [(bucket, key)]
  | createFromReader bucket key _ => [(bucket, key)]
  | compose bucket _ destination => [(bucket, destination)]
  | _ => []

/-- The streams that a request sends. -/
def Request.readers : Request → List Reader
  | createFromReader _ _ contents => [contents]
  | _ => []

end ChunkedUpload
