import ChunkedUpload.Storage.Store

/-!
# How a call ends

`Ends call s good bad`: from state `s` the call ends with a value and a state in `good`, or without
a value and with a state in `bad`. Calls are taken apart by `Ends.bind`, and `Ends` is stated of
each building block once. `bind_of_ok` and `bind_of_error` follow one known run instead.
-/

namespace ChunkedUpload.Call

variable {σ α β : Type}

/-- The state that a call leaves, however it ends. -/
def final : EStateM.Result Halt σ α → σ
  | .ok _ s => s
  | .error _ s => s

/-- From `s`, the call ends with a value in `good` or without one in `bad`. -/
def Ends (call : Call σ α) (s : σ) (good : α → σ → Prop) (bad : Halt → σ → Prop) : Prop :=
  match call s with
  | .ok a s => good a s
  | .error halt s => bad halt s

/-- From `s`, the call is dropped before it ends. -/
def Abandons (call : Call σ α) (s : σ) : Prop := ∃ t, call s = .error .abandoned t

/-! ## Following one run -/

theorem bind_of_ok {call : Call σ α} {next : α → Call σ β} {s t : σ} {a : α}
    (h : call s = .ok a t) : (call >>= next) s = next a t := by
  show EStateM.bind call next s = _
  rw [EStateM.bind, h]

theorem bind_of_error {call : Call σ α} {next : α → Call σ β} {s t : σ} {halt : Halt}
    (h : call s = .error halt t) : (call >>= next) s = .error halt t := by
  show EStateM.bind call next s = _
  rw [EStateM.bind, h]

theorem onFailure_of_ok {call : Call σ α} {undo : σ → σ} {s t : σ} {a : α}
    (h : call s = .ok a t) : onFailure undo call s = .ok a t := by
  rw [onFailure, h]

theorem onFailure_of_failed {call : Call σ α} {undo : σ → σ} {s t : σ} {error : StorageError}
    (h : call s = .error (.failed error) t) :
    onFailure undo call s = .error (.failed error) (undo t) := by
  rw [onFailure, h]

theorem onFailure_of_abandoned {call : Call σ α} {undo : σ → σ} {s t : σ}
    (h : call s = .error .abandoned t) : onFailure undo call s = .error .abandoned t := by
  rw [onFailure, h]

theorem pure_bind (a : α) (next : α → Call σ β) : (Pure.pure a >>= next) = next a := rfl

theorem get_bind (next : σ → Call σ β) (s : σ) : (MonadState.get >>= next) s = next s s := rfl

theorem modify_bind (f : σ → σ) (next : Unit → Call σ β) (s : σ) :
    (modify f >>= next) s = next () (f s) := rfl

theorem ofExcept_ok (a : α) : ofExcept (.ok a) = (pure a : Call σ α) := rfl

/-! ## Every way a call can end -/

namespace Ends

variable {call : Call σ α} {next : α → Call σ β} {s : σ} {good : α → σ → Prop}
  {bad : Halt → σ → Prop}

theorem of_ok {a : α} {t : σ} (h : call s = .ok a t) (ht : good a t) : Ends call s good bad := by
  rw [Ends, h]
  exact ht

/-- Every call ends somehow. -/
theorem somehow (call : Call σ α) (s : σ) : Ends call s (fun _ _ => True) fun _ _ => True := by
  unfold Ends
  split <;> trivial

/-- A call that cannot but answer. -/
theorem exists_ok (h : Ends call s good fun _ _ => False) :
    ∃ a t, call s = .ok a t ∧ good a t := by
  unfold Ends at h
  cases hc : call s with
  | ok a t =>
    rw [hc] at h
    exact ⟨a, t, rfl, h⟩
  | error halt t =>
    rw [hc] at h
    exact h.elim

/-- A call that cannot answer. -/
theorem exists_error (h : Ends call s (fun _ _ => False) bad) :
    ∃ halt t, call s = .error halt t ∧ bad halt t := by
  unfold Ends at h
  cases hc : call s with
  | ok a t =>
    rw [hc] at h
    exact h.elim
  | error halt t =>
    rw [hc] at h
    exact ⟨halt, t, rfl, h⟩

theorem mono {good' : α → σ → Prop} {bad' : Halt → σ → Prop} (h : Ends call s good bad)
    (hgood : ∀ a t, good a t → good' a t) (hbad : ∀ halt t, bad halt t → bad' halt t) :
    Ends call s good' bad' := by
  unfold Ends at h ⊢
  split at h
  · exact hgood _ _ h
  · exact hbad _ _ h

theorem bind {goodNext : β → σ → Prop} (h : Ends call s good bad)
    (hnext : ∀ a t, good a t → Ends (next a) t goodNext bad) :
    Ends (call >>= next) s goodNext bad := by
  unfold Ends at h ⊢
  cases hc : call s with
  | ok a t =>
    rw [hc] at h
    rw [bind_of_ok hc]
    exact hnext a t h
  | error halt t =>
    rw [hc] at h
    rw [bind_of_error hc]
    exact h

/-- The same, where the first call has an own account of how it ends badly. -/
theorem andThen {bad' : Halt → σ → Prop} {goodNext : β → σ → Prop} (h : Ends call s good bad')
    (hbad : ∀ halt t, bad' halt t → bad halt t)
    (hnext : ∀ a t, good a t → Ends (next a) t goodNext bad) :
    Ends (call >>= next) s goodNext bad :=
  bind (h.mono (fun _ _ h => h) hbad) hnext

/-- Two accounts of one call. -/
theorem and {good' : α → σ → Prop} {bad' : Halt → σ → Prop} (h : Ends call s good bad)
    (h' : Ends call s good' bad') :
    Ends call s (fun a t => good a t ∧ good' a t) (fun halt t => bad halt t ∧ bad' halt t) := by
  unfold Ends at *
  cases hc : call s <;> rw [hc] at h h' <;> exact ⟨h, h'⟩

theorem get_bind {next : σ → Call σ β} {goodNext : β → σ → Prop}
    (h : Ends (next s) s goodNext bad) : Ends (MonadState.get >>= next) s goodNext bad := h

theorem modify_bind {f : σ → σ} {next : Unit → Call σ β} {goodNext : β → σ → Prop}
    (h : Ends (next ()) (f s) goodNext bad) : Ends (modify f >>= next) s goodNext bad := h

theorem pure {a : α} (h : good a s) : Ends (Pure.pure a) s good bad := h

theorem fail {error : StorageError} (h : bad (.failed error) s) :
    Ends (Call.fail error) s good bad := h

theorem throw {halt : Halt} (h : bad halt s) : Ends (MonadExcept.throw halt) s good bad := h

theorem ofExcept {outcome : Except StorageError α} (hgood : ∀ a, outcome = .ok a → good a s)
    (hbad : ∀ error, outcome = .error error → bad (.failed error) s) :
    Ends (Call.ofExcept outcome) s good bad := by
  cases outcome with
  | ok a => exact hgood a rfl
  | error error => exact hbad error rfl

theorem ofExcept_bind {outcome : Except StorageError α} {goodNext : β → σ → Prop}
    (hnext : ∀ a, outcome = .ok a → Ends (next a) s goodNext bad)
    (hbad : ∀ error, outcome = .error error → bad (.failed error) s) :
    Ends (Call.ofExcept outcome >>= next) s goodNext bad := by
  cases outcome with
  | ok a => exact hnext a rfl
  | error error => exact hbad error rfl

theorem onFailure {undo : σ → σ} {bad' : Halt → σ → Prop} (h : Ends call s good bad')
    (hfailed : ∀ error t, bad' (.failed error) t → bad (.failed error) (undo t))
    (habandoned : ∀ t, bad' .abandoned t → bad .abandoned t) :
    Ends (onFailure undo call) s good bad := by
  unfold Ends Call.onFailure at *
  cases hc : call s with
  | ok a t => rwa [hc] at h
  | error halt t =>
    rw [hc] at h
    cases halt with
    | failed error => exact hfailed error t h
    | abandoned => exact habandoned t h

theorem not_abandons (h : Ends call s good fun halt _ => halt ≠ .abandoned) :
    ¬ Abandons call s := by
  rintro ⟨t, ht⟩
  rw [Ends, ht] at h
  exact h rfl

theorem of_abandons (h : Abandons call s) :
    Ends call s (fun _ _ => False) fun halt _ => halt = .abandoned := by
  obtain ⟨t, ht⟩ := h
  rw [Ends, ht]

/-- A call that is not abandoned ends badly with an error only. -/
theorem of_not_abandons (h : Ends call s good bad) (habandons : ¬ Abandons call s) :
    Ends call s good fun halt t => halt ≠ .abandoned ∧ bad halt t := by
  unfold Ends at h ⊢
  cases hc : call s with
  | ok a t =>
    rw [hc] at h
    exact h
  | error halt t =>
    rw [hc] at h
    refine ⟨?_, h⟩
    rintro rfl
    exact habandons ⟨t, hc⟩

theorem final {P : σ → Prop} (h : Ends call s (fun _ => P) (fun _ => P)) :
    P (Call.final (call s)) := by
  unfold Ends at h
  unfold Call.final
  cases hc : call s <;> rw [hc] at h <;> exact h

end Ends

end ChunkedUpload.Call
