import ChunkedUpload.Proofs.Storage.Histories

/-!
# Calls in step

Two calls are in step if from related states they come to the same and leave related states again.
Calls that are put together from calls in step are in step (`InStep.bind`, `InStep.onFailure`), and
`Agree.bind` follows one run where the second calls are in step only after what the first ones
answered. Two runs stay `Together` if what they leave is told apart by whether they have answered.
-/

namespace ChunkedUpload

namespace Call

variable {σ τ α β : Type} {R : σ → τ → Prop}

namespace Agree

/-- Both calls answered, or neither did. -/
theorem cases {x : EStateM.Result Halt σ α} {y : EStateM.Result Halt τ α} (h : Agree R x y) :
    (∃ a s t, x = .ok a s ∧ y = .ok a t ∧ R s t) ∨
      ∃ halt s t, x = .error halt s ∧ y = .error halt t ∧ R s t := by
  obtain ⟨houtcome, hfinal⟩ := h
  cases x <;> cases y <;> cases houtcome
  · exact .inl ⟨_, _, _, rfl, rfl, hfinal⟩
  · exact .inr ⟨_, _, _, rfl, rfl, hfinal⟩

variable {call : Call σ α} {call' : Call τ α} {s : σ} {t : τ}

theorem bind {next : α → Call σ β} {next' : α → Call τ β} (h : Agree R (call s) (call' t))
    (hnext : ∀ a s' t', call s = .ok a s' → R s' t' → Agree R (next a s') (next' a t')) :
    Agree R ((call >>= next) s) ((call' >>= next') t) := by
  rcases h.cases with ⟨a, s', t', hc, hc', hst'⟩ | ⟨halt, s', t', hc, hc', hst'⟩
  · rw [bind_of_ok hc, bind_of_ok hc']
    exact hnext a s' t' hc hst'
  · rw [bind_of_error hc, bind_of_error hc']
    exact ⟨rfl, hst'⟩

theorem modify_bind {f : σ → σ} {f' : τ → τ} {next : Unit → Call σ β} {next' : Unit → Call τ β}
    (h : Agree R (next () (f s)) (next' () (f' t))) :
    Agree R ((modify f >>= next) s) ((modify f' >>= next') t) := h

theorem get_bind {next : σ → Call σ β} {next' : τ → Call τ β}
    (h : Agree R (next s s) (next' t t)) :
    Agree R ((MonadState.get >>= next) s) ((MonadState.get >>= next') t) := h

theorem onFailure {undo : σ → σ} {undo' : τ → τ} (h : Agree R (call s) (call' t))
    (hundo : ∀ s t, R s t → R (undo s) (undo' t)) :
    Agree R (Call.onFailure undo call s) (Call.onFailure undo' call' t) := by
  rcases h.cases with ⟨a, s', t', hc, hc', hst'⟩ | ⟨halt, s', t', hc, hc', hst'⟩
  · rw [onFailure_of_ok hc, onFailure_of_ok hc']
    exact ⟨rfl, hst'⟩
  · cases halt with
    | failed error =>
      rw [onFailure_of_failed hc, onFailure_of_failed hc']
      exact ⟨rfl, hundo s' t' hst'⟩
    | abandoned =>
      rw [onFailure_of_abandoned hc, onFailure_of_abandoned hc']
      exact ⟨rfl, hst'⟩

end Agree

/-- From related states, two calls come to the same and leave related states. -/
def InStep (R : σ → τ → Prop) (call : Call σ α) (call' : Call τ α) : Prop :=
  ∀ s t, R s t → Agree R (call s) (call' t)

namespace InStep

variable {call : Call σ α} {call' : Call τ α}

theorem pure (a : α) : InStep R (Pure.pure a) (Pure.pure a) := fun _ _ h => ⟨rfl, h⟩

theorem throw (halt : Halt) :
    InStep R (MonadExcept.throw halt : Call σ α) (MonadExcept.throw halt : Call τ α) :=
  fun _ _ h => ⟨rfl, h⟩

theorem ofExcept (result : Except StorageError α) :
    InStep R (Call.ofExcept result) (Call.ofExcept result) := by
  cases result with
  | ok a => exact .pure a
  | error error => exact .throw _

theorem bind {next : α → Call σ β} {next' : α → Call τ β} (h : InStep R call call')
    (hnext : ∀ a, InStep R (next a) (next' a)) : InStep R (call >>= next) (call' >>= next') :=
  fun s t hst => (h s t hst).bind fun a s' t' _ hst' => hnext a s' t' hst'

theorem onFailure {undo : σ → σ} {undo' : τ → τ} (h : InStep R call call')
    (hundo : ∀ s t, R s t → R (undo s) (undo' t)) :
    InStep R (Call.onFailure undo call) (Call.onFailure undo' call') :=
  fun s t hst => (h s t hst).onFailure hundo

/-- Every call is in step with itself. -/
theorem refl (call : Call σ α) : InStep Eq call call := by
  rintro s _ rfl
  exact ⟨rfl, rfl⟩

end InStep

/-- Both calls have answered the same, `a`, and left states in `R a`, or neither has, for the same
reason, and they left states in `R'`. -/
inductive Together (R : α → σ → τ → Prop) (R' : σ → τ → Prop) :
    EStateM.Result Halt σ α → EStateM.Result Halt τ α → Prop
  | ok (a : α) {s : σ} {t : τ} : R a s t → Together R R' (.ok a s) (.ok a t)
  | error (halt : Halt) {s : σ} {t : τ} : R' s t → Together R R' (.error halt s) (.error halt t)

theorem Agree.together {R' : σ → τ → Prop} {x : EStateM.Result Halt σ α}
    {y : EStateM.Result Halt τ α} (h : Agree R x y) (hR : ∀ s t, R s t → R' s t) :
    Together (fun _ => R) R' x y := by
  rcases h.cases with ⟨a, s, t, rfl, rfl, hst⟩ | ⟨halt, s, t, rfl, rfl, hst⟩
  · exact .ok a hst
  · exact .error halt (hR s t hst)

theorem Together.bind {Q : α → σ → τ → Prop} {call : Call σ α} {call' : Call τ α} {s : σ} {t : τ}
    {next : α → Call σ β} {next' : α → Call τ β} (h : Together Q R (call s) (call' t))
    (hnext : ∀ a s' t', Q a s' t' → Agree R (next a s') (next' a t')) :
    Agree R ((call >>= next) s) ((call' >>= next') t) := by
  generalize hx : call s = x at h
  generalize hy : call' t = y at h
  cases h with
  | ok a hst =>
    rw [bind_of_ok hx, bind_of_ok hy]
    exact hnext a _ _ hst
  | error halt hst =>
    rw [bind_of_error hx, bind_of_error hy]
    exact ⟨rfl, hst⟩

end Call

end ChunkedUpload
