-- SUMMARY: Runs of steps that may fail: how their results split, and the states in which they end.
import Chainstate.Engine

/-!
# Runs of steps

A step of a validation reads and writes a state and may fail; a failed step keeps what it wrote.
The lemmas here take a run apart. `step_bind_ok` and its companions turn "these steps succeeded"
into the successes of the single steps, and `endState` is the state in which a run ends, whatever
its result.
-/

namespace Chainstate

/-! ## Checks without a state -/

section Checks

variable {ε ε' α β : Type}

@[simp] theorem check_bind_ok {x : Except ε α} {f : α → Except ε β} {b : β} :
    (x >>= f) = .ok b ↔ ∃ a, x = .ok a ∧ f a = .ok b := by
  cases x with
  | error e => simp [bind, Except.bind]
  | ok a => simp [bind, Except.bind]

@[simp] theorem check_pure_ok {a b : α} : (pure a : Except ε α) = .ok b ↔ a = b := by
  simp [pure, Except.pure]

@[simp] theorem check_mapError_ok {x : Except ε α} {g : ε → ε'} {a : α} :
    x.mapError g = .ok a ↔ x = .ok a := by
  cases x with
  | error e =>
    change Except.error (g e) = .ok a ↔ Except.error e = .ok a
    simp
  | ok b =>
    change Except.ok b = .ok a ↔ Except.ok b = .ok a
    simp

/-- A guarded throw passes where its guard does not hold. -/
theorem check_guard_ok {c : Prop} [Decidable c] {e : ε} {f : α → Except ε β} {y : Except ε β}
    {b : β} : (if c then throw e >>= f else y) = .ok b ↔ ¬c ∧ y = .ok b := by
  by_cases hc : c
  · simp [hc]
  · simp [hc]

end Checks

/-! ## Successful runs -/

section Runs

variable {ε ε' σ α β : Type}

theorem step_bind_ok {x : EStateM ε σ α} {f : α → EStateM ε σ β} {s s' : σ} {b : β} :
    (x >>= f) s = .ok b s' ↔ ∃ a s₁, x s = .ok a s₁ ∧ f a s₁ = .ok b s' := by
  change EStateM.bind x f s = _ ↔ _
  unfold EStateM.bind
  cases x s with
  | ok a s₁ =>
    constructor
    · intro h
      exact ⟨a, s₁, rfl, h⟩
    · rintro ⟨a', s₂, h, hf⟩
      cases h
      exact hf
  | error e s₁ => simp

/-- A sequence goes on from where its first part succeeded. -/
theorem step_bind_of_ok {x : EStateM ε σ α} {f : α → EStateM ε σ β} {s s₁ : σ} {a : α}
    (h : x s = .ok a s₁) : (x >>= f) s = f a s₁ := by
  change EStateM.bind x f s = _
  unfold EStateM.bind
  rw [h]

/-- Steps that start alike and go on alike from there do the same. -/
theorem step_bind_congr {x y : EStateM ε σ α} {f g : α → EStateM ε σ β} {s : σ} (h : x s = y s)
    (hfg : ∀ a s₁, y s = .ok a s₁ → f a s₁ = g a s₁) : (x >>= f) s = (y >>= g) s := by
  change EStateM.bind x f s = EStateM.bind y g s
  unfold EStateM.bind
  rw [h]
  cases hy : y s with
  | ok a s₁ => exact hfg a s₁ hy
  | error e s₁ => rfl

theorem step_get_bind (f : σ → EStateM ε σ β) (s : σ) : (get >>= f) s = f s s := rfl

theorem step_bind_assoc {γ : Type} (x : EStateM ε σ α) (f : α → EStateM ε σ β)
    (g : β → EStateM ε σ γ) : (x >>= f) >>= g = x >>= fun a => f a >>= g := by
  funext s
  change EStateM.bind (EStateM.bind x f) g s = EStateM.bind x (fun a => EStateM.bind (f a) g) s
  unfold EStateM.bind
  cases x s with
  | ok a s₁ => rfl
  | error e s₁ => rfl

theorem step_bind_error {x : EStateM ε σ α} {f : α → EStateM ε σ β} {s s' : σ} {e : ε} :
    (x >>= f) s = .error e s' ↔
      x s = .error e s' ∨ ∃ a s₁, x s = .ok a s₁ ∧ f a s₁ = .error e s' := by
  change EStateM.bind x f s = _ ↔ _
  unfold EStateM.bind
  cases x s with
  | ok a s₁ =>
    constructor
    · intro h
      exact .inr ⟨a, s₁, rfl, h⟩
    · rintro (h | ⟨a', s₂, h, hf⟩)
      · cases h
      · cases h
        exact hf
  | error e' s₁ => simp

@[simp] theorem step_pure_ok {a b : α} {s s' : σ} :
    (pure a : EStateM ε σ α) s = .ok b s' ↔ a = b ∧ s = s' := by
  change EStateM.Result.ok a s = .ok b s' ↔ _
  simp

@[simp] theorem step_throw_ok {e : ε} {b : α} {s s' : σ} :
    ¬ (throw e : EStateM ε σ α) s = .ok b s' := by
  change ¬ EStateM.Result.error e s = .ok b s'
  simp

/-- A guarded throw passes where its guard does not hold. -/
theorem step_guard_ok {c : Prop} [Decidable c] {e : ε} {f : α → EStateM ε σ β}
    {y : EStateM ε σ β} {s s' : σ} {b : β} :
    (if c then throw e >>= f else y) s = .ok b s' ↔ ¬c ∧ y s = .ok b s' := by
  by_cases hc : c
  · simp only [hc, if_true, not_true_eq_false, false_and, iff_false, step_bind_ok]
    rintro ⟨a, s₁, h, -⟩
    exact step_throw_ok h
  · simp [hc]

@[simp] theorem step_get_ok {s s' t : σ} :
    (get : EStateM ε σ σ) s = .ok t s' ↔ s = t ∧ s = s' := by
  change EStateM.Result.ok s s = .ok t s' ↔ _
  simp

@[simp] theorem step_set_ok {t s s' : σ} {u : PUnit} :
    (set t : EStateM ε σ PUnit) s = .ok u s' ↔ t = s' := by
  change EStateM.Result.ok PUnit.unit t = .ok u s' ↔ _
  simp

@[simp] theorem step_modify_ok {g : σ → σ} {s s' : σ} {u : PUnit} :
    (modify g : EStateM ε σ PUnit) s = .ok u s' ↔ g s = s' := by
  change EStateM.Result.ok PUnit.unit (g s) = .ok u s' ↔ _
  simp

@[simp] theorem step_adaptExcept_ok {f : ε → ε'} {x : EStateM ε σ α} {s s' : σ} {a : α} :
    x.adaptExcept f s = .ok a s' ↔ x s = .ok a s' := by
  unfold EStateM.adaptExcept
  cases x s with
  | ok b s₁ => simp
  | error e s₁ => simp

end Runs

/-! ## End states -/

def succeeded {ε σ α : Type} : EStateM.Result ε σ α → Bool
  | .ok _ _ => true
  | .error _ _ => false

/-- The state in which a run ends, whatever its result. -/
def endState {ε σ α : Type} : EStateM.Result ε σ α → σ
  | .ok _ s => s
  | .error _ s => s

section EndStates

variable {ε ε' σ α β : Type}

@[simp] theorem endState_ok (a : α) (s : σ) : endState (.ok a s : EStateM.Result ε σ α) = s := rfl

@[simp] theorem endState_error (e : ε) (s : σ) :
    endState (.error e s : EStateM.Result ε σ α) = s := rfl

@[simp] theorem endState_adaptExcept (f : ε → ε') (x : EStateM ε σ α) (s : σ) :
    endState (x.adaptExcept f s) = endState (x s) := by
  unfold EStateM.adaptExcept
  cases x s with
  | ok a s₁ => rfl
  | error e s₁ => rfl

theorem eq_ok_endState {r : EStateM.Result ε σ Unit} (h : succeeded r = true) :
    r = .ok () (endState r) := by
  cases r with
  | ok u s => rfl
  | error e s => cases h

/-- What a run has given, where it has succeeded. -/
def value? {ε σ α : Type} : EStateM.Result ε σ α → Option α
  | .ok a _ => some a
  | .error _ _ => none

theorem eq_ok_of_value? {r : EStateM.Result ε σ α} {a : α} (h : value? r = some a) :
    r = .ok a (endState r) := by
  cases r with
  | ok a' s =>
    cases h
    rfl
  | error e s => cases h

/-- Why a run has failed, where it has. -/
def failure? {ε σ α : Type} : EStateM.Result ε σ α → Option ε
  | .ok _ _ => none
  | .error e _ => some e

theorem eq_error_endState {r : EStateM.Result ε σ α} {e : ε} (h : failure? r = some e) :
    r = .error e (endState r) := by
  cases r with
  | ok a s => cases h
  | error e' s =>
    cases h
    rfl

/-- A sequence ends where its second part ends, or where its first part failed. -/
theorem endState_bind (x : EStateM ε σ α) (f : α → EStateM ε σ β) (s : σ) :
    endState ((x >>= f) s) = match x s with
      | .ok a s₁ => endState (f a s₁)
      | .error _ s₁ => s₁ := by
  change endState (EStateM.bind x f s) = _
  unfold EStateM.bind
  cases x s with
  | ok a s₁ => rfl
  | error e s₁ => rfl

end EndStates

/-! ## Invariants -/

/-- The steps keep what holds of a state, whether they succeed or fail. -/
def Preserves {ε σ α : Type} (I : σ → Prop) (x : EStateM ε σ α) : Prop :=
  ∀ s, I s → I (endState (x s))

section Invariants

variable {ε ε' σ α β : Type} {I : σ → Prop}

theorem preserves_pure (v : α) : Preserves I (pure v : EStateM ε σ α) := fun _ hs => hs

theorem Preserves.bind {x : EStateM ε σ α} {f : α → EStateM ε σ β} (hx : Preserves I x)
    (hf : ∀ v, Preserves I (f v)) : Preserves I (x >>= f) := by
  intro s hs
  have hmid := hx s hs
  rw [endState_bind]
  cases hrun : x s with
  | ok v s₁ =>
    rw [hrun] at hmid
    exact hf v s₁ hmid
  | error f s₁ =>
    rw [hrun] at hmid
    exact hmid

theorem Preserves.adaptExcept {x : EStateM ε σ α} (hx : Preserves I x) (f : ε → ε') :
    Preserves I (x.adaptExcept f) := by
  intro s hs
  rw [endState_adaptExcept]
  exact hx s hs

end Invariants

/-! ## Failures -/

/-- A run that fails does so for a reason among some. -/
def FailsIn {ε σ α : Type} (E : ε → Prop) (r : EStateM.Result ε σ α) : Prop :=
  ∀ e s, r = .error e s → E e

section Failures

variable {ε ε' σ α β : Type} {E : ε → Prop}

theorem failsIn_ok (a : α) (s : σ) : FailsIn E (.ok a s : EStateM.Result ε σ α) :=
  fun _ _ h => nomatch h

theorem failsIn_pure (a : α) (s : σ) : FailsIn E ((pure a : EStateM ε σ α) s) := failsIn_ok a s

theorem failsIn_throw {e : ε} (h : E e) (s : σ) : FailsIn E ((throw e : EStateM ε σ α) s) := by
  rintro _ _ ⟨⟩
  exact h

theorem FailsIn.bind {x : EStateM ε σ α} {f : α → EStateM ε σ β} {s : σ} (hx : FailsIn E (x s))
    (hf : ∀ a s₁, x s = .ok a s₁ → FailsIn E (f a s₁)) : FailsIn E ((x >>= f) s) := by
  intro e s' h
  rcases step_bind_error.1 h with h | ⟨a, s₁, hok, h⟩
  · exact hx e s' h
  · exact hf a s₁ hok e s' h

/-- Steps that go on from the current state fail as they do there. -/
theorem failsIn_get_bind {f : σ → EStateM ε σ β} {s : σ} (h : FailsIn E (f s s)) :
    FailsIn E ((get >>= f) s) := h

theorem FailsIn.adaptExcept {E' : ε' → Prop} {f : ε → ε'} {x : EStateM ε σ α} {s : σ}
    (h : FailsIn E (x s)) (hf : ∀ e, E e → E' (f e)) : FailsIn E' (x.adaptExcept f s) := by
  intro e' s' hrun
  unfold EStateM.adaptExcept at hrun
  cases hx : x s with
  | ok a s₁ =>
    rw [hx] at hrun
    cases hrun
  | error e s₁ =>
    rw [hx] at hrun
    cases hrun
    exact hf e (h e _ hx)

end Failures

end Chainstate
