import Mathlib.Tactic.Common

/-! # Programs that change a state and can throw

A program of `EStateM` that throws keeps the changes it has made. `EStateM.Atomic` programs have
made none: they read and check first, and what they do after their first change never throws.
The inversion lemmas turn an equation on the outcome of a program into those of its steps. -/

namespace EStateM

open MonadExcept (ofExcept)

variable {ε σ α β : Type} {x y : EStateM ε σ α} {f : α → EStateM ε σ β} {s t s' : σ} {e : ε}
variable {p : Prop} {a : α} {g : σ → σ}

instance decidableEqResult [DecidableEq ε] [DecidableEq σ] [DecidableEq α] :
    DecidableEq (Result ε σ α)
  | .ok a s, .ok b t => decidable_of_iff (a = b ∧ s = t) (by simp)
  | .error d s, .error e t => decidable_of_iff (d = e ∧ s = t) (by simp)
  | .ok _ _, .error _ _ => isFalse (by simp)
  | .error _ _, .ok _ _ => isFalse (by simp)

/-- The state a run ends in, whether it returns or throws. -/
def Result.state : Result ε σ α → σ
  | .ok _ s => s
  | .error _ s => s

/-! ## Running the steps of a program -/

@[simp]
theorem pure_apply (a : α) (s : σ) : (pure a : EStateM ε σ α) s = .ok a s := rfl

@[simp]
theorem get_bind_apply (f : σ → EStateM ε σ β) (s : σ) :
    ((MonadState.get : EStateM ε σ σ) >>= f) s = f s s := rfl

@[simp]
theorem modify_apply (g : σ → σ) (s : σ) : (modify g : EStateM ε σ PUnit) s = .ok ⟨⟩ (g s) := rfl

@[simp]
theorem modify_bind_apply (g : σ → σ) (f : PUnit → EStateM ε σ β) (s : σ) :
    ((modify g : EStateM ε σ PUnit) >>= f) s = f ⟨⟩ (g s) := rfl

@[simp]
theorem throw_bind_apply (e : ε) (f : α → EStateM ε σ β) (s : σ) :
    ((throw e : EStateM ε σ α) >>= f) s = .error e s := rfl

theorem ofExcept_bind_apply_of_ok {x : Except ε α} (h : x = .ok a) :
    ((ofExcept x : EStateM ε σ α) >>= f) s = f a s := by
  rw [h]
  rfl

theorem ofExcept_bind_apply_of_error {x : Except ε α} (h : x = .error e) :
    ((ofExcept x : EStateM ε σ α) >>= f) s = .error e s := by
  rw [h]
  rfl

@[simp]
theorem ite_apply [Decidable p] (x y : EStateM ε σ α) (s : σ) :
    (if p then x else y) s = if p then x s else y s := by
  split <;> rfl

theorem tryCatch_apply_of_ok {handle : ε → EStateM ε σ α} (h : x s = .ok a t) :
    (tryCatch x handle : EStateM ε σ α) s = .ok a t := by
  simp only [tryCatch, tryCatchThe, MonadExceptOf.tryCatch, EStateM.tryCatch, h]

theorem tryCatch_rethrow_apply (h : x s = .error e t) :
    (tryCatch x fun e => do modify g; throw e : EStateM ε σ α) s = .error e (g t) := by
  simp only [tryCatch, tryCatchThe, MonadExceptOf.tryCatch, EStateM.tryCatch, h]
  rfl

theorem bind_apply_of_ok (h : x s = .ok a t) : (x >>= f) s = f a t := by
  show (match x s with | .ok a t => f a t | .error e t => .error e t) = _
  rw [h]

theorem bind_apply_of_error (h : x s = .error e t) : (x >>= f) s = .error e t := by
  show (match x s with | .ok a t => f a t | .error e t => .error e t) = _
  rw [h]

theorem bind_eq_ok {b : β} : (x >>= f) s = .ok b s' ↔ ∃ a t, x s = .ok a t ∧ f a t = .ok b s' := by
  show (match x s with | .ok a t => f a t | .error e t => .error e t) = .ok b s' ↔ _
  cases x s with
  | ok a t | error e t => simp

@[simp]
theorem ofExcept_bind_eq_ok {x : Except ε α} {b : β} :
    ((ofExcept x : EStateM ε σ α) >>= f) s = .ok b s' ↔ ∃ a, x = .ok a ∧ f a s = .ok b s' := by
  cases x with
  | ok a =>
    show f a s = .ok b s' ↔ _
    simp
  | error e =>
    show Result.error e s = .ok b s' ↔ _
    simp

@[simp]
theorem ite_error_eq_ok [Decidable p] {r : Result ε σ α} :
    (if p then .error e t else r) = .ok a s' ↔ ¬ p ∧ r = .ok a s' := by
  split
  · rename_i h
    simp [h]
  · rename_i h
    simp [h]

/-! ## Programs whose throws leave no trace -/

/-- The program leaves the state as it is, whether it returns or throws. -/
def ReadOnly (x : EStateM ε σ α) : Prop := ∀ s, (x s).state = s

/-- The program never throws. -/
def Returns (x : EStateM ε σ α) : Prop := ∀ s e t, x s ≠ .error e t

/-- The program leaves the state as it is when it throws. -/
def Atomic (x : EStateM ε σ α) : Prop := ∀ s e t, x s = .error e t → t = s

theorem Returns.atomic (h : Returns x) : Atomic x := fun s e t ht => absurd ht (h s e t)

theorem readOnly_get : ReadOnly (MonadState.get : EStateM ε σ σ) := fun _ => rfl

theorem readOnly_ofExcept (x : Except ε α) : ReadOnly (ofExcept x : EStateM ε σ α) := by
  intro s
  cases x with
  | ok a | error e => rfl

theorem atomic_throw (e : ε) : Atomic (throw e : EStateM ε σ α) := by
  rintro s _ _ ⟨⟩
  rfl

theorem returns_pure (a : α) : Returns (pure a : EStateM ε σ α) := by
  rintro s e t ⟨⟩

theorem returns_modify (g : σ → σ) : Returns (modify g : EStateM ε σ PUnit) := by
  rintro s e t ⟨⟩

theorem Returns.bind (hx : Returns x) (hf : ∀ a, Returns (f a)) : Returns (x >>= f) := by
  intro s e t
  show (match x s with | .ok a u => f a u | .error e u => .error e u) ≠ _
  cases h : x s with
  | ok a u => exact hf a u e t
  | error e' u => exact absurd h (hx s e' u)

/-- A program may begin with steps that only read. -/
theorem ReadOnly.bind_atomic (hx : ReadOnly x) (hf : ∀ a, Atomic (f a)) : Atomic (x >>= f) := by
  intro s e t
  have hs := hx s
  show (match x s with | .ok a u => f a u | .error e u => .error e u) = _ → _
  cases h : x s with
  | ok a u =>
    rw [h] at hs
    obtain rfl : u = s := hs
    exact hf a u e t
  | error e' u =>
    rw [h] at hs
    rintro ⟨⟩
    exact hs

theorem Atomic.get {f : σ → EStateM ε σ β} (hf : ∀ s, Atomic (f s)) :
    Atomic (MonadState.get >>= f) :=
  readOnly_get.bind_atomic hf

theorem Atomic.ofExcept {r : Except ε α} (hf : ∀ a, Atomic (f a)) : Atomic (ofExcept r >>= f) :=
  (readOnly_ofExcept r).bind_atomic hf

theorem Returns.modify {f : PUnit → EStateM ε σ β} (hf : Returns (f ⟨⟩)) :
    Returns (modify g >>= f) :=
  (returns_modify g).bind fun _ => hf

/-- A program may end with steps that never throw. -/
theorem Atomic.bind_returns (hx : Atomic x) (hf : ∀ a, Returns (f a)) : Atomic (x >>= f) := by
  intro s e t
  show (match x s with | .ok a u => f a u | .error e u => .error e u) = _ → _
  cases h : x s with
  | ok a u => exact fun ht => absurd ht (hf a u e t)
  | error e' u =>
    rintro ⟨⟩
    exact hx s e t h

theorem Atomic.ite [Decidable p] (hx : Atomic x) (hy : Atomic y) : Atomic (if p then x else y) := by
  split
  · exact hx
  · exact hy

/-- A check that throws may stand before any atomic program. -/
theorem Atomic.check [Decidable p] {x : EStateM ε σ β} (hx : Atomic x) :
    Atomic (if p then throw e >>= f else x) := by
  split
  · rintro s _ _ ⟨⟩
    rfl
  · exact hx

/-- Where an atomic program ends: in its state of return, or where it began. -/
theorem Atomic.state_induct {P : σ → Prop} (hx : Atomic x) (returned : ∀ a t, x s = .ok a t → P t)
    (unchanged : P s) : P (x s).state := by
  cases h : x s with
  | ok a t => exact returned a t h
  | error e t =>
    rw [hx s e t h]
    exact unchanged

theorem state_bind_pure (x : EStateM ε σ α) (f : α → β) (s : σ) :
    ((x >>= fun a => pure (f a)) s).state = (x s).state := by
  cases h : x s with
  | ok a t => rw [bind_apply_of_ok h, pure_apply]; rfl
  | error e t => rw [bind_apply_of_error h]; rfl

/-! ## Programs that agree up to a relation between states -/

/-- Two outcomes that return the same value or throw the same error, in related states. -/
inductive Result.Agree (R : σ → σ → Prop) : Result ε σ α → Result ε σ α → Prop
  | ok {a : α} {s t : σ} (states : R s t) : Agree R (.ok a s) (.ok a t)
  | error {e : ε} {s t : σ} (states : R s t) : Agree R (.error e s) (.error e t)

/-- From related states the programs have outcomes that agree. -/
def Agree (R : σ → σ → Prop) (x y : EStateM ε σ α) : Prop :=
  ∀ s t, R s t → Result.Agree R (x s) (y t)

section

variable {R : σ → σ → Prop} {f' : α → EStateM ε σ β}

theorem agree_pure (a : α) : Agree R (pure a : EStateM ε σ α) (pure a) :=
  fun _ _ h => Result.Agree.ok h

theorem agree_throw (e : ε) : Agree R (throw e : EStateM ε σ α) (throw e) :=
  fun _ _ h => Result.Agree.error h

theorem agree_ofExcept (x : Except ε α) : Agree R (ofExcept x : EStateM ε σ α) (ofExcept x) := by
  cases x with
  | ok a => exact agree_pure a
  | error e => exact agree_throw e

theorem agree_modify {g' : σ → σ} (h : ∀ s t, R s t → R (g s) (g' t)) :
    Agree R (modify g : EStateM ε σ PUnit) (modify g') :=
  fun s t hst => Result.Agree.ok (h s t hst)

/-- What follows a read may depend on the two states read. -/
theorem agree_get_bind {f f' : σ → EStateM ε σ β} (h : ∀ s t, R s t → Agree R (f s) (f' t)) :
    Agree R ((MonadState.get : EStateM ε σ σ) >>= f) (MonadState.get >>= f') :=
  fun s t hst => h s t hst s t hst

theorem Agree.bind (hx : Agree R x y)
    (hf : ∀ a, Agree R (f a) (f' a)) : Agree R (x >>= f) (y >>= f') := by
  intro s t hst
  show Result.Agree R (match x s with | .ok a u => f a u | .error e u => .error e u)
    (match y t with | .ok a u => f' a u | .error e u => .error e u)
  have hxy := hx s t hst
  generalize x s = r at hxy ⊢
  generalize y t = r' at hxy ⊢
  cases hxy with
  | ok states => exact hf _ _ _ states
  | error states => exact Result.Agree.error states

theorem Agree.ite [Decidable p] {x' y' : EStateM ε σ α} (hx : Agree R x x')
    (hy : Agree R y y') : Agree R (if p then x else y) (if p then x' else y') := by
  split
  · exact hx
  · exact hy

theorem Agree.check [Decidable p] {x y : EStateM ε σ β} (hx : Agree R x y) :
    Agree R (if p then throw e >>= f else x) (if p then throw e >>= f' else y) :=
  Agree.ite (fun _ _ h => Result.Agree.error h) hx

end

end EStateM
