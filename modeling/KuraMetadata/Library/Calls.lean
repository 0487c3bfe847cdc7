import Mathlib.Tactic.Common

/-! # Programs that make calls

A program is a tree: it has ended, with a value or an error, or it makes a request and goes on
with the reply. Whoever runs it decides what the replies are and what happens between two
requests, so one program can be run against many environments and interleaved with others.
`Within` lists the programs that a program can become. -/

/-- A program that makes requests `κ`, answered by replies `ρ` or by an error. -/
inductive Calls (κ : Type) (ρ : κ → Type) (ε α : Type) where
  | done (outcome : Except ε α)
  | call (request : κ) (next : Except ε (ρ request) → Calls κ ρ ε α)

namespace Calls

variable {κ ε α β : Type} {ρ : κ → Type} {request : κ} {x : Except ε α}
variable {ok : (request : κ) → Except ε (ρ request) → Prop} {p : Calls κ ρ ε α}

protected def bind : Calls κ ρ ε α → (α → Calls κ ρ ε β) → Calls κ ρ ε β
  | done (.ok a), f => f a
  | done (.error e), _ => done (.error e)
  | call request next, f => call request fun reply => (next reply).bind f

instance : Monad (Calls κ ρ ε) where
  pure a := done (.ok a)
  bind := Calls.bind

protected def tryCatch : Calls κ ρ ε α → (ε → Calls κ ρ ε α) → Calls κ ρ ε α
  | done (.ok a), _ => done (.ok a)
  | done (.error e), handle => handle e
  | call request next, handle => call request fun reply => (next reply).tryCatch handle

instance : MonadExceptOf ε (Calls κ ρ ε) where
  throw e := done (.error e)
  tryCatch := Calls.tryCatch

/-- One request. -/
def perform (request : κ) : Calls κ ρ ε (ρ request) := call request done

/-- A computation that makes no request. -/
def ofExcept (x : Except ε α) : Calls κ ρ ε α := done x

/-- The outcome of a program as a value, which leaves the errors to its user. -/
def attempt : Calls κ ρ ε α → Calls κ ρ ε (Except ε α)
  | done outcome => done (.ok outcome)
  | call request next => call request fun reply => (next reply).attempt

/-! ## Laws -/

@[simp]
theorem ofExcept_ok (a : α) : (ofExcept (.ok a) : Calls κ ρ ε α) = pure a := rfl

@[simp]
theorem ofExcept_error (e : ε) : (ofExcept (.error e) : Calls κ ρ ε α) = throw e := rfl

@[simp]
theorem throw_bind (e : ε) (f : α → Calls κ ρ ε β) :
    ((throw e : Calls κ ρ ε α) >>= f) = throw e := rfl

@[simp]
theorem tryCatch_pure (a : α) (handle : ε → Calls κ ρ ε α) :
    (tryCatch (pure a) handle : Calls κ ρ ε α) = pure a := rfl

@[simp]
theorem tryCatch_throw (e : ε) (handle : ε → Calls κ ρ ε α) :
    (tryCatch (throw e) handle : Calls κ ρ ε α) = handle e := rfl

protected theorem bind_assoc {γ : Type} (p : Calls κ ρ ε α) (f : α → Calls κ ρ ε β)
    (g : β → Calls κ ρ ε γ) : (p >>= f) >>= g = p >>= fun a => f a >>= g := by
  induction p with
  | done outcome => cases outcome <;> rfl
  | call request next ih =>
    show call request _ = call request _
    congr 1
    funext reply
    exact ih reply

protected theorem bind_pure (p : Calls κ ρ ε α) : (p >>= pure) = p := by
  induction p with
  | done outcome => cases outcome <;> rfl
  | call request next ih =>
    show call request _ = call request _
    congr 1
    funext reply
    exact ih reply

instance : LawfulMonad (Calls κ ρ ε) :=
  LawfulMonad.mk' _
    (fun p => Calls.bind_pure p)
    (fun _ _ => rfl)
    (fun p f g => Calls.bind_assoc p f g)

variable {f : α → Calls κ ρ ε β}

/-! ## The programs a program can become

`ok` says which replies a request can get. -/

/-- `q` is what `p` is after some of its requests have been answered. -/
def Within (ok : (request : κ) → Except ε (ρ request) → Prop) :
    Calls κ ρ ε α → Calls κ ρ ε α → Prop
  | done outcome, q => q = done outcome
  | call request next, q =>
    q = call request next ∨ ∃ reply, ok request reply ∧ (next reply).Within ok q

theorem Within.refl (p : Calls κ ρ ε α) : p.Within ok p := by
  cases p with
  | done outcome => exact rfl
  | call request next => exact .inl rfl

theorem Within.next
    {next : Except ε (ρ request) → Calls κ ρ ε α} (h : p.Within ok (call request next))
    {reply : Except ε (ρ request)} (hreply : ok request reply) : p.Within ok (next reply) := by
  induction p with
  | done outcome => cases h
  | call request' next' ih =>
    rcases h with h | ⟨reply', hreply', h⟩
    · cases h
      exact .inr ⟨reply, hreply, Within.refl _⟩
    · exact .inr ⟨reply', hreply', ih reply' h⟩

theorem not_within_done {outcome : Except ε α} {next : Except ε (ρ request) → Calls κ ρ ε α} :
    ¬ (done outcome : Calls κ ρ ε α).Within ok (call request next) := by
  intro h
  cases h

theorem Within.of_bind
    {next : Except ε (ρ request) → Calls κ ρ ε β} (h : (p >>= f).Within ok (call request next)) :
    (∃ next', p.Within ok (call request next') ∧ next = fun reply => next' reply >>= f)
      ∨ ∃ a, p.Within ok (done (.ok a)) ∧ (f a).Within ok (call request next) := by
  induction p with
  | done outcome =>
    cases outcome with
    | ok a => exact .inr ⟨a, rfl, h⟩
    | error e => exact absurd h not_within_done
  | call request' next' ih =>
    rcases h with h | ⟨reply, hreply, h⟩
    · cases h
      exact .inl ⟨next', .inl rfl, rfl⟩
    · rcases ih reply h with ⟨next'', hwithin, hnext⟩ | ⟨a, hdone, hwithin⟩
      · exact .inl ⟨next'', .inr ⟨reply, hreply, hwithin⟩, hnext⟩
      · exact .inr ⟨a, .inr ⟨reply, hreply, hdone⟩, hwithin⟩

theorem Within.of_perform {request' : κ} {f : ρ request' → Calls κ ρ ε α}
    {next : Except ε (ρ request) → Calls κ ρ ε α}
    (h : (perform request' >>= f).Within ok (call request next)) :
    call request next = perform request' >>= f
      ∨ ∃ a, ok request' (.ok a) ∧ (f a).Within ok (call request next) := by
  rcases h with h | ⟨reply, hreply, h⟩
  · exact .inl h
  · cases reply with
    | ok a => exact .inr ⟨a, hreply, h⟩
    | error e => exact absurd h not_within_done

/-- A program whose value is wrapped ends where the program does. -/
theorem bind_pure_eq_done {f : α → β} {b : β} (h : (p >>= fun a => pure (f a)) = done (.ok b)) :
    ∃ a, p = done (.ok a) ∧ f a = b := by
  cases p with
  | done outcome =>
    cases outcome with
    | ok a =>
      cases h
      exact ⟨a, rfl, rfl⟩
    | error e => cases h
  | call request next => cases h

/-! ## The requests of a program -/

section

variable {P : κ → Prop}

/-- Every request the program can come to, whatever it is answered. -/
def Every (P : κ → Prop) : Calls κ ρ ε α → Prop
  | done _ => True
  | call request next => P request ∧ ∀ reply, (next reply).Every P

theorem every_pure (a : α) : (pure a : Calls κ ρ ε α).Every P := trivial

theorem every_ofExcept (x : Except ε α) : (ofExcept x : Calls κ ρ ε α).Every P := trivial

theorem every_perform (h : P request) :
    (perform request : Calls κ ρ ε (ρ request)).Every P := ⟨h, fun _ => trivial⟩

theorem Every.bind (hp : p.Every P) (hf : ∀ a, (f a).Every P) : (p >>= f).Every P := by
  induction p with
  | done outcome =>
    cases outcome with
    | ok a => exact hf a
    | error e => trivial
  | call request next ih => exact ⟨hp.1, fun reply => ih reply (hp.2 reply)⟩

/-- What follows a computation that makes no request, for the value it has returned. -/
theorem every_ofExcept_bind
    (hf : ∀ a, x = .ok a → (f a).Every P) : (ofExcept x >>= f : Calls κ ρ ε β).Every P := by
  cases x with
  | ok a => exact hf a rfl
  | error e => trivial

theorem Every.tryCatch {handle : ε → Calls κ ρ ε α} (hp : p.Every P)
    (hhandle : ∀ e, (handle e).Every P) : (tryCatch p handle : Calls κ ρ ε α).Every P := by
  induction p with
  | done outcome =>
    cases outcome with
    | ok a => trivial
    | error e => exact hhandle e
  | call request next ih => exact ⟨hp.1, fun reply => ih reply (hp.2 reply)⟩

theorem Every.attempt (hp : p.Every P) : p.attempt.Every P := by
  induction p with
  | done outcome => trivial
  | call request next ih => exact ⟨hp.1, fun reply => ih reply (hp.2 reply)⟩

theorem Every.of_within {next : Except ε (ρ request) → Calls κ ρ ε α} (hp : p.Every P)
    (h : p.Within ok (call request next)) : P request := by
  induction p with
  | done outcome => exact absurd h not_within_done
  | call request' next' ih =>
    rcases h with h | ⟨reply, -, h⟩
    · cases h
      exact hp.1
    · exact ih reply (hp.2 reply) h

end

/-! ## The values a program returns -/

section

variable {P : α → Prop}

/-- Every value the program can return, whatever its requests are answered. -/
def Returns (P : α → Prop) : Calls κ ρ ε α → Prop
  | done (.ok a) => P a
  | done (.error _) => True
  | call _ next => ∀ reply, (next reply).Returns P

theorem returns_ofExcept (h : ∀ a, x = .ok a → P a) : (ofExcept x : Calls κ ρ ε α).Returns P := by
  cases x with
  | ok a => exact h a rfl
  | error e => trivial

theorem returns_true (p : Calls κ ρ ε α) : p.Returns fun _ => True := by
  induction p with
  | done outcome => cases outcome <;> trivial
  | call request next ih => exact ih

theorem Returns.bind {Q : β → Prop}
    (hp : p.Returns P) (hf : ∀ a, P a → (f a).Returns Q) : (p >>= f).Returns Q := by
  induction p with
  | done outcome =>
    cases outcome with
    | ok a => exact hf a hp
    | error e => trivial
  | call request next ih => exact fun reply => ih reply (hp reply)

theorem Returns.of_within {a : α} (hp : p.Returns P) (h : p.Within ok (done (.ok a))) : P a := by
  induction p with
  | done outcome =>
    cases h
    exact hp
  | call request next ih =>
    rcases h with h | ⟨reply, -, h⟩
    · cases h
    · exact ih reply (hp reply) h

end

end Calls
