import Mathlib.Tactic.Common

/-! # Inverting successful computations

When a computation in `Except` returns, each of its steps did. These lemmas turn an equation
`x = .ok b` into the equations of the steps, and are tagged so that `simp` carries the
inversion through nested blocks. -/

namespace Except

open List

variable {ε ε' : Type*} {α β γ : Type} {x : Except ε α} {f : α → Except ε β} {b : β} {a : α} {e : ε}

@[simp]
theorem bind_eq_ok : (x >>= f) = .ok b ↔ ∃ a, x = .ok a ∧ f a = .ok b := by
  cases x with
  | error e => exact ⟨fun h => (by cases h), fun ⟨_, h, _⟩ => (by cases h)⟩
  | ok a => exact ⟨fun h => ⟨a, rfl, h⟩, fun ⟨_, h, h'⟩ => by cases h; exact h'⟩

@[simp]
theorem pure_eq_ok {b : α} : (pure a : Except ε α) = .ok b ↔ a = b :=
  ⟨fun h => Except.ok.inj h, fun h => congrArg _ h⟩

@[simp]
theorem map_eq_ok {f : α → β} : x.map f = .ok b ↔ ∃ a, x = .ok a ∧ f a = b := by
  cases x with
  | error e | ok a => simp [Except.map]

@[simp]
theorem mapError_eq_ok {f : ε → ε'} : x.mapError f = .ok a ↔ x = .ok a := by
  cases x with
  | error e | ok a => simp [Except.mapError]

@[simp]
theorem throw_eq_error : (throw e : Except ε α) = .error e := rfl

@[simp]
theorem error_bind : (Except.error e >>= f) = .error e := rfl

theorem ok_bind : (Except.ok a >>= f) = f a := rfl

/-- The branch taken by a successful conditional whose `then` branch throws. The instance is
found by unification: a condition read off a state may have been simplified since. -/
@[simp]
theorem ite_error_eq_ok {p : Prop} {_ : Decidable p} :
    (if p then .error e else x) = .ok a ↔ ¬ p ∧ x = .ok a := by
  by_cases h : p <;> simp [h]

/-! ## Folding and mapping over a list -/

theorem foldlM_induct {σ : Type} {step : σ → γ → Except ε σ} {P : σ → Prop} {l : List γ}
    {s t : σ} (h : l.foldlM step s = .ok t) (init : P s)
    (hstep : ∀ {a b x}, P a → step a x = .ok b → P b) : P t := by
  induction l generalizing s with
  | nil =>
    obtain rfl := pure_eq_ok.mp h
    exact init
  | cons x l ih =>
    simp only [foldlM_cons, bind_eq_ok] at h
    obtain ⟨a, ha, h⟩ := h
    exact ih h (hstep init ha)

/-- A fold returns if each of its steps does, given what the steps before it have established. -/
theorem exists_foldlM_eq_ok {σ : Type} {step : σ → γ → Except ε σ} {P : List γ → σ → Prop}
    {l : List γ} {s : σ} (init : P [] s)
    (hstep : ∀ {done rest : List γ} {x : γ} {a : σ}, l = done ++ x :: rest → P done a →
      ∃ b, step a x = .ok b ∧ P (done ++ [x]) b) :
    ∃ t, l.foldlM step s = .ok t ∧ P l t := by
  suffices h : ∀ (rest done : List γ) (a : σ), l = done ++ rest → P done a →
      ∃ t, rest.foldlM step a = .ok t ∧ P l t from h l [] s rfl init
  intro rest
  induction rest with
  | nil =>
    intro done a hl ha
    rw [append_nil] at hl
    exact ⟨a, rfl, hl ▸ ha⟩
  | cons x rest ih =>
    intro done a hl ha
    obtain ⟨b, hb, hP⟩ := hstep hl ha
    obtain ⟨t, ht, hPt⟩ := ih (done ++ [x]) b (by rw [hl, append_assoc]; rfl) hP
    exact ⟨t, bind_eq_ok.mpr ⟨b, hb, ht⟩, hPt⟩

@[simp]
theorem forM_eq_ok {f : γ → Except ε Unit} {l : List γ} {u : Unit} :
    l.forM f = .ok u ↔ ∀ x ∈ l, f x = .ok u := by
  induction l with
  | nil => exact ⟨fun _ => forall_mem_nil _, fun _ => rfl⟩
  | cons x l ih =>
    rw [forall_mem_cons, ← ih]
    refine bind_eq_ok.trans ?_
    exact ⟨by rintro ⟨_, hx, hl⟩; exact ⟨hx, hl⟩, by rintro ⟨hx, hl⟩; exact ⟨u, hx, hl⟩⟩

section

variable {f : γ → Except ε β} {l : List γ} {r : List β}

theorem exists_of_mem_mapM (h : l.mapM f = .ok r) (hb : b ∈ r) : ∃ a ∈ l, f a = .ok b := by
  induction l generalizing r with
  | nil =>
    obtain rfl := pure_eq_ok.mp h
    cases hb
  | cons a l ih =>
    simp only [mapM_cons, bind_eq_ok, pure_eq_ok] at h
    obtain ⟨b', hb', r', hr', rfl⟩ := h
    rcases mem_cons.mp hb with rfl | hb
    · exact ⟨a, mem_cons_self, hb'⟩
    · obtain ⟨a', ha', hfa'⟩ := ih hr' hb
      exact ⟨a', mem_cons_of_mem _ ha', hfa'⟩

theorem exists_mem_of_mapM (h : l.mapM f = .ok r) {a : γ} (ha : a ∈ l) : ∃ b ∈ r, f a = .ok b := by
  induction l generalizing r with
  | nil => cases ha
  | cons a' l ih =>
    simp only [mapM_cons, bind_eq_ok, pure_eq_ok] at h
    obtain ⟨b', hb', r', hr', rfl⟩ := h
    rcases mem_cons.mp ha with rfl | ha
    · exact ⟨b', mem_cons_self, hb'⟩
    · obtain ⟨b, hb, hfa⟩ := ih hr' ha
      exact ⟨b, mem_cons_of_mem _ hb, hfa⟩

/-- A relation between the elements of a list carries over to the elements they map to. -/
theorem pairwise_mapM {P : γ → γ → Prop} {Q : β → β → Prop} (h : l.mapM f = .ok r)
    (hP : l.Pairwise P)
    (hQ : ∀ {a a' b b'}, P a a' → f a = .ok b → f a' = .ok b' → Q b b') : r.Pairwise Q := by
  induction l generalizing r with
  | nil =>
    obtain rfl := pure_eq_ok.mp h
    exact List.Pairwise.nil
  | cons a l ih =>
    simp only [mapM_cons, bind_eq_ok, pure_eq_ok] at h
    obtain ⟨b, hb, r', hr', rfl⟩ := h
    rw [pairwise_cons] at hP
    refine List.Pairwise.cons (fun b' hb' => ?_) (ih hr' hP.2)
    obtain ⟨a', ha', hfa'⟩ := exists_of_mem_mapM hr' hb'
    exact hQ (hP.1 a' ha') hb hfa'

end

/-! ## Both ways a computation can end -/

/-- The computation returns a value with `P` or throws an error with `E`. -/
def Ensures (E : ε → Prop) (P : α → Prop) : Except ε α → Prop
  | .ok a => P a
  | .error e => E e

section

variable {E : ε → Prop} {P : α → Prop} {Q : β → Prop}

@[simp]
theorem ensures_ok : (Except.ok a : Except ε α).Ensures E P ↔ P a := Iff.rfl

@[simp]
theorem ensures_pure : (pure a : Except ε α).Ensures E P ↔ P a := Iff.rfl

theorem Ensures.bind (h : x.Ensures E P) (hf : ∀ a, P a → (f a).Ensures E Q) :
    (x >>= f).Ensures E Q := by
  cases x with
  | error e => exact h
  | ok a => exact hf a h

theorem Ensures.mono {P' : α → Prop} (h : x.Ensures E P) (hP : ∀ a, P a → P' a) :
    x.Ensures E P' := by
  cases x with
  | error e => exact h
  | ok a => exact hP a h

theorem ensures_ite_error {p : Prop} {_ : Decidable p} (he : p → E e)
    (hx : ¬ p → x.Ensures E P) : (if p then .error e else x).Ensures E P := by
  split
  case isTrue h => exact he h
  case isFalse h => exact hx h

theorem Ensures.cases (h : x.Ensures E P) : (∃ e, x = .error e ∧ E e) ∨ ∃ a, x = .ok a ∧ P a := by
  cases x with
  | error e => exact .inl ⟨e, rfl, h⟩
  | ok a => exact .inr ⟨a, rfl, h⟩

theorem Ensures.exists_ok (h : x.Ensures (fun _ => False) P) : ∃ a, x = .ok a ∧ P a := by
  cases x with
  | error e => exact h.elim
  | ok a => exact ⟨a, rfl, h⟩

theorem ensures_true (x : Except ε α) : x.Ensures (fun _ => True) fun _ => True := by
  cases x <;> trivial

/-- A translation of values that commutes with the second of two steps commutes with both. -/
theorem map_bind_map {α' β' : Type} {f : α → α'} {g : α' → Except ε β'} {h : α → Except ε β}
    {k : β → β'} (hx : x.Ensures E P) (hg : ∀ a, P a → g (f a) = (h a).map k) :
    (x.map f >>= g) = (x >>= h).map k := by
  cases x with
  | error e => rfl
  | ok a => exact hg a hx

end

end Except

/-- What holds of every element of a list and of one more holds of the longer list. -/
theorem List.forall_mem_concat {α : Type*} {P : α → Prop} {l : List α} {a : α}
    (h : ∀ x ∈ l, P x) (ha : P a) : ∀ x ∈ l ++ [a], P x :=
  List.forall_mem_append.mpr ⟨h, List.forall_mem_singleton.mpr ha⟩
