import Mathlib.Data.Finset.Max
import Mathlib.Data.List.Nodup

/-! # Ordering operations in time

Operations that take effect at unknown moments are put into one order: some of them have to be in
it, an operation that was over before another began does not come after it, and each one has to be
possible in the state the ones before it leave. Whether there is such an order can be decided one
operation at a time, among those that no other one left precedes. -/

namespace Linearization

open List

/-- The operations of a problem: which ones must take effect, which ones were over before which,
and what each does in a state, if it is possible there. -/
structure Problem (ι σ : Type*) where
  required : ι → Prop
  before : ι → ι → Prop
  step : ι → σ → Option σ

variable {ι σ : Type*} {problem : Problem ι σ} {remaining : Finset ι} {s t : σ} {i : ι}

/-- The operations can take effect in the order given, and the others left not at all. -/
structure Solves (problem : Problem ι σ) (remaining : Finset ι) (s : σ) (order : List ι) :
    Prop where
  nodup : order.Nodup
  mem : ∀ i ∈ order, i ∈ remaining
  required : ∀ i ∈ remaining, problem.required i → i ∈ order
  realTime : order.Pairwise fun i j => ¬ problem.before j i
  runs : (order.foldlM (fun s i => problem.step i s) s).isSome = true

def Solvable (problem : Problem ι σ) (remaining : Finset ι) (s : σ) : Prop :=
  ∃ order, Solves problem remaining s order

/-- No operation left was over before this one began. -/
structure Enabled (problem : Problem ι σ) (remaining : Finset ι) (i : ι) : Prop where
  mem : i ∈ remaining
  first : ∀ j ∈ remaining, ¬ problem.before j i

theorem solvable_empty : Solvable problem ∅ s :=
  ⟨[], .nil, forall_mem_nil _, by simp, .nil, rfl⟩

section

variable [DecidableEq ι]

theorem solvable_of_omit (hrequired : ¬ problem.required i)
    (h : Solvable problem (remaining.erase i) s) : Solvable problem remaining s := by
  obtain ⟨order, hnodup, hmem, hall, htime, hruns⟩ := h
  refine ⟨order, hnodup, fun j hj => Finset.mem_of_mem_erase (hmem j hj), fun j hj hneeded => ?_,
    htime, hruns⟩
  by_cases hji : j = i
  · exact absurd (hji ▸ hneeded) hrequired
  · exact hall j (Finset.mem_erase.mpr ⟨hji, hj⟩) hneeded

theorem solvable_of_step (henabled : Enabled problem remaining i)
    (hstep : problem.step i s = some t)
    (h : Solvable problem (remaining.erase i) t) : Solvable problem remaining s := by
  obtain ⟨order, hnodup, hmem, hall, htime, hruns⟩ := h
  refine ⟨i :: order, nodup_cons.mpr ⟨fun hi => ?_, hnodup⟩, ?_, fun j hj hneeded => ?_,
    pairwise_cons.mpr ⟨fun j hj => ?_, htime⟩, ?_⟩
  · exact Finset.notMem_erase i remaining (hmem i hi)
  · exact forall_mem_cons.mpr ⟨henabled.mem, fun j hj => Finset.mem_of_mem_erase (hmem j hj)⟩
  · by_cases hji : j = i
    · rw [hji]
      exact mem_cons_self
    · exact mem_cons_of_mem _ (hall j (Finset.mem_erase.mpr ⟨hji, hj⟩) hneeded)
  · exact henabled.first j (Finset.mem_of_mem_erase (hmem j hj))
  · rw [foldlM_cons, hstep]
    exact hruns

theorem Solves.omit {order : List ι} (h : Solves problem remaining s order) (hi : i ∉ order) :
    Solves problem (remaining.erase i) s order := by
  refine ⟨h.nodup, fun j hj => Finset.mem_erase.mpr ⟨?_, h.mem j hj⟩, fun j hj => ?_, h.realTime,
    h.runs⟩
  · rintro rfl
    exact hi hj
  · exact h.required j (Finset.mem_of_mem_erase hj)

theorem Solves.tail {order : List ι} (h : Solves problem remaining s (i :: order)) :
    ∃ t, problem.step i s = some t ∧ Solves problem (remaining.erase i) t order := by
  obtain ⟨hnodup, hmem, hall, htime, hruns⟩ := h
  obtain ⟨hi, hnodup⟩ := nodup_cons.mp hnodup
  cases hstep : problem.step i s with
  | none =>
    rw [foldlM_cons, hstep] at hruns
    cases hruns
  | some t =>
    rw [foldlM_cons, hstep] at hruns
    refine ⟨t, rfl, hnodup, fun j hj => Finset.mem_erase.mpr ⟨?_, hmem j (mem_cons_of_mem _ hj)⟩,
      fun j hj hneeded => ?_, (pairwise_cons.mp htime).2, hruns⟩
    · rintro rfl
      exact hi hj
    · obtain ⟨hji, hj⟩ := Finset.mem_erase.mp hj
      exact (mem_cons.mp (hall j hj hneeded)).resolve_left hji

end

/-! ## Time -/

section

variable {τ : Type*} [LinearOrder τ] {time : ι → τ}
variable (htime : ∀ i j, problem.before i j → time i < time j)
include htime

/-- The operations that precede one are enabled where they begin first. -/
theorem exists_enabled_before
    (htrans : ∀ i j k, problem.before i j → problem.before j k → problem.before i k)
    {j : ι} (hj : j ∈ remaining) (hbefore : problem.before j i) :
    ∃ k, Enabled problem remaining k ∧ problem.before k i := by
  classical
  obtain ⟨k, hk, hfirst⟩ := Finset.exists_min_image (remaining.filter (problem.before · i)) time
    ⟨j, Finset.mem_filter.mpr ⟨hj, hbefore⟩⟩
  obtain ⟨hk, hki⟩ := Finset.mem_filter.mp hk
  refine ⟨k, ⟨hk, fun l hl hlk => ?_⟩, hki⟩
  -- an operation before `k` would be one of those before `i` as well
  have hle := hfirst l (Finset.mem_filter.mpr ⟨hl, htrans l k i hlk hki⟩)
  exact absurd (htime l k hlk) (not_lt.mpr hle)

theorem exists_enabled (hne : remaining.Nonempty) : ∃ k, Enabled problem remaining k := by
  obtain ⟨k, hk, hfirst⟩ := Finset.exists_min_image remaining time hne
  exact ⟨k, hk, fun j hj hjk => absurd (htime j k hjk) (not_lt.mpr (hfirst j hj))⟩

/-- A problem that can be solved can be solved with an enabled operation first, or without one. -/
theorem Solvable.exists_enabled [DecidableEq ι]
    (htrans : ∀ i j k, problem.before i j → problem.before j k → problem.before i k)
    (h : Solvable problem remaining s) (hne : remaining.Nonempty) :
    ∃ i, Enabled problem remaining i
      ∧ (¬ problem.required i ∧ Solvable problem (remaining.erase i) s
        ∨ ∃ t, problem.step i s = some t ∧ Solvable problem (remaining.erase i) t) := by
  obtain ⟨order, hsolves⟩ := h
  cases order with
  | nil =>
    -- no operation takes effect, so any one can be left out
    obtain ⟨i, henabled⟩ := Linearization.exists_enabled htime hne
    have hrequired : ¬ problem.required i :=
      fun hneeded => not_mem_nil (hsolves.required i henabled.mem hneeded)
    exact ⟨i, henabled, .inl ⟨hrequired, [], hsolves.omit not_mem_nil⟩⟩
  | cons i order =>
    have hi := hsolves.mem i mem_cons_self
    by_cases henabled : ∀ j ∈ remaining, ¬ problem.before j i
    · obtain ⟨t, hstep, htail⟩ := hsolves.tail
      exact ⟨i, ⟨hi, henabled⟩, .inr ⟨t, hstep, order, htail⟩⟩
    · -- what precedes the first operation that takes effect does not take effect itself
      simp only [not_forall, not_not] at henabled
      obtain ⟨j, hj, hbefore⟩ := henabled
      obtain ⟨k, hk, hki⟩ := exists_enabled_before htime htrans hj hbefore
      have homitted : k ∉ i :: order := by
        intro hmem
        rcases mem_cons.mp hmem with rfl | hmem
        · exact lt_irrefl _ (htime k k hki)
        · exact (pairwise_cons.mp hsolves.realTime).1 k hmem hki
      have hrequired : ¬ problem.required k :=
        fun hneeded => homitted (hsolves.required k hk.mem hneeded)
      exact ⟨k, hk, .inl ⟨hrequired, i :: order, hsolves.omit homitted⟩⟩

end

end Linearization
