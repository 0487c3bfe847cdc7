import KuraMetadata.Linearizability.Check
import KuraMetadata.Linearizability.Replay

/-! # Counterexamples

When a history is not linearizable, `check` removes operations from it as long as what is left is
still not linearizable, and returns the rest with its text. The search depends on the records of a
history and not on their order, so the text leads to the same verdict. -/

namespace KuraMetadata.Linearizability

open List Except

/-! ## The order of the records -/

section

variable {history other : History}

namespace History

theorem WellFormed.completion?_of_sameRecords (h : history.WellFormed)
    (hsame : history.SameRecords other) (id : OperationId) :
    other.completion? id = history.completion? id := by
  have hother := h.of_sameRecords hsame
  refine Option.ext fun completion => ?_
  rw [h.completion?_eq_some, hother.completion?_eq_some, hsame.completions.mem_iff]

theorem WellFormed.nodup_retained_ids (h : history.WellFormed) :
    ((history.invocations.filterMap history.retain).map fun operation =>
      operation.invocation.operationId).Nodup := by
  -- an operation that is retained has the ID of its invocation
  refine h.distinct.sublist ?_
  induction history.invocations with
  | nil => exact List.Sublist.refl _
  | cons invocation invocations ih =>
    cases hretain : history.retain invocation with
    | none =>
      rw [filterMap_cons_none hretain]
      exact ih.cons _
    | some operation =>
      obtain ⟨-, rfl⟩ := h.retain_eq_some.mp hretain
      rw [filterMap_cons_some hretain]
      exact ih.cons_cons _

theorem WellFormed.retained_of_sameRecords (h : history.WellFormed)
    (hsame : history.SameRecords other) : other.retained = history.retained := by
  have hretain : other.retain = history.retain := by
    funext invocation
    simp only [retain, h.completion?_of_sameRecords hsame]
  rw [retained, retained, hretain]
  exact (insertionSort_eq_of_perm h.nodup_retained_ids (hsame.invocations.filterMap _)).symm

end History

/-- The search does not depend on the order of the records. -/
theorem checkInternal_of_sameRecords (h : history.WellFormed) (hsame : history.SameRecords other)
    (limits : CheckerLimits) : checkInternal other limits = checkInternal history limits := by
  simp only [checkInternal, searchHistory, validate_eq_ok.mpr h,
    validate_eq_ok.mpr (h.of_sameRecords hsame), h.retained_of_sameRecords hsame,
    hsame.invocations.length_eq]

end

/-! ## Histories the search refutes -/

/-- The search on the history returns that it is not linearizable. -/
def Refuted (limits : CheckerLimits) (history : History) : Prop :=
  (checkInternal history limits).map (·.outcome) = .ok .notLinearizable

/-- Some of the operations of a history, each with its completion if it has one. -/
structure History.IsPart (part whole : History) : Prop where
  invocations : part.invocations.Sublist whole.invocations
  completions : part.completions = whole.completions.filter fun completion =>
    completion.operationId ∈ part.invocations.map (·.operationId)

section

variable {history part : History} {limits : CheckerLimits}

theorem History.WellFormed.isPart_refl (h : history.WellFormed) : history.IsPart history := by
  refine ⟨List.Sublist.refl _, (List.filter_eq_self.mpr fun completion hmem => ?_).symm⟩
  obtain ⟨invocation, hinvocation, hanswers⟩ := h.answers completion hmem
  exact decide_eq_true (mem_map.mpr ⟨invocation, hinvocation, hanswers.operationId⟩)

theorem History.IsPart.without (h : part.IsPart history) (id : OperationId) :
    (part.without id).IsPart history := by
  refine ⟨List.filter_sublist.trans h.invocations, ?_⟩
  simp only [History.without, h.completions, filter_filter]
  refine filter_congr fun completion _ => ?_
  rw [Bool.eq_iff_iff]
  simp only [Bool.and_eq_true, decide_eq_true_eq, mem_map, mem_filter]
  constructor
  · rintro ⟨hne, invocation, hmem, hid⟩
    exact ⟨invocation, ⟨hmem, hid ▸ hne⟩, hid⟩
  · rintro ⟨invocation, ⟨hmem, hne⟩, hid⟩
    exact ⟨hid ▸ hne, invocation, hmem, hid⟩

theorem length_without_lt {id : OperationId} (h : id ∈ history.invocations.map (·.operationId)) :
    (history.without id).invocations.length < history.invocations.length := by
  obtain ⟨invocation, hmem, rfl⟩ := mem_map.mp h
  refine Nat.lt_of_le_of_ne (length_filter_le _ _) fun hlength => ?_
  have hkept := List.length_filter_eq_length_iff.mp hlength invocation hmem
  simp at hkept

theorem Refuted.ne_nil (h : Refuted limits history) : history.invocations ≠ [] := by
  intro hnil
  have hretained : history.retained = [] := by rw [History.retained, hnil]; rfl
  have hsearch : (searchHistory history limits).1 = .linearizable := by
    rw [searchHistory, hretained]
    rfl
  simp only [Refuted, checkInternal, map_eq_ok, bind_eq_ok] at h
  obtain ⟨result, ⟨_, -, h⟩, houtcome⟩ := h
  -- every way to return is with another outcome
  have hother : result.outcome ≠ .notLinearizable := by
    split at h
    · cases h; decide
    split at h
    · cases h; decide
    split at h
    · cases h; decide
    cases h
    exact fun houtcome => absurd (hsearch.symm.trans houtcome) (by decide)
  exact hother houtcome

/-! ## Removing operations -/

/-- No single operation can be removed. -/
def Minimal (limits : CheckerLimits) (history : History) : Prop :=
  ∀ id ∈ history.invocations.map (·.operationId),
    (history.without id).invocations = [] ∨ ¬ Refuted limits (history.without id)

/-- The inner loop removes an operation, unless it can remove none of those it is given. -/
theorem removeOperation_spec (h : history.WellFormed) (limits : CheckerLimits)
    (ids : List OperationId) (explored : Nat) :
    ∃ removed, removeOperation limits history ids explored = .ok removed
      ∧ (∀ candidate ∈ removed.1, ∃ id ∈ ids, candidate = history.without id
          ∧ Refuted limits candidate)
      ∧ (removed.1 = none → ∀ id ∈ ids,
          (history.without id).invocations = [] ∨ ¬ Refuted limits (history.without id)) := by
  induction ids generalizing explored with
  | nil => exact ⟨_, rfl, by simp, fun _ => forall_mem_nil _⟩
  | cons id ids ih =>
    have hskip : (history.without id).invocations = [] ∨ ¬ Refuted limits (history.without id) →
        ∀ explored, ∃ removed, removeOperation limits history ids explored = .ok removed
          ∧ (∀ candidate ∈ removed.1, ∃ id' ∈ id :: ids, candidate = history.without id'
              ∧ Refuted limits candidate)
          ∧ (removed.1 = none → ∀ id' ∈ id :: ids, (history.without id').invocations = []
              ∨ ¬ Refuted limits (history.without id')) := by
      intro hid explored
      obtain ⟨removed, hremoved, hsome, hnone⟩ := ih explored
      refine ⟨removed, hremoved, fun candidate hcandidate => ?_, fun hremoved =>
        forall_mem_cons.mpr ⟨hid, hnone hremoved⟩⟩
      obtain ⟨id', hmem, hcandidate⟩ := hsome candidate hcandidate
      exact ⟨id', mem_cons_of_mem _ hmem, hcandidate⟩
    rw [removeOperation]
    by_cases hempty : (history.without id).invocations.isEmpty = true
    · rw [if_pos hempty]
      exact hskip (.inl (List.isEmpty_iff.mp hempty)) explored
    rw [if_neg hempty]
    obtain ⟨result, hresult, -⟩ := checkInternal_tells (h.without id) limits
    have hrefuted : Refuted limits (history.without id) ↔ result.outcome = .notLinearizable := by
      rw [Refuted, hresult]
      exact ⟨Except.ok.inj, congrArg _⟩
    rw [hresult, ok_bind]
    by_cases houtcome : result.outcome = .notLinearizable
    · rw [if_pos houtcome]
      refine ⟨_, rfl, fun candidate hcandidate => ?_, fun hnone => by cases hnone⟩
      obtain rfl := Option.some.inj hcandidate
      exact ⟨id, mem_cons_self, rfl, hrefuted.mpr houtcome⟩
    · rw [if_neg houtcome]
      exact hskip (.inr fun h => houtcome (hrefuted.mp h)) _

/-- What the minimization makes of a history: a part of it that the search still refutes and from
which no single operation can be removed. -/
structure Minimized (limits : CheckerLimits) (whole reduced : History) : Prop where
  wellFormed : reduced.WellFormed
  isPart : reduced.IsPart whole
  refuted : Refuted limits reduced
  minimal : Minimal limits reduced

/-- The outer loop ends, after at most as many passes as there are operations. -/
theorem exists_minimized {whole : History} (passes : Nat) (h : history.WellFormed)
    (hpart : history.IsPart whole) (hrefuted : Refuted limits history)
    (hpasses : history.invocations.length ≤ passes) (explored : Nat) :
    ∃ minimized, (∀ more, minimize limits (passes + more) history explored = .ok minimized)
      ∧ Minimized limits whole minimized.1 := by
  induction passes generalizing history explored with
  | zero => exact absurd (eq_nil_of_length_eq_zero (Nat.le_zero.mp hpasses)) hrefuted.ne_nil
  | succ passes ih =>
    obtain ⟨removed, hremoved, hsome, hnone⟩ := removeOperation_spec h limits
      ((history.invocations.map (·.operationId)).insertionSort (· ≤ ·)) explored
    have hpass : ∀ more, minimize limits (passes + 1 + more) history explored
        = removed.1.elim (pure (history, removed.2))
          fun candidate => minimize limits (passes + more) candidate removed.2 := by
      intro more
      rw [show passes + 1 + more = passes + more + 1 by omega, minimize, hremoved, ok_bind]
      cases removed.1 <;> rfl
    cases hcandidate : removed.1 with
    | none =>
      simp only [hpass, hcandidate, Option.elim]
      refine ⟨_, fun _ => rfl, h, hpart, hrefuted, fun id hid => hnone hcandidate id ?_⟩
      rw [mem_insertionSort]
      exact hid
    | some candidate =>
      simp only [hpass, hcandidate, Option.elim]
      obtain ⟨id, hid, rfl, hrefuted⟩ := hsome candidate hcandidate
      have hlength := length_without_lt ((mem_insertionSort _).mp hid)
      exact ih (h.without id) (hpart.without id) hrefuted (by omega) removed.2

/-- The verdict of `check` is that of the search. -/
theorem check_outcome (h : history.WellFormed) (limits : CheckerLimits) :
    (check history limits).map (·.outcome) = (checkInternal history limits).map (·.outcome) := by
  obtain ⟨result, hresult, -⟩ := checkInternal_tells h limits
  rw [check, hresult, ok_bind]
  split
  · rename_i houtcome
    obtain ⟨minimized, hminimized, hvalid⟩ :=
      exists_minimize limits history.invocations.length h result.explored
    rw [hminimized, ok_bind, hvalid.serialize_eq, ok_bind]
    exact congrArg Except.ok houtcome.symm
  · rfl

theorem History.Representable.of_isPart (h : history.Representable)
    (hpart : part.IsPart history) : part.Representable := by
  intro completion hmem
  rw [hpart.completions] at hmem
  exact h completion (mem_of_mem_filter hmem)

end

/-- Counterexamples are genuine, minimal and replayable. -/
theorem counterexample_minimal (history : History) (limits : CheckerLimits)
    (hvalid : validate history = .ok ()) (hfits : history.Representable)
    (hverdict : (check history limits).map (·.outcome) = .ok .notLinearizable) :
    ∃ result counterexample, check history limits = .ok result
      ∧ result.counterexample = some counterexample
      -- the loop ends by itself, whatever passes it is allowed
      ∧ (∃ searched, checkInternal history limits = .ok searched
        ∧ ∀ passes, history.invocations.length ≤ passes →
          minimize limits passes history searched.explored
            = .ok (counterexample.history, result.exploredStates))
      -- the counterexample is a part of the history that is not linearizable either
      ∧ counterexample.history.invocations ≠ []
      ∧ counterexample.history.IsPart history
      ∧ (check counterexample.history limits).map (·.outcome) = .ok .notLinearizable
      -- without any of its operations it is empty or not refuted
      ∧ (∀ id ∈ counterexample.history.invocations.map (·.operationId),
        (counterexample.history.without id).invocations = []
          ∨ (checkInternal (counterexample.history.without id) limits).map (·.outcome)
            ≠ .ok .notLinearizable)
      -- and its text is read as a history with the same verdict and the same text
      ∧ ∃ replayed, parse counterexample.replay = .ok replayed
        ∧ (check replayed limits).map (·.outcome) = .ok .notLinearizable
        ∧ serialize replayed = .ok counterexample.replay := by
  have h := validate_eq_ok.mp hvalid
  rw [check_outcome h] at hverdict
  obtain ⟨searched, hsearched, houtcome⟩ := map_eq_ok.mp hverdict
  obtain ⟨minimized, hminimized, hspec⟩ :=
    exists_minimized history.invocations.length h h.isPart_refl hverdict le_rfl searched.explored
  have hpasses : ∀ passes, history.invocations.length ≤ passes →
      minimize limits passes history searched.explored = .ok minimized := by
    intro passes hle
    rw [← Nat.add_sub_cancel' hle]
    exact hminimized _
  have hsorted := hspec.wellFormed.sorted
  have hserialize := hsorted.serialize_eq
  rw [hspec.wellFormed.sorted_sorted] at hserialize
  refine ⟨⟨.notLinearizable, minimized.2, some ⟨minimized.1, minimized.1.sorted.text⟩⟩, _, ?_, rfl,
    ⟨searched, hsearched, hpasses⟩, hspec.refuted.ne_nil, hspec.isPart,
    (check_outcome hspec.wellFormed limits).trans hspec.refuted, hspec.minimal,
    minimized.1.sorted, hspec.wellFormed.parse_sorted_text (hfits.of_isPart hspec.isPart), ?_,
    hserialize⟩
  · rw [check, hsearched, ok_bind, if_pos houtcome, hpasses _ le_rfl, ok_bind,
      hspec.wellFormed.serialize_eq, ok_bind]
    rfl
  · rw [check_outcome hsorted, checkInternal_of_sameRecords hspec.wellFormed
      minimized.1.sameRecords_sorted.symm]
    exact hspec.refuted

/-- The stale read among writes to other keys. -/
def hiddenStaleRead : History where
  invocations := [⟨4, 1, 1, .put [2] [8]⟩, ⟨1, 1, 1, .put [1] [7]⟩, ⟨2, 2, 3, .get [1]⟩,
    ⟨3, 3, 1, .put [3] []⟩]
  completions := [⟨1, 2, .succeeded, some (.put 1)⟩, ⟨2, 4, .succeeded, some (.get none 0)⟩,
    ⟨4, 5, .failed, none⟩]

theorem counterexample_minimal_hiddenStaleRead :
    validate hiddenStaleRead = .ok ()
      ∧ ∃ result counterexample, check hiddenStaleRead {} = .ok result
        ∧ result.counterexample = some counterexample
        ∧ counterexample.history.IsPart hiddenStaleRead := by
  have hvalid : validate hiddenStaleRead = .ok () := by decide +kernel
  have hfits : hiddenStaleRead.Representable := by
    simp only [History.Representable, hiddenStaleRead, forall_mem_cons, Option.mem_some_iff,
      forall_eq', Result.revision]
    decide
  obtain ⟨result, counterexample, hcheck, hcounterexample, -, -, hpart, -⟩ :=
    counterexample_minimal hiddenStaleRead {} hvalid hfits (by decide +kernel)
  exact ⟨hvalid, result, counterexample, hcheck, hcounterexample, hpart⟩

end KuraMetadata.Linearizability
