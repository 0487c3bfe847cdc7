import KuraMetadata.Linearizability.Histories
import KuraMetadata.Linearizability.Search

/-! # The checker is sound and complete

The operations `check_internal` prepares are the ones a linearization can have, and an order of
their positions solves the search problem exactly if the invocations in that order are a
linearization. So the search decides whether a linearization exists, or says that it reached one of
its limits. -/

namespace KuraMetadata.Linearizability

open Linearization Except

variable {history : History}

/-! ## The operations retained -/

/-- The operation of a search for an invocation. -/
def History.searchOperation (history : History) (invocation : Invocation) : SearchOperation where
  invocation := invocation
  completion := history.completion? invocation.operationId
  required := (history.completion? invocation.operationId).any fun completion =>
    completion.kind = .succeeded

namespace History.WellFormed

variable {invocation other : Invocation} {completion : Completion}
variable {operation : SearchOperation} (h : history.WellFormed)
include h

theorem completion?_eq_some {id : OperationId} :
    history.completion? id = some completion
      ↔ completion ∈ history.completions ∧ completion.operationId = id :=
  List.find?_key_eq_some h.once

theorem completion_answers (hmem : invocation ∈ history.invocations)
    (hcompletion : history.completion? invocation.operationId = some completion) :
    completion.Answers invocation := by
  obtain ⟨hcompletion, hid⟩ := h.completion?_eq_some.mp hcompletion
  obtain ⟨answered, hanswered, hanswers⟩ := h.answers completion hcompletion
  obtain rfl := List.inj_on_of_nodup_map h.distinct hanswered hmem (hanswers.operationId.trans hid)
  exact hanswers

theorem succeeded_iff :
    history.Succeeded invocation
      ↔ ∃ completion, history.completion? invocation.operationId = some completion
        ∧ completion.kind = .succeeded := by
  simp only [Succeeded, h.completion?_eq_some, and_assoc]

theorem uncertain_iff :
    history.Uncertain invocation
      ↔ ∀ completion, history.completion? invocation.operationId = some completion →
        completion.kind = .indeterminate := by
  simp only [Uncertain, h.completion?_eq_some, and_imp]

theorem before_iff :
    history.Before invocation other
      ↔ ∃ completion, history.completion? invocation.operationId = some completion
        ∧ completion.completedAt < other.invokedAt := by
  simp only [Before, h.completion?_eq_some, and_assoc]

theorem required_iff :
    (history.searchOperation invocation).required = true ↔ history.Succeeded invocation := by
  rw [h.succeeded_iff, searchOperation, Option.any_eq_true]
  simp only [decide_eq_true_eq]

theorem retain_eq_some :
    history.retain invocation = some operation
      ↔ history.Retains invocation ∧ history.searchOperation invocation = operation := by
  simp only [Retains, h.succeeded_iff, h.uncertain_iff, retain, searchOperation]
  cases history.completion? invocation.operationId with
  | none => cases invocation.operation.mutating <;> simp
  | some completion =>
    cases hkind : completion.kind with
    | succeeded | failed | timedOut => simp [hkind]
    | indeterminate => cases invocation.operation.mutating <;> simp [hkind]

theorem mem_retained :
    operation ∈ history.retained ↔ ∃ invocation ∈ history.invocations, history.Retains invocation
        ∧ history.searchOperation invocation = operation := by
  rw [retained, List.mem_insertionSort, List.mem_filterMap]
  simp only [h.retain_eq_some]

/-- Results are recorded as the search expects them. -/
theorem accepts_expected_iff (hmem : invocation ∈ history.invocations) {result : Result} :
    accepts (history.searchOperation invocation).expected result = true
      ↔ history.Reports invocation result := by
  have hreports : history.Reports invocation result
      ↔ ∀ completion, history.completion? invocation.operationId = some completion →
        completion.kind = .succeeded → completion.result = some result := by
    simp only [Reports, h.completion?_eq_some, and_imp]
  rw [hreports]
  cases hcompletion : history.completion? invocation.operationId with
  | none => simp [accepts, SearchOperation.expected, searchOperation, hcompletion]
  | some completion =>
    have houtcome := (h.completion_answers hmem hcompletion).outcome
    simp only [accepts, SearchOperation.expected, searchOperation, hcompletion, Option.any_some,
      decide_eq_true_eq, Option.bind_some, Option.some.injEq, forall_eq']
    by_cases hkind : completion.kind = .succeeded
    · -- a successful completion has a result
      rw [if_pos hkind]
      rw [validateOutcome, if_pos hkind] at houtcome
      cases hresult : completion.result with
      | none =>
        rw [hresult] at houtcome
        cases houtcome
      | some recorded => simp [hkind]
    · rw [if_neg hkind]
      simp [hkind]

end History.WellFormed

/-! ## Predecessors -/

section

variable {operations : List SearchOperation}

theorem mem_positions_foldl {P : SearchOperation × Nat → Prop} [DecidablePred P]
    {items : List (SearchOperation × Nat)} (hitems : ∀ item ∈ items, item.2 < 64) (mask : Mask)
    {i : Nat} :
    i ∈ positions (items.foldl (fun mask item => if P item then mask ||| bit item.2 else mask) mask)
      ↔ i ∈ positions mask ∨ ∃ item ∈ items, item.2 = i ∧ P item := by
  induction items generalizing mask with
  | nil => simp
  | cons item items ih =>
    obtain ⟨hitem, hitems⟩ := List.forall_mem_cons.mp hitems
    rw [List.foldl_cons, ih hitems]
    by_cases hP : P item
    · rw [if_pos hP, positions_or, Finset.mem_union, positions_bit hitem, Finset.mem_singleton]
      simp only [List.exists_mem_cons_iff, hP, and_true, or_assoc, eq_comm]
    · rw [if_neg hP]
      simp only [List.exists_mem_cons_iff, hP, and_false, false_or]

theorem getElem?_withPredecessors (i : Nat) :
    (withPredecessors operations)[i]?
      = operations[i]?.map fun operation =>
        { operation with predecessors := predecessorsOf operations operation i } := by
  rw [withPredecessors, List.getElem?_map, List.getElem?_zipIdx, Option.map_map, Nat.zero_add]
  rfl

@[simp]
theorem length_withPredecessors : (withPredecessors operations).length = operations.length := by
  rw [withPredecessors, List.length_map, List.length_zipIdx]

/-- Only the fields that the loop leaves as they are decide what comes before what. -/
theorem before_withPredecessors {i j : Nat} :
    (problemOf (withPredecessors operations)).before i j
      ↔ ∃ earlier later, operations[i]? = some earlier ∧ operations[j]? = some later
        ∧ earlier.precedes later = true := by
  simp only [problemOf, getElem?_withPredecessors, Option.map_eq_some_iff]
  constructor
  · rintro ⟨_, _, ⟨earlier, hi, rfl⟩, ⟨later, hj, rfl⟩, hprecedes⟩
    exact ⟨earlier, later, hi, hj, hprecedes⟩
  · rintro ⟨earlier, later, hi, hj, hprecedes⟩
    exact ⟨_, _, ⟨earlier, hi, rfl⟩, ⟨later, hj, rfl⟩, hprecedes⟩

theorem prepared_withPredecessors (hlength : operations.length ≤ 64)
    (htimely : ∀ operation ∈ operations, ∀ completion ∈ operation.completion,
      operation.invocation.invokedAt ≤ completion.completedAt) :
    Prepared (withPredecessors operations) := by
  refine ⟨by rwa [length_withPredecessors], fun operation hoperation => ?_,
    fun j later hlater i => ?_⟩
  · obtain ⟨j, hj⟩ := List.mem_iff_getElem?.mp hoperation
    rw [getElem?_withPredecessors, Option.map_eq_some_iff] at hj
    obtain ⟨original, horiginal, rfl⟩ := hj
    exact htimely original (List.mem_of_getElem? horiginal)
  · rw [getElem?_withPredecessors, Option.map_eq_some_iff] at hlater
    obtain ⟨original, horiginal, rfl⟩ := hlater
    have hitems : ∀ item ∈ operations.zipIdx, item.2 < 64 := fun item hitem =>
      Nat.lt_of_lt_of_le (List.getElem?_eq_some_iff.mp (mem_zipIdx hitem)).1 hlength
    rw [predecessorsOf, mem_positions_foldl hitems, before_withPredecessors, horiginal]
    simp only [mask_eq_zero.mp rfl, Finset.notMem_empty, false_or, Option.some.injEq]
    constructor
    · rintro ⟨⟨earlier, _⟩, hitem, rfl, -, hprecedes⟩
      exact ⟨earlier, original, mem_zipIdx hitem, rfl, hprecedes⟩
    · rintro ⟨earlier, _, hearlier, rfl, hprecedes⟩
      refine ⟨(earlier, i), List.mem_zipIdx_iff_getElem?.mpr hearlier, rfl, ?_, hprecedes⟩
      -- no operation is over before it begins
      rintro rfl
      rw [horiginal] at hearlier
      obtain rfl := Option.some.inj hearlier
      obtain ⟨completion, hcompletion, hlt⟩ := precedes_iff.mp hprecedes
      exact UInt64.not_lt.mpr
        (htimely _ (List.mem_of_getElem? horiginal) completion hcompletion) hlt

end

/-! ## Orders of positions -/

namespace History

/-- The invocation of the operation at a position. -/
def invocationAt (history : History) (i : Nat) : Invocation :=
  (history.retained[i]?.map (·.invocation)).getD default

/-- The problem the search decides. -/
abbrev problem (history : History) : Problem Nat ModelState :=
  problemOf (withPredecessors history.retained)

namespace WellFormed

variable {i j : Nat} {state : ModelState} {order : List Nat} (h : history.WellFormed)
include h

theorem retained_at (hi : i < history.retained.length) :
    history.retained[i]? = some (history.searchOperation (history.invocationAt i))
      ∧ history.invocationAt i ∈ history.invocations
      ∧ history.Retains (history.invocationAt i) := by
  have hoperation := List.getElem?_eq_getElem hi
  obtain ⟨invocation, hmem, hretains, heq⟩ := h.mem_retained.mp (List.getElem_mem hi)
  have hat : history.invocationAt i = invocation := by
    rw [invocationAt, hoperation, ← heq]
    rfl
  rw [hat, hoperation, heq]
  exact ⟨rfl, hmem, hretains⟩

theorem exists_position {invocation : Invocation}
    (hmem : invocation ∈ history.invocations) (hretains : history.Retains invocation) :
    ∃ i < history.retained.length, history.invocationAt i = invocation := by
  obtain ⟨i, hi⟩ := List.mem_iff_getElem?.mp (h.mem_retained.mpr ⟨invocation, hmem, hretains, rfl⟩)
  refine ⟨i, (List.getElem?_eq_some_iff.mp hi).1, ?_⟩
  rw [invocationAt, hi]
  rfl

theorem nodup_retained : history.retained.Nodup := by
  rw [retained, (List.perm_insertionSort _ _).nodup_iff]
  refine (List.Nodup.of_map _ h.distinct).filterMap fun first second operation hfirst hsecond => ?_
  obtain ⟨-, rfl⟩ := h.retain_eq_some.mp hfirst
  exact (congrArg SearchOperation.invocation (h.retain_eq_some.mp hsecond).2).symm

section

variable (hi : i < history.retained.length)
include hi

theorem invocationAt_injective
    (hj : j < history.retained.length) (hat : history.invocationAt i = history.invocationAt j) :
    i = j := by
  refine (List.getElem?_inj hi h.nodup_retained).mp ?_
  rw [(h.retained_at hi).1, (h.retained_at hj).1, hat]

/-! ### The problem in terms of invocations -/

theorem problem_required :
    history.problem.required i ↔ history.Succeeded (history.invocationAt i) := by
  rw [← h.required_iff]
  simp only [problem, problemOf, getElem?_withPredecessors, (h.retained_at hi).1, Option.map_some,
    Option.some.injEq, exists_eq_left']

theorem problem_before (hj : j < history.retained.length) :
    history.problem.before i j
      ↔ history.Before (history.invocationAt i) (history.invocationAt j) := by
  rw [before_withPredecessors, h.before_iff]
  simp only [(h.retained_at hi).1, (h.retained_at hj).1, Option.some.injEq, precedes_iff]
  constructor
  · rintro ⟨_, _, rfl, rfl, hbefore⟩
    exact hbefore
  · exact fun hbefore => ⟨_, _, rfl, rfl, hbefore⟩

theorem problem_step :
    history.problem.step i state = apply state (history.invocationAt i).operation
          (history.searchOperation (history.invocationAt i)).expected := by
  simp only [problem, problemOf, getElem?_withPredecessors, (h.retained_at hi).1, Option.map_some,
    Option.bind_some]
  rfl

end

/-- Operations that the model can perform one after the other are the ones with the results
recorded. -/
theorem runs_iff_reproduces (horder : ∀ i ∈ order, i < history.retained.length)
    (hrevision : state.revision + order.length ≤ i64Max) :
    (order.foldlM (fun state i => history.problem.step i state) state).isSome = true
      ↔ history.Reproduces state.abstract (order.map history.invocationAt) := by
  induction order generalizing state with
  | nil => exact ⟨fun _ => trivial, fun _ => rfl⟩
  | cons i order ih =>
    obtain ⟨hi, horder⟩ := List.forall_mem_cons.mp horder
    rw [List.length_cons] at hrevision
    obtain ⟨next, hstep, hnext⟩ := @apply_eq state (history.invocationAt i).operation
      (history.searchOperation (history.invocationAt i)).expected (by omega)
    have hle : next.revision ≤ state.revision + 1 := by
      have hle := revision_perform_le state.abstract (history.invocationAt i).operation
      rw [← hnext] at hle
      exact hle
    rw [List.foldlM_cons, h.problem_step hi, hstep, List.map_cons, Reproduces,
      ← h.accepts_expected_iff (h.retained_at hi).2.1, ← hnext]
    split
    · rename_i haccepts
      rw [and_iff_right haccepts]
      exact ih horder (by omega)
    · rename_i hrejects
      exact ⟨fun hnone => (by cases hnone), fun hboth => absurd hboth.1 hrejects⟩

variable (hlength : history.retained.length ≤ 64)
include hlength

/-- An order of positions solves the problem exactly if the invocations are a linearization. -/
theorem solves_iff_isLinearization (horder : ∀ i ∈ order, i < history.retained.length) :
    Solves history.problem (Finset.range history.retained.length) {} order
      ↔ history.IsLinearization (order.map history.invocationAt) := by
  have hshort : order.Nodup → order.length ≤ 64 := by
    intro hdistinct
    have hsubset : order.toFinset ⊆ Finset.range history.retained.length := fun i hi =>
      Finset.mem_range.mpr (horder i (List.mem_toFinset.mp hi))
    have hcard := Finset.card_le_card hsubset
    rw [List.toFinset_card_of_nodup hdistinct, Finset.card_range] at hcard
    omega
  have hruns : order.Nodup →
      ((order.foldlM (fun state i => history.problem.step i state) {}).isSome = true
        ↔ history.Reproduces .empty (order.map history.invocationAt)) := by
    intro hdistinct
    have hlong := hshort hdistinct
    rw [← abstract_empty]
    refine h.runs_iff_reproduces horder ?_
    show (0 : Int) + order.length ≤ 9223372036854775807
    omega
  have htime : order.Pairwise (fun i j => ¬ history.problem.before j i)
      ↔ (order.map history.invocationAt).Pairwise
        fun earlier later => ¬ history.Before later earlier := by
    rw [List.pairwise_map]
    exact List.Pairwise.iff_of_mem fun hi hj =>
      not_congr (h.problem_before (horder _ hj) (horder _ hi))
  constructor
  · intro hsolves
    refine ⟨?_, ?_, fun invocation hmem hsucceeded => ?_, htime.mp hsolves.realTime,
      (hruns hsolves.nodup).mp hsolves.runs⟩
    · exact List.Nodup.map_on
        (fun i hi j hj => h.invocationAt_injective (horder i hi) (horder j hj)) hsolves.nodup
    · intro invocation hmem
      obtain ⟨i, hi, rfl⟩ := List.mem_map.mp hmem
      exact (h.retained_at (horder i hi)).2
    · obtain ⟨i, hi, rfl⟩ := h.exists_position hmem (.inl hsucceeded)
      refine List.mem_map_of_mem (hsolves.required i (Finset.mem_range.mpr hi) ?_)
      exact (h.problem_required hi).mpr hsucceeded
  · intro hlinear
    have hdistinct : order.Nodup := List.Nodup.of_map _ hlinear.nodup
    refine ⟨hdistinct, fun i hi => Finset.mem_range.mpr (horder i hi), fun i hi hrequired => ?_,
      htime.mpr hlinear.realTime, (hruns hdistinct).mpr hlinear.reproduces⟩
    have hi := Finset.mem_range.mp hi
    obtain ⟨j, hj, hat⟩ := List.mem_map.mp (hlinear.succeeded _ (h.retained_at hi).2.1
      ((h.problem_required hi).mp hrequired))
    rw [← h.invocationAt_injective (horder j hj) hi hat]
    exact hj

/-- The search problem of a history can be solved exactly if the history has a linearization. -/
theorem solvable_iff :
    Solvable history.problem (Finset.range history.retained.length) {}
      ↔ ∃ order, history.IsLinearization order := by
  constructor
  · rintro ⟨order, hsolves⟩
    have horder := fun i hi => Finset.mem_range.mp (hsolves.mem i hi)
    exact ⟨_, (h.solves_iff_isLinearization hlength horder).mp hsolves⟩
  · rintro ⟨order, hlinear⟩
    obtain ⟨positions, hpositions, rfl⟩ : ∃ positions : List Nat,
        (∀ i ∈ positions, i < history.retained.length)
          ∧ positions.map history.invocationAt = order := by
      have hmem := hlinear.mem
      clear hlinear
      induction order with
      | nil => exact ⟨[], List.forall_mem_nil _, rfl⟩
      | cons invocation order ih =>
        obtain ⟨⟨hinvocation, hretains⟩, hmem⟩ := List.forall_mem_cons.mp hmem
        obtain ⟨positions, hpositions, rfl⟩ := ih hmem
        obtain ⟨i, hi, rfl⟩ := h.exists_position hinvocation hretains
        exact ⟨i :: positions, List.forall_mem_cons.mpr ⟨hi, hpositions⟩, rfl⟩
    exact ⟨positions, (h.solves_iff_isLinearization hlength hpositions).mpr hlinear⟩

theorem prepared :
    Prepared (withPredecessors history.retained) := by
  refine prepared_withPredecessors hlength fun operation hoperation completion hcompletion => ?_
  obtain ⟨invocation, hmem, -, rfl⟩ := h.mem_retained.mp hoperation
  exact (h.completion_answers hmem hcompletion).later

theorem decides_searchHistory (limits : CheckerLimits) :
    Decides (withPredecessors history.retained) limits (∃ order, history.IsLinearization order) {}
      (searchHistory history limits) := by
  have hrange := positions_allRemaining hlength
  have hdecides := decidesBelow_search (h.prepared hlength) limits history.retained.length
    (allRemaining history.retained.length) {} {}
  rw [hrange, length_withPredecessors, Finset.card_range] at hdecides
  rw [← h.solvable_iff hlength, searchHistory, length_withPredecessors]
  exact hdecides le_rfl (Finset.Subset.refl _) fun _ _ hmem => absurd hmem (Finset.notMem_empty _)

end WellFormed

end History

/-! ## The checker -/

/-- One of the limits of the checker was reached: on the operations of the history, on those a mask
has room for, on the states explored or on those remembered. -/
def LimitReached (history : History) (limits : CheckerLimits) : Prop :=
  (limits.maxOperations = 0 ∨ limits.maxOperations < history.invocations.length)
    ∨ 64 < history.retained.length
    ∨ limits.maxSearchStates ≤ (searchHistory history limits).2.explored
    ∨ limits.maxMemoEntries ≤ (searchHistory history limits).2.deadStates.card

/-- What an outcome says of a history. -/
structure SearchOutcome.Tells (outcome : SearchOutcome) (history : History)
    (limits : CheckerLimits) :
    Prop where
  linearizable : outcome = .linearizable → ∃ order, history.IsLinearization order
  notLinearizable : outcome = .notLinearizable → ¬ ∃ order, history.IsLinearization order
  inconclusive : outcome = .inconclusive → LimitReached history limits

section

variable {limits : CheckerLimits}

theorem tells_inconclusive (h : LimitReached history limits) :
    SearchOutcome.inconclusive.Tells history limits :=
  ⟨fun h => (by cases h), fun h => (by cases h), fun _ => h⟩

theorem checkInternal_tells (h : history.WellFormed) (limits : CheckerLimits) :
    ∃ result, checkInternal history limits = .ok result ∧ result.outcome.Tells history limits := by
  have hvalid := validate_eq_ok.mpr h
  rw [checkInternal, hvalid, ok_bind]
  by_cases hzero : limits.maxOperations = 0 ∨ limits.maxSearchStates = 0 ∨ limits.maxMemoEntries = 0
  · rw [if_pos hzero]
    refine ⟨_, rfl, tells_inconclusive ?_⟩
    unfold LimitReached
    omega
  rw [if_neg hzero]
  by_cases hoperations : limits.maxOperations < history.invocations.length
  · rw [if_pos hoperations]
    exact ⟨_, rfl, tells_inconclusive (.inl (.inr hoperations))⟩
  rw [if_neg hoperations]
  by_cases hretained : 64 < history.retained.length
  · rw [if_pos hretained]
    exact ⟨_, rfl, tells_inconclusive (.inr (.inl hretained))⟩
  rw [if_neg hretained]
  have hdecides := h.decides_searchHistory (Nat.not_lt.mp hretained) limits
  exact ⟨_, rfl, hdecides.linearizable, hdecides.notLinearizable,
    fun hinconclusive => .inr (.inr (hdecides.inconclusive hinconclusive))⟩

/-- The minimization never meets a history it cannot check. -/
theorem exists_removeOperation (h : history.WellFormed) (limits : CheckerLimits)
    (ids : List OperationId) (explored : Nat) :
    ∃ removed, removeOperation limits history ids explored = .ok removed
      ∧ ∀ candidate ∈ removed.1, candidate.WellFormed := by
  induction ids generalizing explored with
  | nil => exact ⟨_, rfl, by simp⟩
  | cons id ids ih =>
    rw [removeOperation]
    split
    · exact ih explored
    · obtain ⟨result, hresult, -⟩ := checkInternal_tells (h.without id) limits
      rw [hresult, ok_bind]
      split
      · refine ⟨_, rfl, fun candidate hcandidate => ?_⟩
        obtain rfl := Option.some.inj hcandidate
        exact h.without id
      · exact ih _

theorem exists_minimize (limits : CheckerLimits) (passes : Nat) (h : history.WellFormed)
    (explored : Nat) :
    ∃ minimized, minimize limits passes history explored = .ok minimized
      ∧ minimized.1.WellFormed := by
  induction passes generalizing history explored with
  | zero => exact ⟨_, rfl, h⟩
  | succ passes ih =>
    obtain ⟨removed, hremoved, hcandidates⟩ := exists_removeOperation h limits
      ((history.invocations.map (·.operationId)).insertionSort (· ≤ ·)) explored
    rw [minimize, hremoved, ok_bind]
    split
    · exact ⟨_, rfl, h⟩
    · rename_i candidate hcandidate
      exact ih (hcandidates candidate hcandidate) _

/-- `check` returns what the search on the whole history has found. -/
theorem check_tells (h : history.WellFormed) (limits : CheckerLimits) :
    ∃ result, check history limits = .ok result ∧ result.outcome.Tells history limits := by
  obtain ⟨result, hresult, htells⟩ := checkInternal_tells h limits
  rw [check, hresult, ok_bind]
  split
  · rename_i houtcome
    obtain ⟨minimized, hminimized, hvalid⟩ :=
      exists_minimize limits history.invocations.length h result.explored
    have hserialize : ∃ replay, serialize minimized.1 = .ok replay := by
      rw [serialize, validate_eq_ok.mpr hvalid, ok_bind]
      exact ⟨_, rfl⟩
    obtain ⟨replay, hreplay⟩ := hserialize
    rw [hminimized, ok_bind, hreplay, ok_bind]
    rw [houtcome] at htells
    exact ⟨_, rfl, htells⟩
  · exact ⟨_, rfl, htells⟩

end

/-- The checker is sound and complete. On every history that `validate` accepts, `check` returns;
it says that the history is linearizable only if some order of its operations is a linearization,
that it is not only if none is, and that it does not know only if it has reached a limit. -/
theorem check_sound_and_complete (history : History) (limits : CheckerLimits)
    (hvalid : validate history = .ok ()) :
    ∃ result, check history limits = .ok result
      ∧ (result.outcome = .linearizable → ∃ order, history.IsLinearization order)
      ∧ (result.outcome = .notLinearizable → ¬ ∃ order, history.IsLinearization order)
      ∧ (result.outcome = .inconclusive → LimitReached history limits) := by
  obtain ⟨result, hresult, htells⟩ := check_tells (validate_eq_ok.mp hvalid) limits
  exact ⟨result, hresult, htells.linearizable, htells.notLinearizable, htells.inconclusive⟩

/-- A read that was invoked after a write had succeeded, and returned the state before it. -/
def staleRead : History where
  invocations := [⟨1, 1, 1, .put [1] [7]⟩, ⟨2, 2, 3, .get [1]⟩]
  completions := [⟨1, 2, .succeeded, some (.put 1)⟩, ⟨2, 4, .succeeded, some (.get none 0)⟩]

theorem check_sound_and_complete_staleRead :
    validate staleRead = .ok () ∧ ¬ ∃ order, staleRead.IsLinearization order := by
  have hvalid : validate staleRead = .ok () := by decide +kernel
  obtain ⟨result, hresult, -, hnone, -⟩ := check_sound_and_complete staleRead {} hvalid
  have houtcome : (check staleRead {}).map (·.outcome) = .ok .notLinearizable := by decide +kernel
  rw [hresult] at houtcome
  exact ⟨hvalid, hnone (Except.ok.inj houtcome)⟩

end KuraMetadata.Linearizability
