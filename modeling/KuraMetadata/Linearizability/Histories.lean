import Mathlib.Logic.Function.Basic
import KuraMetadata.Linearizability.Checker
import KuraMetadata.Library.OrderedMap

/-! # What the checker decides

A sequential store, with revisions that never run out, performs every operation and returns its
result. A history is linearizable if some order of its operations, performed one after the other
on the empty store, has the results the clients were given. The model the checker searches with
performs operations as the sequential store does. -/

namespace KuraMetadata.Linearizability

open List Except Option

/-! ## The sequential store -/

structure SequentialStore where
  revision : Int
  value : ByteSequence → Option VersionedValue

namespace SequentialStore

def empty : SequentialStore := ⟨0, fun _ => none⟩

/-- The key is given a value, or none, at the next revision. -/
def write (store : SequentialStore) (key : ByteSequence) (value : Option ByteSequence) :
    SequentialStore where
  revision := store.revision + 1
  value := Function.update store.value key (value.map fun value => ⟨value, store.revision + 1⟩)

/-- The result of an operation and the store after it. -/
def perform (store : SequentialStore) : Operation → Result × SequentialStore
  | .get key => (.get (store.value key) store.revision, store)
  | .put key value => (.put (store.revision + 1), store.write key (some value))
  | .erase key =>
    if (store.value key).isSome then (.erase true (store.revision + 1), store.write key none)
    else (.erase false store.revision, store)
  | .compareAndSwap key expected desired =>
    if (store.value key).map (·.value) = expected then
      if desired.isSome ∨ (store.value key).isSome then
        (.compareAndSwap true (store.revision + 1), store.write key desired)
      else (.compareAndSwap true store.revision, store)
    else (.compareAndSwap false store.revision, store)

end SequentialStore

/-! ## Linearizations -/

namespace History

variable (history : History)

/-- The operation has a completion that reports a result. -/
def Succeeded (invocation : Invocation) : Prop :=
  ∃ completion ∈ history.completions,
    completion.operationId = invocation.operationId ∧ completion.kind = .succeeded

/-- The operation has no completion, or one that leaves open whether it took effect. -/
def Uncertain (invocation : Invocation) : Prop :=
  ∀ completion ∈ history.completions,
    completion.operationId = invocation.operationId → completion.kind = .indeterminate

/-- The operation may be in a linearization. -/
def Retains (invocation : Invocation) : Prop :=
  history.Succeeded invocation ∨ history.Uncertain invocation ∧ invocation.operation.mutating = true

/-- The first operation was complete when the second was invoked. -/
def Before (earlier later : Invocation) : Prop :=
  ∃ completion ∈ history.completions,
    completion.operationId = earlier.operationId ∧ completion.completedAt < later.invokedAt

/-- The results recorded for an operation are the one it has. -/
def Reports (invocation : Invocation) (result : Result) : Prop :=
  ∀ completion ∈ history.completions, completion.operationId = invocation.operationId →
    completion.kind = .succeeded → completion.result = some result

/-- The operations, performed in this order, have the results recorded. -/
def Reproduces : SequentialStore → List Invocation → Prop
  | _, [] => True
  | store, invocation :: order =>
    history.Reports invocation (store.perform invocation.operation).1
      ∧ Reproduces (store.perform invocation.operation).2 order

/-- All operations that succeeded and some of those that may have taken effect, in an order that
keeps to real time and has the results recorded. -/
structure IsLinearization (order : List Invocation) : Prop where
  nodup : order.Nodup
  mem : ∀ invocation ∈ order, invocation ∈ history.invocations ∧ history.Retains invocation
  succeeded : ∀ invocation ∈ history.invocations, history.Succeeded invocation → invocation ∈ order
  realTime : order.Pairwise fun earlier later => ¬ history.Before later earlier
  reproduces : history.Reproduces .empty order

end History

/-! ## The model of the checker -/

/-- The sequential store a model state stands for. -/
def ModelState.abstract (state : ModelState) : SequentialStore :=
  ⟨state.revision, fun key => state.values[key]?⟩

theorem abstract_empty : ModelState.abstract {} = .empty := by
  rw [ModelState.abstract, SequentialStore.empty]
  congr 1

section

variable {state next : ModelState} {operation : Operation} {expected : Option Result}

theorem abstract_insert (key value : ByteSequence) :
    ModelState.abstract
        { revision := state.revision + 1
          values := state.values.insert key ⟨value, state.revision + 1⟩ }
      = state.abstract.write key (some value) := by
  rw [ModelState.abstract, SequentialStore.write]
  congr 1
  exact Std.ExtTreeMap.getElem?_insert_eq_update _ _ _

theorem abstract_erase (key : ByteSequence) :
    ModelState.abstract { revision := state.revision + 1, values := state.values.erase key }
      = state.abstract.write key none := by
  rw [ModelState.abstract, SequentialStore.write]
  congr 1
  exact Std.ExtTreeMap.getElem?_erase_eq_update _ _

theorem mem_values {key : ByteSequence} :
    key ∈ state.values ↔ (state.abstract.value key).isSome = true :=
  Std.ExtTreeMap.mem_iff_isSome_getElem?

/-- While revisions last, the model accepts an operation exactly if it has the result expected, and
performs it as the sequential store does. -/
theorem apply_eq (hrevision : state.revision ≠ i64Max) :
    ∃ next, apply state operation expected
        = (if accepts expected (state.abstract.perform operation).1 then some next else none)
      ∧ next.abstract = (state.abstract.perform operation).2 := by
  have hnext : nextRevision state.revision = some (state.revision + 1) := if_neg hrevision
  cases operation with
  | get key => exact ⟨state, rfl, rfl⟩
  | put key value =>
    refine ⟨{ revision := state.revision + 1
              values := state.values.insert key ⟨value, state.revision + 1⟩ }, ?_,
      abstract_insert key value⟩
    simp only [apply, hnext, bind_eq_bind, bind_some, SequentialStore.perform]
    rfl
  | erase key =>
    simp only [apply, hnext, bind_eq_bind, bind_some, SequentialStore.perform,
      mem_values]
    split
    · exact ⟨_, rfl, abstract_erase key⟩
    · exact ⟨_, rfl, rfl⟩
  | compareAndSwap key current desired =>
    have hvalue : state.values[key]? = state.abstract.value key := rfl
    simp only [apply, hnext, bind_eq_bind, bind_some, SequentialStore.perform,
      mem_values, currentEquals, decide_eq_true_eq, hvalue]
    by_cases hcurrent : (state.abstract.value key).map (·.value) = current
    · simp only [if_pos hcurrent]
      by_cases hmutates : desired.isSome = true ∨ (state.abstract.value key).isSome = true
      · simp only [if_pos hmutates]
        cases desired with
        | none => exact ⟨_, rfl, abstract_erase key⟩
        | some value => exact ⟨_, rfl, abstract_insert key value⟩
      · simp only [if_neg hmutates]
        exact ⟨_, rfl, rfl⟩
    · simp only [if_neg hcurrent]
      exact ⟨_, rfl, rfl⟩

theorem revision_perform_le (store : SequentialStore) (operation : Operation) :
    (store.perform operation).2.revision ≤ store.revision + 1 := by
  cases operation with
  | get key => exact Int.le_add_one le_rfl
  | put key value => exact le_rfl
  | erase key =>
    rw [SequentialStore.perform]
    split
    · exact le_rfl
    · exact Int.le_add_one le_rfl
  | compareAndSwap key current desired =>
    rw [SequentialStore.perform]
    split
    · split
      · exact le_rfl
      · exact Int.le_add_one le_rfl
    · exact Int.le_add_one le_rfl

end

/-! ## Valid histories

`validate` accepts a history exactly if it is well formed: every operation has one invocation and
at most one completion, which comes later and reports what the operation can report. First, lists
with distinct keys. -/

section

variable {α κ : Type} {l : List α}

/-- A loop that checks each element and collects its key, unless it has collected that one. -/
theorem exists_foldlM_iff_distinct {ε : Type} (key : α → κ)
    {step : List κ → α → Except ε (List κ)} {P : α → Prop}
    (hstep : ∀ seen a seen', step seen a = .ok seen' ↔ P a ∧ key a ∉ seen ∧ key a :: seen = seen')
    (l : List α) (seen : List κ) :
    (∃ seen', l.foldlM step seen = .ok seen')
      ↔ (∀ a ∈ l, P a) ∧ (l.map key).Nodup ∧ ∀ a ∈ l, key a ∉ seen := by
  induction l generalizing seen with
  | nil => exact ⟨fun _ => ⟨by simp, by simp, by simp⟩, fun _ => ⟨seen, rfl⟩⟩
  | cons a l ih =>
    simp only [foldlM_cons, bind_eq_ok, hstep]
    constructor
    · rintro ⟨seen', _, ⟨hP, hnew, rfl⟩, hrest⟩
      obtain ⟨hall, hnodup, hfresh⟩ := (ih _).mp ⟨seen', hrest⟩
      refine ⟨forall_mem_cons.mpr ⟨hP, hall⟩, ?_, forall_mem_cons.mpr ⟨hnew, ?_⟩⟩
      · rw [map_cons, nodup_cons, List.mem_map]
        refine ⟨?_, hnodup⟩
        rintro ⟨b, hb, hkey⟩
        exact hfresh b hb (hkey ▸ mem_cons_self)
      · exact fun b hb hmem => hfresh b hb (mem_cons_of_mem _ hmem)
    · rintro ⟨hall, hnodup, hfresh⟩
      obtain ⟨hP, hall⟩ := forall_mem_cons.mp hall
      obtain ⟨hnew, hfresh⟩ := forall_mem_cons.mp hfresh
      rw [map_cons, nodup_cons, List.mem_map] at hnodup
      obtain ⟨seen', hrest⟩ := (ih (key a :: seen)).mpr ⟨hall, hnodup.2, fun b hb hmem => by
        rcases mem_cons.mp hmem with hkey | hmem
        · exact hnodup.1 ⟨b, hb, hkey⟩
        · exact hfresh b hb hmem⟩
      exact ⟨seen', _, ⟨hP, hnew, rfl⟩, hrest⟩

/-- With distinct keys, the order by the keys does not depend on the order before. -/
theorem insertionSort_eq_of_perm {key : α → UInt64} {l' : List α} (hnodup : (l.map key).Nodup)
    (hperm : l.Perm l') :
    l.insertionSort (fun a b => key a ≤ key b) = l'.insertionSort (fun a b => key a ≤ key b) := by
  have htotal : Std.Total fun a b : α => key a ≤ key b := ⟨fun a b => UInt64.le_total _ _⟩
  have htrans : IsTrans α fun a b => key a ≤ key b := ⟨fun a b c => UInt64.le_trans⟩
  have hsorted := (perm_insertionSort (fun a b => key a ≤ key b) l).trans
    (hperm.trans (perm_insertionSort (fun a b => key a ≤ key b) l').symm)
  refine hsorted.eq_of_pairwise (fun a b ha hb hab hba => ?_) (pairwise_insertionSort _ _)
    (pairwise_insertionSort _ _)
  have ha := (mem_insertionSort _).mp ha
  have hb := hperm.mem_iff.mpr ((mem_insertionSort _).mp hb)
  exact inj_on_of_nodup_map hnodup ha hb (UInt64.le_antisymm hab hba)

end

/-! ## Well-formed histories -/

/-- What the operation and its completion have to agree on. -/
structure Completion.Answers (completion : Completion) (invocation : Invocation) : Prop where
  operationId : invocation.operationId = completion.operationId
  later : invocation.invokedAt ≤ completion.completedAt
  outcome : validateOutcome invocation.operation completion = .ok ()

structure History.WellFormed (history : History) : Prop where
  nonzero : ∀ invocation ∈ history.invocations, invocation.operationId ≠ 0 ∧ invocation.clientId ≠ 0
  keys : ∀ invocation ∈ history.invocations, invocation.operation.key ≠ []
  distinct : (history.invocations.map (·.operationId)).Nodup
  answers : ∀ completion ∈ history.completions,
    ∃ invocation ∈ history.invocations, completion.Answers invocation
  once : (history.completions.map (·.operationId)).Nodup

section

variable {history : History}

theorem validateInvocation_eq_ok (ids : List OperationId) (invocation : Invocation)
    (ids' : List OperationId) :
    validateInvocation ids invocation = .ok ids'
      ↔ ((invocation.operationId ≠ 0 ∧ invocation.clientId ≠ 0) ∧ invocation.operation.key ≠ [])
        ∧ invocation.operationId ∉ ids ∧ invocation.operationId :: ids = ids' := by
  simp only [validateInvocation, throw_eq_error, error_bind, ite_error_eq_ok,
    pure_eq_ok, not_or, List.isEmpty_iff]
  tauto

theorem validateCompletion_eq_ok {invocations : List Invocation}
    (hdistinct : (invocations.map (·.operationId)).Nodup) (ids : List OperationId)
    (completion : Completion) (ids' : List OperationId) :
    validateCompletion invocations ids completion = .ok ids'
      ↔ (∃ invocation ∈ invocations, completion.Answers invocation)
        ∧ completion.operationId ∉ ids ∧ completion.operationId :: ids = ids' := by
  unfold validateCompletion
  split
  · rename_i hnone
    refine ⟨fun h => (by cases h), ?_⟩
    rintro ⟨⟨invocation, hmem, hanswers⟩, -⟩
    have hother := List.find?_eq_none.mp hnone invocation hmem
    exact absurd hanswers.operationId (by simpa using hother)
  · rename_i invocation hfound
    obtain ⟨hmem, hid⟩ := (find?_key_eq_some hdistinct).mp hfound
    simp only [throw_eq_error, error_bind, ite_error_eq_ok, bind_eq_ok,
      pure_eq_ok, UInt64.not_lt]
    constructor
    · rintro ⟨hnew, hlater, _, houtcome, hids⟩
      exact ⟨⟨invocation, hmem, hid, hlater, houtcome⟩, hnew, hids⟩
    · rintro ⟨⟨other, hother, hid', hlater, houtcome⟩, hnew, hids⟩
      obtain rfl := inj_on_of_nodup_map hdistinct hother hmem (hid'.trans hid.symm)
      exact ⟨hnew, hlater, (), houtcome, hids⟩

theorem validate_eq_ok : validate history = .ok () ↔ history.WellFormed := by
  have hinvocations := exists_foldlM_iff_distinct (fun invocation => invocation.operationId)
    validateInvocation_eq_ok history.invocations []
  simp only [validate, bind_eq_ok, pure_eq_ok, and_true]
  constructor
  · rintro ⟨ids, hids, ids', hids'⟩
    obtain ⟨hall, hdistinct, -⟩ := hinvocations.mp ⟨ids, hids⟩
    obtain ⟨hanswers, honce, -⟩ := (exists_foldlM_iff_distinct
      (fun completion => completion.operationId) (validateCompletion_eq_ok hdistinct)
      history.completions []).mp ⟨ids', hids'⟩
    exact ⟨fun i hi => (hall i hi).1, fun i hi => (hall i hi).2, hdistinct, hanswers, honce⟩
  · rintro ⟨hnonzero, hkeys, hdistinct, hanswers, honce⟩
    obtain ⟨ids, hids⟩ := hinvocations.mpr
      ⟨fun i hi => ⟨hnonzero i hi, hkeys i hi⟩, hdistinct, fun _ _ => not_mem_nil⟩
    obtain ⟨ids', hids'⟩ := (exists_foldlM_iff_distinct
      (fun completion => completion.operationId) (validateCompletion_eq_ok hdistinct)
      history.completions []).mpr ⟨hanswers, honce, fun _ _ => not_mem_nil⟩
    exact ⟨ids, hids, ids', hids'⟩

/-- A history without one of its operations is as well formed as the whole. -/
theorem History.WellFormed.without (h : history.WellFormed) (id : OperationId) :
    (history.without id).WellFormed := by
  refine ⟨fun invocation hmem => h.nonzero invocation (mem_of_mem_filter hmem),
    fun invocation hmem => h.keys invocation (mem_of_mem_filter hmem),
    h.distinct.sublist (List.filter_sublist.map _), fun completion hmem => ?_,
    h.once.sublist (List.filter_sublist.map _)⟩
  obtain ⟨hmem, hid⟩ := mem_filter.mp hmem
  obtain ⟨invocation, hinvocation, hanswers⟩ := h.answers completion hmem
  refine ⟨invocation, mem_filter.mpr ⟨hinvocation, ?_⟩, hanswers⟩
  rw [hanswers.operationId]
  exact hid

/-! ## The order of the records -/

/-- Two histories are the same up to the order of their records. -/
structure History.SameRecords (history other : History) : Prop where
  invocations : history.invocations.Perm other.invocations
  completions : history.completions.Perm other.completions

/-- The records in the order of their operation IDs. -/
def History.sorted (history : History) : History where
  invocations := history.invocations.insertionSort fun left right =>
    left.operationId ≤ right.operationId
  completions := history.completions.insertionSort fun left right =>
    left.operationId ≤ right.operationId

variable {other : History}

theorem History.SameRecords.symm (h : history.SameRecords other) : other.SameRecords history :=
  ⟨h.invocations.symm, h.completions.symm⟩

theorem History.sameRecords_sorted (history : History) : history.sorted.SameRecords history :=
  ⟨perm_insertionSort _ _, perm_insertionSort _ _⟩

/-- What `validate` checks does not depend on the order of the records. -/
theorem History.WellFormed.of_sameRecords (h : history.WellFormed)
    (hsame : history.SameRecords other) : other.WellFormed := by
  obtain ⟨hinvocations, hcompletions⟩ := hsame
  refine ⟨fun invocation hmem => h.nonzero invocation (hinvocations.mem_iff.mpr hmem),
    fun invocation hmem => h.keys invocation (hinvocations.mem_iff.mpr hmem),
    (hinvocations.map _).nodup_iff.mp h.distinct, fun completion hmem => ?_,
    (hcompletions.map _).nodup_iff.mp h.once⟩
  obtain ⟨invocation, hinvocation, hanswers⟩ := h.answers completion (hcompletions.mem_iff.mpr hmem)
  exact ⟨invocation, hinvocations.mem_iff.mp hinvocation, hanswers⟩

theorem History.WellFormed.sorted (h : history.WellFormed) : history.sorted.WellFormed :=
  h.of_sameRecords history.sameRecords_sorted.symm

/-- Well-formed histories have one sorted form exactly if they are the same up to the order. -/
theorem History.WellFormed.sorted_eq_iff (h : history.WellFormed) :
    other.sorted = history.sorted ↔ other.SameRecords history := by
  constructor
  · intro heq
    have hother := other.sameRecords_sorted.symm
    rw [heq] at hother
    have hhistory := history.sameRecords_sorted
    exact ⟨hother.invocations.trans hhistory.invocations,
      hother.completions.trans hhistory.completions⟩
  · rintro ⟨hinvocations, hcompletions⟩
    exact (congrArg₂ History.mk (insertionSort_eq_of_perm h.distinct hinvocations.symm)
      (insertionSort_eq_of_perm h.once hcompletions.symm)).symm

end

end KuraMetadata.Linearizability
