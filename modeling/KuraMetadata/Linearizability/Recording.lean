import KuraMetadata.Linearizability.Check
import KuraMetadata.Store.Changes

/-! # Histories recorded on the store

Clients invoke operations on a fresh `InMemoryMetadataStore`, each takes effect at some moment
between its invocation and its completion, and a recorder writes down what they were told. The
order in which the operations took effect is a linearization of the record: the checker never
reports one as not linearizable. -/

namespace KuraMetadata.Linearizability

open InMemoryMetadataStore List

variable {result : Result} {store store' : SequentialStore} {invocation : Invocation}
variable {completion : Completion} {limits : StoreLimits} {e : Execution}

/-! ## The store as a sequential store -/

def versioned (value : KeyValue) : VersionedValue := ⟨value.value, value.modRevision⟩

/-- What the store shows to `get`, `put` and `erase`. -/
def sequentialOf (s : InMemoryMetadataStore) : SequentialStore :=
  ⟨s.revision, fun key => s.values[key]?.map versioned⟩

/-- An operation takes effect on the store, which returns what the client is told. The store has no
compare-and-swap of values, so that one never does. -/
inductive TakesEffect (s t : InMemoryMetadataStore) : Operation → Result → Prop
  | get {key : ByteSequence} {read : StoreRead} (h : get key s = .ok read t) :
      TakesEffect s t (.get key) (.get (read.value.map versioned) read.revision)
  | put {key value : ByteSequence} {result : PutResult × Option EventBatch}
      (h : put key value s = .ok result t) :
      TakesEffect s t (.put key value) (.put result.1.revision)
  | erase {key : ByteSequence} {result : DeleteResult × Option EventBatch}
      (h : erase key s = .ok result t) :
      TakesEffect s t (.erase key) (.erase result.1.deleted result.1.revision)

section

variable {s t : InMemoryMetadataStore} {key : ByteSequence} {leases : LeaseMap} {batch : EventBatch}

theorem sequentialOf_insert {value : KeyValue} (hvalue : value.modRevision = s.revision + 1)
    (hbatch : batch.revision = s.revision + 1) :
    sequentialOf (s.published (s.values.insert key value) leases batch)
      = (sequentialOf s).write key (some value.value) := by
  have hvalues : (fun other => ((s.values.insert key value)[other]?).map versioned)
      = Function.update (sequentialOf s).value key (some (versioned value)) :=
    (congrArg (Option.map versioned ∘ ·)
      (Std.ExtTreeMap.getElem?_insert_eq_update s.values key value)).trans
        (Function.comp_update _ _ _ _)
  rw [versioned, hvalue] at hvalues
  rw [sequentialOf, SequentialStore.write]
  congr 1

theorem sequentialOf_erase (hbatch : batch.revision = s.revision + 1) :
    sequentialOf (s.published (s.values.erase key) leases batch)
      = (sequentialOf s).write key none := by
  have hvalues : (fun other => ((s.values.erase key)[other]?).map versioned)
      = Function.update (sequentialOf s).value key none :=
    (congrArg (Option.map versioned ∘ ·)
      (Std.ExtTreeMap.getElem?_erase_eq_update s.values key)).trans (Function.comp_update _ _ _ _)
  rw [sequentialOf, SequentialStore.write]
  congr 1

theorem TakesEffect.perform {operation : Operation} (h : TakesEffect s t operation result) :
    (sequentialOf s).perform operation = (result, sequentialOf t) := by
  cases h with
  | @get key read h =>
    simp only [InMemoryMetadataStore.get, EStateM.ofExcept_bind_eq_ok, EStateM.get_bind_apply,
      EStateM.pure_apply, EStateM.Result.ok.injEq] at h
    obtain ⟨_, -, rfl, rfl⟩ := h
    rfl
  | @put key value result h =>
    simp only [InMemoryMetadataStore.put, EStateM.ofExcept_bind_eq_ok] at h
    obtain ⟨_, -, h⟩ := h
    have hrevision := putLocked_revision h
    obtain ⟨leases, -, -, -, rfl⟩ := putLocked_eq_ok h
    rw [sequentialOf_insert rfl rfl, hrevision]
    rfl
  | @erase key result h =>
    obtain ⟨hrevision, hdeleted⟩ := erase_result h
    rw [hrevision, hdeleted, SequentialStore.perform]
    have hvalue : ((sequentialOf s).value key).isSome = s.values[key]?.isSome := Option.isSome_map
    rw [hvalue]
    rcases erase_eq_ok h with ⟨hnone, -, rfl⟩ | ⟨previous, leases, hsome, -, -, -, rfl⟩
    · rw [hnone]
      rfl
    · rw [hsome, sequentialOf_erase rfl]
      rfl

end

/-! ## Executions -/

/-- An operation that has taken effect, with its result and the time. -/
structure Effect where
  invocation : Invocation
  result : Result
  time : LogicalTime

/-- A store, the clients' clock, the history recorded so far and, in their order, the operations
that have taken effect. -/
structure Execution where
  store : InMemoryMetadataStore
  now : LogicalTime
  history : History
  effects : List Effect

/-- What may be recorded as the completion of an operation: a success with the result the store
returned, no effect if there was none, or that the client does not know. -/
def Reported (effects : List Effect) (invocation : Invocation) (completion : Completion) : Prop :=
  match completion.kind with
  | .succeeded => ∃ effect ∈ effects, effect.invocation = invocation
      ∧ completion.result = some effect.result
  | .indeterminate => completion.result = none
  | _ => completion.result = none ∧ ∀ effect ∈ effects, effect.invocation ≠ invocation

/-- The operation has no completion yet. -/
def History.Pending (history : History) (invocation : Invocation) : Prop :=
  invocation ∈ history.invocations
    ∧ ∀ completion ∈ history.completions, completion.operationId ≠ invocation.operationId

/-- One event: time passes, a client invokes an operation, a pending operation takes effect on the
store, or its completion is recorded. -/
inductive Step : Execution → Execution → Prop
  | tick {e : Execution} {time : LogicalTime} (htime : e.now ≤ time) : Step e { e with now := time }
  | invoke {e : Execution} {invocation : Invocation}
      (hnew : ∀ other ∈ e.history.invocations, other.operationId ≠ invocation.operationId)
      (hkey : invocation.operation.key ≠ []) (htime : invocation.invokedAt = e.now) :
      Step e { e with
        history := { e.history with invocations := e.history.invocations ++ [invocation] } }
  | takeEffect {e : Execution} {invocation : Invocation} {result : Result}
      {t : InMemoryMetadataStore} (hpending : e.history.Pending invocation)
      (hnew : ∀ effect ∈ e.effects, effect.invocation ≠ invocation)
      (heffect : TakesEffect e.store t invocation.operation result) :
      Step e { e with store := t, effects := e.effects ++ [⟨invocation, result, e.now⟩] }
  | complete {e : Execution} {invocation : Invocation} {completion : Completion}
      (hpending : e.history.Pending invocation)
      (hid : completion.operationId = invocation.operationId)
      (htime : completion.completedAt = e.now)
      (hreported : Reported e.effects invocation completion) :
      Step e { e with
        history := { e.history with completions := e.history.completions ++ [completion] } }

/-- The executions on a fresh store. -/
inductive Reaches (limits : StoreLimits) : Execution → Prop
  | start {store : InMemoryMetadataStore} (hopen : ofRevision 0 limits = .ok store)
      (now : LogicalTime) : Reaches limits ⟨store, now, ⟨[], []⟩, []⟩
  | step {e e' : Execution} (before : Reaches limits e) (hstep : Step e e') : Reaches limits e'

/-! ## The invariant -/

/-- The operations have these results when they are performed one after the other. -/
def Yields : SequentialStore → List Effect → SequentialStore → Prop
  | store, [], store' => store = store'
  | store, effect :: effects, store' =>
    (store.perform effect.invocation.operation).1 = effect.result
      ∧ Yields (store.perform effect.invocation.operation).2 effects store'

variable {effects : List Effect}

theorem Yields.concat (h : Yields store effects store') (effect : Effect)
    (hresult : (store'.perform effect.invocation.operation).1 = effect.result) :
    Yields store (effects ++ [effect]) (store'.perform effect.invocation.operation).2 := by
  induction effects generalizing store with
  | nil =>
    obtain rfl := h
    exact ⟨hresult, rfl⟩
  | cons first effects ih => exact ⟨h.1, ih h.2⟩

/-- The completion of an operation comes after its invocation and, if it had one, its effect. -/
structure Answered (e : Execution) (completion : Completion) (invocation : Invocation) : Prop where
  invoked : invocation ∈ e.history.invocations
  operationId : invocation.operationId = completion.operationId
  later : invocation.invokedAt ≤ completion.completedAt
  reported : Reported e.effects invocation completion
  effective : ∀ effect ∈ e.effects, effect.invocation = invocation →
    effect.time ≤ completion.completedAt

structure Recorded (e : Execution) : Prop where
  begun : ∀ invocation ∈ e.history.invocations, invocation.invokedAt ≤ e.now
  keys : ∀ invocation ∈ e.history.invocations, invocation.operation.key ≠ []
  distinct : (e.history.invocations.map (·.operationId)).Nodup
  once : (e.history.completions.map (·.operationId)).Nodup
  answered : ∀ completion ∈ e.history.completions, ∃ invocation, Answered e completion invocation
  invoked : ∀ effect ∈ e.effects, effect.invocation ∈ e.history.invocations
    ∧ effect.invocation.invokedAt ≤ effect.time ∧ effect.time ≤ e.now
  separate : (e.effects.map (·.invocation)).Nodup
  ordered : e.effects.Pairwise fun first second => first.time ≤ second.time
  yields : Yields .empty e.effects (sequentialOf e.store)

theorem nodup_concat {α : Type} {l : List α} {a : α} (h : l.Nodup) (ha : a ∉ l) :
    (l ++ [a]).Nodup :=
  nodup_append.mpr ⟨h, nodup_singleton a, fun b hb c hc hbc => by
    rw [mem_singleton.mp hc] at hbc
    exact ha (hbc ▸ hb)⟩

variable {effect : Effect}

/-- What has been reported of one operation still holds when another one takes effect. -/
theorem Reported.concat (h : Reported effects invocation completion)
    (hother : effect.invocation ≠ invocation) :
    Reported (effects ++ [effect]) invocation completion := by
  unfold Reported at h ⊢
  have hnone : (∀ other ∈ effects, other.invocation ≠ invocation) →
      ∀ other ∈ effects ++ [effect], other.invocation ≠ invocation :=
    fun hall => forall_mem_concat hall hother
  cases hkind : completion.kind with
  | succeeded =>
    rw [hkind] at h
    obtain ⟨found, hfound, heq⟩ := h
    exact ⟨found, mem_append_left _ hfound, heq⟩
  | failed | timedOut =>
    rw [hkind] at h
    exact ⟨h.1, hnone h.2⟩
  | indeterminate =>
    rw [hkind] at h
    exact h

theorem Recorded.step {e' : Execution} (h : Recorded e) (hstep : Step e e') : Recorded e' := by
  obtain ⟨hbegun, hkeys, hdistinct, honce, hanswered, hinvoked, hseparate, hordered, hyields⟩ := h
  cases hstep with
  | tick htime =>
    refine ⟨fun i hi => UInt64.le_trans (hbegun i hi) htime, hkeys, hdistinct, honce,
      fun c hc => ?_, fun f hf => ?_, hseparate, hordered, hyields⟩
    · obtain ⟨i, hi⟩ := hanswered c hc
      exact ⟨i, hi.invoked, hi.operationId, hi.later, hi.reported, hi.effective⟩
    · obtain ⟨hmem, hle, hnow⟩ := hinvoked f hf
      exact ⟨hmem, hle, UInt64.le_trans hnow htime⟩
  | @invoke invocation hnew hkey htime =>
    refine ⟨?_, ?_, ?_, honce, fun c hc => ?_, fun f hf => ?_, hseparate, hordered, hyields⟩
    · refine forall_mem_concat hbegun ?_
      rw [htime]
      exact UInt64.le_refl _
    · exact forall_mem_concat hkeys hkey
    · rw [map_append]
      refine nodup_concat hdistinct fun hmem => ?_
      obtain ⟨other, hother, hid⟩ := mem_map.mp hmem
      exact hnew other hother hid
    · obtain ⟨i, hi⟩ := hanswered c hc
      exact ⟨i, mem_append_left _ hi.invoked, hi.operationId, hi.later, hi.reported,
        hi.effective⟩
    · obtain ⟨hmem, hle, hnow⟩ := hinvoked f hf
      exact ⟨mem_append_left _ hmem, hle, hnow⟩
  | @takeEffect invocation result t hpending hnew heffect =>
    have hperform := heffect.perform
    refine ⟨hbegun, hkeys, hdistinct, honce, fun c hc => ?_, fun f hf => ?_, ?_, ?_, ?_⟩
    · obtain ⟨i, hi⟩ := hanswered c hc
      -- the operation that takes effect has no completion, so it is another one
      have hother : invocation ≠ i := by
        rintro rfl
        exact hpending.2 c hc hi.operationId.symm
      refine ⟨i, hi.invoked, hi.operationId, hi.later, hi.reported.concat hother,
        fun f hf hfi => ?_⟩
      rcases mem_append.mp hf with hf | hf
      · exact hi.effective f hf hfi
      · rw [mem_singleton.mp hf] at hfi
        exact absurd hfi hother
    · rcases mem_append.mp hf with hf | hf
      · exact hinvoked f hf
      · rw [mem_singleton.mp hf]
        exact ⟨hpending.1, hbegun _ hpending.1, UInt64.le_refl _⟩
    · rw [map_append]
      refine nodup_concat hseparate fun hmem => ?_
      obtain ⟨f, hf, hfi⟩ := mem_map.mp hmem
      exact hnew f hf hfi
    · refine pairwise_append.mpr ⟨hordered, pairwise_singleton _ _, fun f hf g hg => ?_⟩
      rw [mem_singleton.mp hg]
      exact (hinvoked f hf).2.2
    · have hyields' := hyields.concat ⟨invocation, result, e.now⟩ (by rw [hperform])
      rw [hperform] at hyields'
      exact hyields'
  | @complete invocation completion hpending hid htime hreported =>
    refine ⟨hbegun, hkeys, hdistinct, ?_, fun c hc => ?_, hinvoked, hseparate, hordered, hyields⟩
    · rw [map_append]
      refine nodup_concat honce fun hmem => ?_
      obtain ⟨c, hc, hcid⟩ := mem_map.mp hmem
      exact hpending.2 c hc (hcid.trans hid)
    · rcases mem_append.mp hc with hc | hc
      · obtain ⟨i, hi⟩ := hanswered c hc
        exact ⟨i, hi.invoked, hi.operationId, hi.later, hi.reported, hi.effective⟩
      · rw [mem_singleton.mp hc]
        refine ⟨invocation, hpending.1, hid.symm, ?_, hreported, fun f hf _ => ?_⟩
        · rw [htime]
          exact hbegun _ hpending.1
        · rw [htime]
          exact (hinvoked f hf).2.2

theorem sequentialOf_fresh {store : InMemoryMetadataStore}
    (h : ofRevision 0 limits = .ok store) : sequentialOf store = .empty := by
  simp only [ofRevision, Except.throw_eq_error, Except.ite_error_eq_ok, Except.pure_eq_ok] at h
  obtain ⟨-, rfl⟩ := h
  rw [sequentialOf, SequentialStore.empty]
  congr 1

theorem Reaches.recorded (h : Reaches limits e) : Recorded e := by
  induction h with
  | start hopen now =>
    exact ⟨forall_mem_nil _, forall_mem_nil _, .nil, .nil, forall_mem_nil _,
      forall_mem_nil _, .nil, .nil, (sequentialOf_fresh hopen).symm⟩
  | step before hstep ih => exact ih.step hstep

/-! ## The order of the effects -/

/-- The operations that took effect and may be in a linearization: not the reads that were never
answered. -/
def Execution.order (e : Execution) : List Invocation :=
  (e.effects.filter fun effect =>
    effect.invocation.operation.mutating
      || e.history.completions.any fun completion =>
        completion.operationId = effect.invocation.operationId ∧ completion.kind = .succeeded).map
    (·.invocation)

namespace Recorded

theorem succeeded_iff :
    (e.history.completions.any fun completion =>
        completion.operationId = invocation.operationId ∧ completion.kind = .succeeded) = true
      ↔ e.history.Succeeded invocation := by
  rw [any_eq_true]
  simp only [decide_eq_true_eq]
  rfl

theorem answered_of_id (h : Recorded e) (hmem : invocation ∈ e.history.invocations)
    (hcompletion : completion ∈ e.history.completions)
    (hid : completion.operationId = invocation.operationId) : Answered e completion invocation := by
  obtain ⟨other, hother⟩ := h.answered completion hcompletion
  obtain rfl := inj_on_of_nodup_map h.distinct hother.invoked hmem (hother.operationId.trans hid)
  exact hother

theorem mem_order :
    invocation ∈ e.order ↔ ∃ effect ∈ e.effects, effect.invocation = invocation
      ∧ (invocation.operation.mutating = true ∨ e.history.Succeeded invocation) := by
  rw [Execution.order, mem_map]
  simp only [mem_filter, Bool.or_eq_true, succeeded_iff]
  constructor
  · rintro ⟨effect, ⟨hmem, hkept⟩, rfl⟩
    exact ⟨effect, hmem, rfl, hkept⟩
  · rintro ⟨effect, hmem, rfl, hkept⟩
    exact ⟨effect, ⟨hmem, hkept⟩, rfl⟩

/-- An operation that took effect is not known to have failed. -/
theorem uncertain_of_effect (h : Recorded e) (heffect : effect ∈ e.effects)
    (hunanswered : ¬ e.history.Succeeded effect.invocation) :
    e.history.Uncertain effect.invocation := by
  intro completion hcompletion hid
  have hreported := (h.answered_of_id (h.invoked effect heffect).1 hcompletion hid).reported
  unfold Reported at hreported
  cases hkind : completion.kind with
  | succeeded => exact absurd ⟨completion, hcompletion, hid, hkind⟩ hunanswered
  | failed | timedOut =>
    rw [hkind] at hreported
    exact absurd rfl (hreported.2 effect heffect)
  | indeterminate => rfl

/-- What took effect later was not over when what took effect earlier was invoked. -/
theorem not_before (h : Recorded e) {first second : Effect} (hfirst : first ∈ e.effects)
    (hsecond : second ∈ e.effects) (hordered : first.time ≤ second.time) :
    ¬ e.history.Before second.invocation first.invocation := by
  rintro ⟨completion, hcompletion, hid, hlt⟩
  have hanswered := h.answered_of_id (h.invoked second hsecond).1 hcompletion hid
  have hle := UInt64.le_trans (UInt64.le_trans (h.invoked first hfirst).2.1 hordered)
    (hanswered.effective second hsecond rfl)
  exact UInt64.not_lt.mpr hle hlt

/-- A result that was recorded is the one the operation had. -/
theorem reports (h : Recorded e) (heffect : effect ∈ e.effects) :
    e.history.Reports effect.invocation effect.result := by
  intro completion hcompletion hid hkind
  have hreported := (h.answered_of_id (h.invoked effect heffect).1 hcompletion hid).reported
  unfold Reported at hreported
  rw [hkind] at hreported
  obtain ⟨other, hother, hsame, hresult⟩ := hreported
  obtain rfl := inj_on_of_nodup_map h.separate hother heffect hsame
  exact hresult

/-- Reads without an answer may be left out. -/
theorem reproduces {history : History} {kept : Effect → Bool}
    (hyields : Yields store effects store')
    (hreports : ∀ effect ∈ effects, history.Reports effect.invocation effect.result)
    (hkept : ∀ effect ∈ effects, effect.invocation.operation.mutating = true → kept effect = true) :
    history.Reproduces store ((effects.filter kept).map (·.invocation)) := by
  induction effects generalizing store with
  | nil => exact trivial
  | cons effect effects ih =>
    obtain ⟨hreport, hreports⟩ := forall_mem_cons.mp hreports
    obtain ⟨hmutating, hkept⟩ := forall_mem_cons.mp hkept
    obtain ⟨hresult, hyields⟩ := hyields
    have hlater := ih hyields hreports hkept
    by_cases hkeep : kept effect = true
    · rw [filter_cons_of_pos hkeep, map_cons]
      refine ⟨?_, hlater⟩
      rw [hresult]
      exact hreport
    · rw [filter_cons_of_neg hkeep]
      -- only a read is left out, and it leaves the store as it was
      cases hoperation : effect.invocation.operation with
      | get key =>
        rw [hoperation] at hlater
        exact hlater
      | put key value | erase key => exact absurd (hmutating (by rw [hoperation]; rfl)) hkeep
      | compareAndSwap key expected desired =>
        exact absurd (hmutating (by rw [hoperation]; rfl)) hkeep

theorem isLinearization (h : Recorded e) : e.history.IsLinearization e.order := by
  refine ⟨h.separate.sublist (filter_sublist.map _), fun invocation hmem => ?_,
    fun invocation hmem hsucceeded => ?_, ?_, ?_⟩
  · obtain ⟨effect, heffect, rfl, hkept⟩ := mem_order.mp hmem
    refine ⟨(h.invoked effect heffect).1, ?_⟩
    by_cases hsucceeded : e.history.Succeeded effect.invocation
    · exact .inl hsucceeded
    · exact .inr ⟨h.uncertain_of_effect heffect hsucceeded, hkept.resolve_right hsucceeded⟩
  · obtain ⟨completion, hcompletion, hid, hkind⟩ := hsucceeded
    have hreported := (h.answered_of_id hmem hcompletion hid).reported
    unfold Reported at hreported
    rw [hkind] at hreported
    obtain ⟨effect, heffect, hsame, -⟩ := hreported
    exact mem_order.mpr ⟨effect, heffect, hsame, .inr ⟨completion, hcompletion, hid, hkind⟩⟩
  · rw [Execution.order, pairwise_map]
    refine (h.ordered.sublist filter_sublist).imp_of_mem fun hfirst hsecond hordered => ?_
    exact h.not_before (mem_of_mem_filter hfirst) (mem_of_mem_filter hsecond) hordered
  · refine reproduces h.yields (fun effect => h.reports) fun effect _ hmutating => ?_
    rw [hmutating]
    rfl

end Recorded

/-! ## Records are valid -/

/-- The revisions of a sequential store that began empty. -/
structure SequentialStore.Dated (store : SequentialStore) : Prop where
  nonneg : 0 ≤ store.revision
  values : ∀ key value, store.value key = some value →
    0 < value.modificationRevision ∧ value.modificationRevision ≤ store.revision

/-- A result that `validate` accepts for an operation. -/
def Result.Fits (result : Result) (operation : Operation) : Prop :=
  operationMatchesResult operation result = true ∧ validateResult result = .ok ()

namespace SequentialStore

theorem Dated.write (h : store.Dated) (key : ByteSequence) (value : Option ByteSequence) :
    (store.write key value).Dated := by
  have hrevision := h.nonneg
  refine ⟨?_, fun other written hwritten => ?_⟩
  · show 0 ≤ store.revision + 1
    omega
  show _ ∧ written.modificationRevision ≤ store.revision + 1
  simp only [SequentialStore.write, Function.update_apply] at hwritten
  split at hwritten
  · obtain ⟨value, -, rfl⟩ := Option.map_eq_some_iff.mp hwritten
    dsimp only
    omega
  · have hdated := h.values other written hwritten
    omega

theorem validateResult_of_nonneg (hrevision : 0 ≤ result.revision)
    (hget : ∀ value revision, result = .get (some value) revision →
      0 < value.modificationRevision ∧ value.modificationRevision ≤ revision) :
    validateResult result = .ok () := by
  have hnonneg : ¬ result.revision < 0 := by omega
  cases result with
  | get value revision =>
    cases value with
    | none => exact if_neg hnonneg
    | some value =>
      have hdated := hget value revision rfl
      rw [validateResult, if_neg hnonneg, if_neg (by omega)]
      rfl
  | put revision | erase erased revision | compareAndSwap exchanged revision => exact if_neg hnonneg

/-- Performing an operation keeps the revisions, and has a result that fits it. -/
theorem Dated.perform (h : store.Dated) (operation : Operation) :
    (store.perform operation).2.Dated ∧ (store.perform operation).1.Fits operation := by
  have hrevision := h.nonneg
  cases operation with
  | get key =>
    refine ⟨h, rfl, validateResult_of_nonneg hrevision fun value revision hvalue => ?_⟩
    obtain ⟨hvalue', rfl⟩ := Result.get.inj hvalue
    exact h.values key value hvalue'
  | put key value =>
    refine ⟨h.write key _, rfl, validateResult_of_nonneg ?_ fun _ _ hvalue => by cases hvalue⟩
    show 0 ≤ store.revision + 1
    omega
  | erase key =>
    rw [SequentialStore.perform]
    split
    · refine ⟨h.write key _, rfl, validateResult_of_nonneg ?_ fun _ _ hvalue => by cases hvalue⟩
      show 0 ≤ store.revision + 1
      omega
    · exact ⟨h, rfl, validateResult_of_nonneg hrevision fun _ _ hvalue => by cases hvalue⟩
  | compareAndSwap key expected desired =>
    rw [SequentialStore.perform]
    split
    · split
      · refine ⟨h.write key _, rfl, validateResult_of_nonneg ?_ fun _ _ hvalue => by cases hvalue⟩
        show 0 ≤ store.revision + 1
        omega
      · exact ⟨h, rfl, validateResult_of_nonneg hrevision fun _ _ hvalue => by cases hvalue⟩
    · exact ⟨h, rfl, validateResult_of_nonneg hrevision fun _ _ hvalue => by cases hvalue⟩

end SequentialStore

theorem Yields.fits (h : Yields store effects store') (hdated : store.Dated) :
    ∀ effect ∈ effects, effect.result.Fits effect.invocation.operation := by
  induction effects generalizing store with
  | nil => exact forall_mem_nil _
  | cons effect effects ih =>
    obtain ⟨hresult, hyields⟩ := h
    obtain ⟨hdated', hfits⟩ := hdated.perform effect.invocation.operation
    rw [hresult] at hfits
    exact forall_mem_cons.mpr ⟨hfits, ih hyields hdated'⟩

/-- A record in which no ID is zero is a valid history. -/
theorem Recorded.wellFormed (h : Recorded e) (hnonzero : ∀ invocation ∈ e.history.invocations,
      invocation.operationId ≠ 0 ∧ invocation.clientId ≠ 0) : e.history.WellFormed := by
  have hfits := h.yields.fits ⟨le_rfl, fun _ _ hvalue => by cases hvalue⟩
  refine ⟨hnonzero, h.keys, h.distinct, fun completion hcompletion => ?_, h.once⟩
  obtain ⟨invocation, hanswered⟩ := h.answered completion hcompletion
  refine ⟨invocation, hanswered.invoked, hanswered.operationId, hanswered.later, ?_⟩
  have hreported := hanswered.reported
  unfold Reported at hreported
  rw [validateOutcome]
  cases hkind : completion.kind with
  | succeeded =>
    rw [hkind] at hreported
    obtain ⟨effect, heffect, rfl, hresult⟩ := hreported
    obtain ⟨hmatches, hvalid⟩ := hfits effect heffect
    simp only [if_true, hresult, hmatches, Bool.not_true, Bool.false_eq_true, if_false, hvalid]
  | failed | timedOut =>
    rw [hkind] at hreported
    rw [hreported.1]
    rfl
  | indeterminate =>
    rw [hkind] at hreported
    rw [hreported]
    rfl

/-- The model of the checker agrees with the store. Whatever clients do on a fresh store, `check`
never says that the history recorded is not linearizable, and it returns if no ID is zero. -/
theorem check_accepts_recording (h : Reaches limits e)
    (checkerLimits : CheckerLimits) :
    (∀ result, check e.history checkerLimits = .ok result → result.outcome ≠ .notLinearizable)
      ∧ ((∀ invocation ∈ e.history.invocations,
          invocation.operationId ≠ 0 ∧ invocation.clientId ≠ 0) →
        ∃ result, check e.history checkerLimits = .ok result) := by
  refine ⟨fun result hresult houtcome => ?_, fun hnonzero => ?_⟩
  · -- a history the checker returns for is valid
    have hchecked := hresult
    rw [check, checkInternal, bind_assoc, Except.bind_eq_ok] at hchecked
    obtain ⟨_, hvalid, -⟩ := hchecked
    obtain ⟨result', hresult', htells⟩ := check_tells (validate_eq_ok.mp hvalid) checkerLimits
    rw [hresult] at hresult'
    obtain rfl := Except.ok.inj hresult'
    exact htells.notLinearizable houtcome ⟨e.order, h.recorded.isLinearization⟩
  · obtain ⟨result, hresult, -⟩ := check_tells (h.recorded.wellFormed hnonzero) checkerLimits
    exact ⟨result, hresult⟩

/-- A read and a write that overlap, all at one time. -/
def earlyRead : Invocation := ⟨1, 1, 5, .get [1]⟩

def lateWrite : Invocation := ⟨2, 2, 5, .put [1] [7]⟩

/-- The read was invoked first and completed first, and returns what the write has written. -/
def overlapping : History where
  invocations := [earlyRead, lateWrite]
  completions := [⟨1, 5, .succeeded, some (.get (some ⟨[7], 1⟩) 1)⟩,
    ⟨2, 5, .succeeded, some (.put 1)⟩]

/-- The write took effect before the read. -/
def overlappingEffects : List Effect :=
  [⟨lateWrite, .put 1, 5⟩, ⟨earlyRead, .get (some ⟨[7], 1⟩) 1, 5⟩]

theorem check_accepts_recording_overlapping :
    ∃ e, Reaches {} e ∧ e.history = overlapping
      ∧ ∃ result, check e.history {} = .ok result ∧ result.outcome ≠ .notLinearizable := by
  obtain ⟨store, hopen⟩ : ∃ store, ofRevision 0 {} = .ok store := ⟨_, rfl⟩
  obtain ⟨written, t, hput⟩ : ∃ written t, put [1] [7] store = .ok written t := by
    cases hopen
    exact ⟨_, _, rfl⟩
  obtain ⟨read, u, hget⟩ : ∃ read u, get [1] t = .ok read u := ⟨_, _, rfl⟩
  -- the results the store returns
  have hwrite := TakesEffect.put hput
  have hread := TakesEffect.get hget
  obtain ⟨hwritten, hstore⟩ := Prod.mk.inj hwrite.perform
  have hreads := hread.perform
  rw [← hstore, sequentialOf_fresh hopen] at hreads
  rw [sequentialOf_fresh hopen] at hwritten
  rw [← hwritten] at hwrite
  rw [← (Prod.mk.inj hreads).1] at hread
  have hnew : ∀ other ∈ [earlyRead], other.operationId ≠ lateWrite.operationId := by decide
  have hfirst : Reaches {} ⟨store, 5, ⟨[earlyRead], []⟩, []⟩ :=
    (Reaches.start hopen 5).step (.invoke (List.forall_mem_nil _) (List.cons_ne_nil _ _) rfl)
  have hinvoked : Reaches {} ⟨store, 5, ⟨[earlyRead, lateWrite], []⟩, []⟩ :=
    hfirst.step (.invoke hnew (List.cons_ne_nil _ _) rfl)
  have hearly : earlyRead ∈ [earlyRead, lateWrite] := by decide
  have hlate : lateWrite ∈ [earlyRead, lateWrite] := by decide
  have hwrites : Reaches {} ⟨t, 5, ⟨[earlyRead, lateWrite], []⟩, [⟨lateWrite, .put 1, 5⟩]⟩ :=
    hinvoked.step (.takeEffect ⟨hlate, List.forall_mem_nil _⟩ (List.forall_mem_nil _) hwrite)
  have hother : ∀ effect ∈ [Effect.mk lateWrite (.put 1) 5], effect.invocation ≠ earlyRead := by
    intro effect heffect
    rw [List.mem_singleton.mp heffect]
    decide
  have heffective : Reaches {} ⟨u, 5, ⟨[earlyRead, lateWrite], []⟩, overlappingEffects⟩ :=
    hwrites.step (.takeEffect ⟨hearly, List.forall_mem_nil _⟩ hother hread)
  have hreported : Reported overlappingEffects earlyRead
      ⟨1, 5, .succeeded, some (.get (some ⟨[7], 1⟩) 1)⟩ := ⟨_, List.mem_of_getLast? rfl, rfl, rfl⟩
  have hanswered : Reaches {} ⟨u, 5, ⟨[earlyRead, lateWrite],
      [⟨1, 5, .succeeded, some (.get (some ⟨[7], 1⟩) 1)⟩]⟩, overlappingEffects⟩ :=
    heffective.step (.complete ⟨hearly, List.forall_mem_nil _⟩ rfl rfl hreported)
  have hpending : (History.mk [earlyRead, lateWrite]
      [⟨1, 5, .succeeded, some (.get (some ⟨[7], 1⟩) 1)⟩]).Pending lateWrite := by
    refine ⟨hlate, fun completion hcompletion => ?_⟩
    rw [List.mem_singleton.mp hcompletion]
    decide
  have hreaches : Reaches {} ⟨u, 5, overlapping, overlappingEffects⟩ :=
    hanswered.step (.complete hpending rfl rfl ⟨_, List.mem_cons_self, rfl, rfl⟩)
  have hnonzero : ∀ invocation ∈ overlapping.invocations,
      invocation.operationId ≠ 0 ∧ invocation.clientId ≠ 0 := by decide
  obtain ⟨hnever, hreturns⟩ := check_accepts_recording hreaches {}
  obtain ⟨result, hresult⟩ := hreturns hnonzero
  exact ⟨_, hreaches, rfl, result, hresult, hnever result hresult⟩

end KuraMetadata.Linearizability
