import KuraMetadata.Store.Operations
import KuraMetadata.Library.OrderedMap

/-! # What the operations do

For each operation, the state and the batch of a call that returns. Every mutation ends in
`published`: new values and leases, and the watch publication of one batch. -/

namespace KuraMetadata.InMemoryMetadataStore

open EStateM

variable {s s' : InMemoryMetadataStore} {key value : ByteSequence} {α : Type}
variable {leases leases' : LeaseMap} {result : DeleteResult × Option EventBatch}

/-- The store after a mutation has swapped in its working copies and committed its
publication. -/
def published (s : InMemoryMetadataStore) (values : ValueMap) (leases : LeaseMap)
    (batch : EventBatch) : InMemoryMetadataStore :=
  { s with
    values
    leases
    revision := batch.revision
    history := (s.stageWatchPublication batch).history
    watchers := (s.stageWatchPublication batch).watchers
    compactRevision := (s.stageWatchPublication batch).compactRevision }

theorem commitWatchPublication_bind_apply (publication : StagedWatchPublication)
    (f : Unit → StoreM α) (s : InMemoryMetadataStore) :
    (commitWatchPublication publication >>= f) s
      = f () { s with
          history := publication.history
          watchers := publication.watchers
          compactRevision := publication.compactRevision } := rfl

theorem commitStaged_none_bind_apply (f : Unit → StoreM α)
    (s : InMemoryMetadataStore) : (commitStaged none >>= f) s = f () s := rfl

theorem commitStaged_some_bind_apply (publication : StagedWatchPublication)
    (f : Unit → StoreM α) (s : InMemoryMetadataStore) :
    (commitStaged (some publication) >>= f) s
      = f () { s with
          history := publication.history
          watchers := publication.watchers
          compactRevision := publication.compactRevision } := rfl

theorem nextRevision_eq_ok {revision : Int} :
    s.nextRevision = .ok revision ↔ s.revision ≠ i64Max ∧ s.revision + 1 = revision := by
  simp only [nextRevision, Except.throw_eq_error, Except.ite_error_eq_ok, Except.pure_eq_ok, ne_eq]

theorem validateTick_eq_ok {tick : Nat} {u : Unit} :
    s.validateTick tick = .ok u ↔ s.logicalTick ≤ tick := by
  simp only [validateTick, Except.throw_eq_error, Except.ite_error_eq_ok, Except.pure_eq_ok,
    Nat.not_lt, and_true]

theorem validateKey_eq_ok {u : Unit} : validateKey key = .ok u ↔ key ≠ [] := by
  simp only [validateKey, Except.throw_eq_error, Except.ite_error_eq_ok, Except.pure_eq_ok,
    List.isEmpty_iff, ne_eq, and_true]

/-! ## Attachments -/

theorem detachKey_eq_ok {value : KeyValue} (h : detachKey leases value = .ok leases') :
    value.leaseId = 0 ∧ leases' = leases
      ∨ value.leaseId ≠ 0 ∧ ∃ lease, leases[value.leaseId]? = some lease
          ∧ value.key ∈ lease.attachedKeys
          ∧ leases' = leases.insert value.leaseId
              { lease with attachedKeys := lease.attachedKeys.erase value.key } := by
  unfold detachKey at h
  split at h
  · rename_i h0
    exact .inl ⟨h0, (Except.pure_eq_ok.mp h).symm⟩
  · rename_i h0
    refine .inr ⟨h0, ?_⟩
    split at h
    · cases h
    · rename_i lease hlease
      split at h
      · rename_i hkey
        exact ⟨lease, hlease, hkey, (Except.pure_eq_ok.mp h).symm⟩
      · cases h

theorem attachKey_eq_ok {id : Int} (h : attachKey leases id key = .ok leases') :
    ∃ lease, leases[id]? = some lease
      ∧ leases'
        = leases.insert id { lease with attachedKeys := lease.attachedKeys.insert key } := by
  unfold attachKey at h
  split at h
  · cases h
  · rename_i lease hlease
    split at h
    · cases h
    · exact ⟨lease, hlease, (Except.pure_eq_ok.mp h).symm⟩

/-! ## Point operations -/

/-- The value a put binds to its key. -/
def rebind (previous : Option KeyValue) (key value : ByteSequence) (revision leaseId : Int) :
    KeyValue :=
  { key, value
    version := (previous.map (·.version + 1)).getD 1
    createRevision := (previous.map (·.createRevision)).getD revision
    modRevision := revision
    leaseId }

/-- The leases without the attachment of the value that is about to be replaced. -/
def detachPrevious (leases : LeaseMap) (previous : Option KeyValue) :
    Except StoreException LeaseMap :=
  previous.elim (pure leases) (detachKey leases)

/-- The event of a put. -/
def putEvent (values : ValueMap) (key value : ByteSequence) (revision leaseId : Int) :
    WatchEvent :=
  { revision, mutation := .put (rebind values[key]? key value revision leaseId) values[key]? }

theorem putLocked_eq_ok {result : PutResult × Option EventBatch}
    (h : putLocked key value s = .ok result s') :
    ∃ leases, s.revision ≠ i64Max ∧ detachPrevious s.leases s.values[key]? = .ok leases
      ∧ result.2 = some ⟨s.revision + 1, [putEvent s.values key value (s.revision + 1) 0]⟩
      ∧ s' = s.published
          (s.values.insert key (rebind s.values[key]? key value (s.revision + 1) 0)) leases
          ⟨s.revision + 1, [putEvent s.values key value (s.revision + 1) 0]⟩ := by
  simp only [putLocked, get_bind_apply, ofExcept_bind_eq_ok, EStateM.ite_apply, throw_bind_apply,
    EStateM.ite_error_eq_ok, modify_bind_apply, commitWatchPublication_bind_apply, pure_apply,
    Result.ok.injEq, nextRevision_eq_ok] at h
  obtain ⟨_, ⟨hrevision, rfl⟩, -, leases, hleases, rfl, rfl⟩ := h
  exact ⟨leases, hrevision, hleases, rfl, rfl⟩

theorem putLocked_revision {result : PutResult × Option EventBatch}
    (h : putLocked key value s = .ok result s') : result.1.revision = s'.revision := by
  simp only [putLocked, get_bind_apply, ofExcept_bind_eq_ok, EStateM.ite_apply, throw_bind_apply,
    EStateM.ite_error_eq_ok, modify_bind_apply, commitWatchPublication_bind_apply, pure_apply,
    Result.ok.injEq] at h
  obtain ⟨_, -, -, _, -, rfl, rfl⟩ := h
  rfl

theorem erase_eq_ok (h : erase key s = .ok result s') :
    s.values[key]? = none ∧ result.2 = none ∧ s' = s
      ∨ ∃ previous leases, s.values[key]? = some previous ∧ s.revision ≠ i64Max
          ∧ detachKey s.leases previous = .ok leases
          ∧ result.2 = some ⟨s.revision + 1, [⟨s.revision + 1, .erase previous⟩]⟩
          ∧ s' = s.published (s.values.erase key) leases
              ⟨s.revision + 1, [⟨s.revision + 1, .erase previous⟩]⟩ := by
  simp only [erase, ofExcept_bind_eq_ok, get_bind_apply] at h
  obtain ⟨_, -, h⟩ := h
  cases hprevious : s.values[key]? with
  | none =>
    simp only [hprevious, pure_apply, Result.ok.injEq] at h
    obtain ⟨rfl, rfl⟩ := h
    exact .inl ⟨rfl, rfl, rfl⟩
  | some previous =>
    simp only [hprevious, ofExcept_bind_eq_ok, modify_bind_apply,
      commitWatchPublication_bind_apply, pure_apply, Result.ok.injEq, nextRevision_eq_ok] at h
    obtain ⟨_, ⟨hrevision, rfl⟩, leases, hleases, rfl, rfl⟩ := h
    exact .inr ⟨previous, leases, rfl, hrevision, hleases, rfl, rfl⟩

theorem erase_result (h : erase key s = .ok result s') :
    result.1.revision = s'.revision ∧ result.1.deleted = s.values[key]?.isSome := by
  simp only [erase, ofExcept_bind_eq_ok, get_bind_apply] at h
  obtain ⟨_, -, h⟩ := h
  cases hprevious : s.values[key]? with
  | none =>
    simp only [hprevious, pure_apply, Result.ok.injEq] at h
    obtain ⟨rfl, rfl⟩ := h
    exact ⟨rfl, rfl⟩
  | some previous =>
    simp only [hprevious, ofExcept_bind_eq_ok, modify_bind_apply,
      commitWatchPublication_bind_apply, pure_apply, Result.ok.injEq] at h
    obtain ⟨_, -, _, -, rfl, rfl⟩ := h
    exact ⟨rfl, rfl⟩

/-! ## Edits

What puts and erases do to the working copies, one event each. -/

/-- The working copies after a sequence of puts and erases, each key put at most once. -/
inductive Edits (revision : Int) (values : ValueMap) (leases : LeaseMap) :
    List WatchEvent → ValueMap → LeaseMap → Prop
  | nil : Edits revision values leases [] values leases
  | put {events : List WatchEvent} {values' : ValueMap} {leases' detached attached : LeaseMap}
      {key value : ByteSequence} {leaseId : Int}
      (edits : Edits revision values leases events values' leases')
      (nonempty : key ≠ []) (lease : 0 ≤ leaseId)
      (fresh : ∀ event ∈ events, ∀ current previous,
        event.mutation = .put current previous → current.key ≠ key)
      (detach : detachPrevious leases' values'[key]? = .ok detached)
      (attach : (if leaseId = 0 then pure detached else attachKey detached leaseId key)
        = .ok attached) :
      Edits revision values leases (events ++ [putEvent values' key value revision leaseId])
        (values'.insert key (rebind values'[key]? key value revision leaseId)) attached
  | erase {events : List WatchEvent} {values' : ValueMap} {leases' detached : LeaseMap}
      {key : ByteSequence} {erased : KeyValue}
      (edits : Edits revision values leases events values' leases')
      (bound : values'[key]? = some erased) (detach : detachKey leases' erased = .ok detached) :
      Edits revision values leases (events ++ [⟨revision, .erase erased⟩]) (values'.erase key)
        detached

end KuraMetadata.InMemoryMetadataStore
