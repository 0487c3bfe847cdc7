import KuraMetadata.Store.Types

/-! # The in-memory metadata store

`InMemoryMetadataStore`: every public operation, with its mutex held throughout. An operation
is a program over the store's state that can throw; a throw keeps the state the statements
before it have left, so that what a failing operation has changed is a question about the
program and not part of its type. The private copies an operation prepares before it swaps
them in are ordinary values here. -/

namespace KuraMetadata

open MonadExcept (ofExcept)

/-- The store's operations. -/
abbrev StoreM := EStateM StoreException InMemoryMetadataStore

/-! ## Checks -/

def validateKey (key : ByteSequence) : Except StoreException Unit :=
  if key.isEmpty then throw (.invalidArgument "key must not be empty") else pure ()

def validateRange (range : KeyRange) : Except StoreException Unit := do
  if range.start.isEmpty || range.stop.isEmpty then
    throw (.invalidArgument "range bounds must not be empty")
  if (compare range.start range.stop).isGE then
    throw (.invalidArgument "range start must be less than range end")

def maximumLeaseId : Int := i64Max - 1

def comparisonMatches {α : Type} [DecidableEq α] [Ord α] (actual expected : α) :
    CompareResult → Bool
  | .equal => actual = expected
  | .notEqual => actual ≠ expected
  | .greater => (compare actual expected).isGT
  | .less => (compare actual expected).isLT

/-- The entries from `lower_bound(range.start)` up to the first key not below `range.end`. -/
def ValueMap.entriesIn (values : ValueMap) (range : KeyRange) : List (ByteSequence × KeyValue) :=
  (values.toList.dropWhile fun entry => (compare entry.1 range.start).isLT).takeWhile
    fun entry => (compare entry.1 range.stop).isLT

/-- The value whose key decides which watchers see an event. -/
def MutationEvent.subject : MutationEvent → KeyValue
  | .put current _ => current
  | .erase previous => previous

namespace InMemoryMetadataStore

/-- `next_revision_locked`. -/
def nextRevision (s : InMemoryMetadataStore) : Except StoreException Int :=
  if s.revision = i64Max then throw (.overflowError "store revision exhausted")
  else pure (s.revision + 1)

/-- `validate_tick_locked`. -/
def validateTick (s : InMemoryMetadataStore) (tick : Nat) : Except StoreException Unit :=
  if tick < s.logicalTick then
    throw (.invalidArgument "lease tick must not move backwards")
  else pure ()

/-! ## Opening a store -/

/-- The constructor from a revision. -/
def ofRevision (initialRevision : Int) (limits : StoreLimits) :
    Except StoreException InMemoryMetadataStore :=
  if initialRevision < 0 then
    throw (.invalidArgument "initial revision must not be negative")
  else pure { limits, revision := initialRevision, compactRevision := initialRevision }

/-- One pass of the loop of the constructor from initial values. -/
def insertInitial (s : InMemoryMetadataStore) (value : KeyValue) :
    Except StoreException InMemoryMetadataStore := do
  validateKey value.key
  if value.version ≤ 0 ∨ value.createRevision ≤ 0 ∨ value.modRevision < value.createRevision
      ∨ s.revision < value.modRevision ∨ value.leaseId ≠ 0 then
    throw (.invalidArgument "invalid initial key metadata")
  if value.key ∈ s.values then
    throw (.invalidArgument "duplicate initial key")
  return { s with values := s.values.insert value.key value }

/-- The constructor from initial values. -/
def ofValues (initialValues : List KeyValue) (initialRevision : Int) (limits : StoreLimits) :
    Except StoreException InMemoryMetadataStore := do
  let s ← ofRevision initialRevision limits
  initialValues.foldlM insertInitial s

/-- `lease_record_locked`. -/
def leaseRecord (id : Int) (lease : StoredLease) : LeaseRecord :=
  { id, fencingToken := lease.fencingToken, grantedTtl := lease.grantedTtl,
    expiryTick := lease.expiryTick, attachedKeys := lease.attachedKeys.toList }

def snapshot (s : InMemoryMetadataStore) : InMemoryStoreSnapshot :=
  { values := s.values.toList.map Prod.snd
    leases := s.leases.toList.map fun (id, lease) => leaseRecord id lease
    revision := s.revision
    logicalTick := s.logicalTick
    nextLeaseId := s.nextLeaseId
    nextFencingToken := s.nextFencingToken }

/-- The loop that rebuilds a lease's attached keys. -/
def restoreAttachment (stored : StoredLease) (key : ByteSequence) :
    Except StoreException StoredLease := do
  validateKey key
  if key ∈ stored.attachedKeys then
    throw (.invalidArgument "duplicate snapshot lease attachment")
  return { stored with attachedKeys := stored.attachedKeys.insert key }

/-- One pass of the loop over the leases of a snapshot. -/
def restoreLease (s : InMemoryMetadataStore) (lease : LeaseRecord) :
    Except StoreException InMemoryMetadataStore := do
  if lease.id ≤ 0 ∨ maximumLeaseId < lease.id ∨ lease.fencingToken = 0 ∨ lease.grantedTtl = 0 then
    throw (.invalidArgument "invalid snapshot lease")
  let stored ← lease.attachedKeys.foldlM restoreAttachment
    { fencingToken := lease.fencingToken, grantedTtl := lease.grantedTtl,
      expiryTick := lease.expiryTick }
  if lease.id ∈ s.leases then
    throw (.invalidArgument "duplicate snapshot lease")
  return { s with leases := s.leases.insert lease.id stored }

/-- The check that a leased value of a snapshot is attached to its lease. -/
def checkRestoredAttachment (s : InMemoryMetadataStore) (value : KeyValue) :
    Except StoreException Unit :=
  match s.leases[value.leaseId]? with
  | none => throw (.invalidArgument "snapshot key attachment is inconsistent")
  | some lease =>
    if value.key ∈ lease.attachedKeys then pure ()
    else throw (.invalidArgument "snapshot key attachment is inconsistent")

/-- One pass of the loop over the values of a snapshot. -/
def restoreValue (s : InMemoryMetadataStore) (value : KeyValue) :
    Except StoreException InMemoryMetadataStore := do
  validateKey value.key
  if value.version ≤ 0 ∨ value.createRevision ≤ 0 ∨ value.modRevision < value.createRevision
      ∨ s.revision < value.modRevision ∨ value.leaseId < 0 then
    throw (.invalidArgument "invalid snapshot key metadata")
  if value.key ∈ s.values then
    throw (.invalidArgument "duplicate snapshot key")
  (if value.leaseId = 0 then pure () else s.checkRestoredAttachment value)
  return { s with values := s.values.insert value.key value }

/-- One pass of the last loop, over the restored leases. -/
def checkRestoredLease (s : InMemoryMetadataStore) (entry : Int × StoredLease) :
    Except StoreException Unit := do
  if s.nextLeaseId ≤ entry.1 ∨ s.nextFencingToken ≤ entry.2.fencingToken then
    throw (.invalidArgument "snapshot allocation counters are not ahead of leases")
  entry.2.attachedKeys.toList.forM fun key =>
    if (s.values[key]?.map (·.leaseId)) ≠ some entry.1 then
      throw (.invalidArgument "snapshot lease attachment is inconsistent")
    else pure ()

/-- The constructor from a snapshot. -/
def ofSnapshot (snapshot : InMemoryStoreSnapshot) (limits : StoreLimits) :
    Except StoreException InMemoryMetadataStore := do
  if snapshot.revision < 0 ∨ snapshot.nextLeaseId ≤ 0 ∨ snapshot.nextFencingToken = 0 then
    throw (.invalidArgument "invalid snapshot counters")
  if limits.maxActiveLeases < snapshot.leases.length then
    throw (.storeError .quotaExceeded "lease snapshot exceeds active lease limit" 0)
  let empty : InMemoryMetadataStore :=
    { limits, revision := snapshot.revision, compactRevision := snapshot.revision,
      logicalTick := snapshot.logicalTick, nextLeaseId := snapshot.nextLeaseId,
      nextFencingToken := snapshot.nextFencingToken }
  let leased ← snapshot.leases.foldlM restoreLease empty
  let s ← snapshot.values.foldlM restoreValue leased
  s.leases.toList.forM s.checkRestoredLease
  return s

/-! ## Watch publication -/

def watchMatches (request : WatchRequest) (event : WatchEvent) : Bool :=
  let excluded := match request.filter, event.mutation with
    | .excludePut, .put _ _ => true
    | .excludeErase, .erase _ => true
    | _, _ => false
  let key := event.mutation.subject.key
  !excluded && if request.range.stop.isEmpty then key = request.range.start
    else request.range.containsKey key

/-- The response a watcher that has run out of room ends with. -/
def overflowed (id : Int) (revision : Int) : WatchResponse :=
  { header := { revision }, id, status := .quotaExceeded, cancelled := true }

/-- Delivery of one batch to one watcher, the body of the loop of
`stage_watch_publication_locked`. -/
def deliver (limits : StoreLimits) (batch : EventBatch) (id : Int) (state : WatchState) :
    WatchState :=
  if state.terminal.isSome then state
  else
    let matching := batch.events.filter (watchMatches state.request)
    if matching.isEmpty && !state.request.progressNotifications then state
    else if limits.maxWatchPendingResponses ≤ state.pending.length then
      { state with pending := [], terminal := some (overflowed id batch.revision) }
    else
      { state with
        pending := state.pending
          ++ [{ header := { revision := batch.revision }, id, events := matching }] }

/-- The loop that drops the oldest batches until the history fits. -/
def trimHistory (limit : Nat) (compactRevision : Int) : List EventBatch → Int × List EventBatch
  | [] => (compactRevision, [])
  | batch :: history =>
    if limit < (batch :: history).length then trimHistory limit batch.revision history
    else (compactRevision, batch :: history)

structure StagedWatchPublication where
  history : List EventBatch
  watchers : WatchMap
  compactRevision : Int

/-- `stage_watch_publication_locked`. -/
def stageWatchPublication (s : InMemoryMetadataStore) (batch : EventBatch) :
    StagedWatchPublication :=
  let trimmed := trimHistory s.limits.maxWatchHistoryRevisions s.compactRevision
    (s.history ++ [batch])
  { history := trimmed.2
    watchers := s.watchers.map (deliver s.limits batch)
    compactRevision := trimmed.1 }

/-- `commit_watch_publication_locked`. -/
def commitWatchPublication (publication : StagedWatchPublication) : StoreM Unit := do
  modify fun s => { s with history := publication.history }
  modify fun s => { s with watchers := publication.watchers }
  modify fun s => { s with compactRevision := publication.compactRevision }

/-- The commit of a publication that was staged only if there is something to publish. -/
def commitStaged : Option StagedWatchPublication → StoreM Unit
  | none => pure ()
  | some publication => commitWatchPublication publication

/-! ## Attachments -/

def detachKey (leases : LeaseMap) (value : KeyValue) : Except StoreException LeaseMap :=
  if value.leaseId = 0 then pure leases
  else
    match leases[value.leaseId]? with
    | none => throw (.logicError "lease attachment index is inconsistent")
    | some lease =>
      if value.key ∈ lease.attachedKeys then
        pure (leases.insert value.leaseId
          { lease with attachedKeys := lease.attachedKeys.erase value.key })
      else throw (.logicError "lease attachment index is inconsistent")

def attachKey (leases : LeaseMap) (id : Int) (key : ByteSequence) :
    Except StoreException LeaseMap :=
  match leases[id]? with
  | none => throw (.logicError "verified lease is missing")
  | some lease =>
    if key ∈ lease.attachedKeys then throw (.logicError "key is already attached to lease")
    else pure (leases.insert id { lease with attachedKeys := lease.attachedKeys.insert key })

/-! ## Point operations

Beside its result a mutation returns the batch it has published, which the source does not:
the history keeps only the newest batches. -/

def get (key : ByteSequence) : StoreM StoreRead := do
  ofExcept (validateKey key)
  let s ← MonadState.get
  return { value := s.values[key]?, revision := s.revision }

def range (start stop : ByteSequence) : StoreM RangeRead := do
  ofExcept (validateKey start)
  ofExcept (validateKey stop)
  if (compare start stop).isGE then
    throw (.invalidArgument "range start must be less than range end")
  let s ← MonadState.get
  return { values := (s.values.entriesIn ⟨start, stop⟩).map Prod.snd, revision := s.revision }

def putLocked (key value : ByteSequence) : StoreM (PutResult × Option EventBatch) := do
  let s ← MonadState.get
  let previous := s.values[key]?
  let mutationRevision ← ofExcept s.nextRevision
  if previous.map (·.version) = some i64Max then
    throw (.overflowError "key version exhausted")
  let current : KeyValue :=
    { key, value
      version := (previous.map (·.version + 1)).getD 1
      createRevision := (previous.map (·.createRevision)).getD mutationRevision
      modRevision := mutationRevision
      leaseId := 0 }
  let workingValues := s.values.insert key current
  let workingLeases ← ofExcept (previous.elim (pure s.leases) (detachKey s.leases))
  let batch : EventBatch :=
    { revision := mutationRevision,
      events := [{ revision := mutationRevision, mutation := .put current previous }] }
  let publication := s.stageWatchPublication batch
  modify fun s => { s with values := workingValues }
  modify fun s => { s with leases := workingLeases }
  modify fun s => { s with revision := mutationRevision }
  commitWatchPublication publication
  return ({ current, previous, revision := mutationRevision }, some batch)

def put (key value : ByteSequence) : StoreM (PutResult × Option EventBatch) := do
  ofExcept (validateKey key)
  putLocked key value

def erase (key : ByteSequence) : StoreM (DeleteResult × Option EventBatch) := do
  ofExcept (validateKey key)
  let s ← MonadState.get
  match s.values[key]? with
  | none => return ({ deleted := false, previous := none, revision := s.revision }, none)
  | some previous =>
    let mutationRevision ← ofExcept s.nextRevision
    let workingLeases ← ofExcept (detachKey s.leases previous)
    let workingValues := s.values.erase key
    let batch : EventBatch :=
      { revision := mutationRevision,
        events := [{ revision := mutationRevision, mutation := .erase previous }] }
    let publication := s.stageWatchPublication batch
    modify fun s => { s with values := workingValues }
    modify fun s => { s with leases := workingLeases }
    modify fun s => { s with revision := mutationRevision }
    commitWatchPublication publication
    return ({ deleted := true, previous := some previous, revision := mutationRevision },
      some batch)

def compareAndSet (key : ByteSequence) (expectedModRevision : Int) (newValue : ByteSequence) :
    StoreM (CompareAndSetResult × Option EventBatch) := do
  ofExcept (validateKey key)
  if expectedModRevision < 0 then
    throw (.invalidArgument "expected modification revision must not be negative")
  let s ← MonadState.get
  if (s.values[key]?.map (·.modRevision)).getD 0 = expectedModRevision then
    let (result, batch) ← putLocked key newValue
    return ({ succeeded := true, current := some result.current, revision := result.revision },
      batch)
  else
    return ({ succeeded := false, current := s.values[key]?, revision := s.revision }, none)

/-! ## Transactions -/

/-- The field a numeric comparison reads; an absent key reads as zero. -/
def numericField (value : KeyValue) : CompareTarget → Int
  | .version => value.version
  | .createRevision => value.createRevision
  | .modRevision => value.modRevision
  | .leaseId => value.leaseId
  | .value => 0

/-- One pass of the loop over the comparisons. -/
def evaluateComparison (values : ValueMap) (comparison : Compare) :
    Except StoreException Bool := do
  validateKey comparison.key
  let value := values[comparison.key]?
  if comparison.target = .value then
    match comparison.expected with
    | .int64 _ => throw (.invalidArgument "value comparison requires a byte sequence")
    | .bytes expected =>
      return comparisonMatches ((value.map (·.value)).getD []) expected comparison.result
  else
    match comparison.expected with
    | .bytes _ => throw (.invalidArgument "numeric comparison requires an int64 value")
    | .int64 expected =>
      return comparisonMatches ((value.map (numericField · comparison.target)).getD 0) expected
        comparison.result

/-- The comparison with a lease generation at the request's tick. -/
def ownershipMatches (leases : LeaseMap) (tick : Nat) (ownership : LeaseOwnership) : Bool :=
  match leases[ownership.id]? with
  | none => false
  | some lease => tick < lease.expiryTick && lease.fencingToken = ownership.fencingToken

/-- The loop over the comparisons, which all run, and whether all of them hold. -/
def evaluateComparisons (values : ValueMap) (comparisons : List Compare) :
    Except StoreException Bool :=
  comparisons.foldlM (fun succeeded comparison =>
    return succeeded && (← evaluateComparison values comparison)) true

/-- The loop over the lease ownerships: those that hold. -/
def verifyOwnership (leases : LeaseMap) (tick : Nat) (ownerships : List LeaseOwnership) :
    Except StoreException (List LeaseOwnership) :=
  ownerships.foldlM (fun verified ownership =>
    if ownership.id ≤ 0 ∨ ownership.fencingToken = 0 then
      throw (.invalidArgument "invalid lease ownership comparison")
    else if ownershipMatches leases tick ownership then return verified ++ [ownership]
    else return verified) []

/-- What the validation pass over a branch has gathered. -/
structure BranchFootprint where
  putKeys : List ByteSequence := []
  deleteRanges : List KeyRange := []
  hasEffectiveMutation : Bool := false
  deriving DecidableEq, Repr

/-- One pass of the loop that validates a branch. -/
def validateOperation (values : ValueMap) (verified : List LeaseOwnership)
    (footprint : BranchFootprint) : RequestOperation → Except StoreException BranchFootprint
  | .range request => do
    validateRange request.range
    if request.revision ≠ 0 then
      throw (.invalidArgument "historical range reads are not implemented")
    return footprint
  | .put request => do
    validateKey request.key
    if request.leaseId < 0 then
      throw (.invalidArgument "lease ID must not be negative")
    if request.leaseId ≠ 0 ∧ ∀ ownership ∈ verified, ownership.id ≠ request.leaseId then
      throw (.invalidArgument "leased put requires verified ownership")
    if request.key ∈ footprint.putKeys then
      throw (.invalidArgument "transaction writes one key more than once")
    if ∃ range ∈ footprint.deleteRanges, range.containsKey request.key then
      throw (.invalidArgument "transaction put overlaps a delete")
    if values[request.key]?.map (·.version) = some i64Max then
      throw (.overflowError "key version exhausted")
    return { footprint with
      putKeys := footprint.putKeys ++ [request.key]
      hasEffectiveMutation := true }
  | .delete request => do
    validateRange request.range
    if ∃ range ∈ footprint.deleteRanges, range.overlap request.range then
      throw (.invalidArgument "transaction delete ranges overlap")
    if ∃ key ∈ footprint.putKeys, request.range.containsKey key then
      throw (.invalidArgument "transaction delete overlaps a put")
    return { footprint with
      deleteRanges := footprint.deleteRanges ++ [request.range]
      hasEffectiveMutation := footprint.hasEffectiveMutation
        || !(values.entriesIn request.range).isEmpty }

/-- The private copies a branch is executed on, with the responses and events so far. -/
structure Working where
  values : ValueMap
  leases : LeaseMap
  responses : List TransactionOperationResult := []
  events : List WatchEvent := []

/-- The loop that erases the entries of a range. -/
def eraseEntries (revision : Int) (working : Working) :
    List (ByteSequence × KeyValue) → Except StoreException Working
  | [] => pure working
  | (key, erased) :: entries => do
    let leases ← detachKey working.leases erased
    eraseEntries revision
      { working with
        values := working.values.erase key
        leases
        events := working.events ++ [{ revision, mutation := .erase erased }] }
      entries

/-- One pass of the loop that executes a branch. -/
def executeOperation (revision : Int) (working : Working) :
    RequestOperation → Except StoreException Working
  | .range request =>
    let entries := (working.values.entriesIn request.range).map Prod.snd
    let values := if request.limit = 0 then entries else entries.take request.limit
    pure { working with responses := working.responses ++ [.range { values, revision }] }
  | .put request => do
    let previous := working.values[request.key]?
    let detached ← previous.elim (pure working.leases) (detachKey working.leases)
    let current : KeyValue :=
      { key := request.key
        value := request.value
        version := (previous.map (·.version + 1)).getD 1
        createRevision := (previous.map (·.createRevision)).getD revision
        modRevision := revision
        leaseId := request.leaseId }
    let leases ← (if request.leaseId = 0 then pure detached
      else attachKey detached request.leaseId request.key)
    return { values := working.values.insert request.key current
             leases
             responses := working.responses ++ [.put
              { current, previous := if request.returnPrevious then previous else none,
                revision }]
             events := working.events ++ [{ revision, mutation := .put current previous }] }
  | .delete request => do
    let entries := working.values.entriesIn request.range
    let erased ← eraseEntries revision working entries
    return { erased with
      responses := working.responses ++ [.delete
        { deleted := entries.length
          previous := if request.returnPrevious then entries.map Prod.snd else []
          revision }] }

/-- What `transaction` has worked out before it changes the store. -/
structure TransactionPlan where
  succeeded : Bool
  hasEffectiveMutation : Bool
  revision : Int
  working : Working

/-- The part of `transaction` before its first swap. -/
def planTransaction (s : InMemoryMetadataStore) (request : TransactionRequest) :
    Except StoreException TransactionPlan := do
  let comparisonsHold ← evaluateComparisons s.values request.comparisons
  (if request.leaseOwnership.isEmpty then pure () else s.validateTick request.leaseTick)
  let verified ← verifyOwnership s.leases request.leaseTick request.leaseOwnership
  let succeeded := comparisonsHold
    && request.leaseOwnership.all (ownershipMatches s.leases request.leaseTick)
  let operations := if succeeded then request.success else request.failure
  let footprint ← operations.foldlM (validateOperation s.values verified) {}
  let revision ← (if footprint.hasEffectiveMutation then s.nextRevision else pure s.revision)
  let working ← operations.foldlM (executeOperation revision)
    { values := s.values, leases := s.leases }
  return { succeeded, hasEffectiveMutation := footprint.hasEffectiveMutation, revision, working }

def transaction (request : TransactionRequest) :
    StoreM (TransactionResult × Option EventBatch) := do
  let s ← MonadState.get
  let plan ← ofExcept (s.planTransaction request)
  let batch := if plan.hasEffectiveMutation then
      some { revision := plan.revision, events := plan.working.events }
    else none
  let publication := batch.map s.stageWatchPublication
  modify fun s => { s with values := plan.working.values }
  modify fun s => { s with leases := plan.working.leases }
  modify fun s => { s with revision := plan.revision }
  modify fun s => { s with
    logicalTick := if request.leaseOwnership.isEmpty then s.logicalTick else request.leaseTick }
  commitStaged publication
  return ({ header := { revision := plan.revision }, succeeded := plan.succeeded,
            responses := plan.working.responses }, batch)

/-! ## Lease operations -/

/-- The id a grant uses: the requested one, or the next one for zero. -/
def chooseLeaseId (s : InMemoryMetadataStore) (requestedId : Int) : Except StoreException Int :=
  if requestedId = 0 then
    if maximumLeaseId < s.nextLeaseId then throw (.overflowError "lease ID exhausted")
    else pure s.nextLeaseId
  else if requestedId < 0 ∨ maximumLeaseId < requestedId then
    throw (.invalidArgument "requested lease ID is outside safe range")
  else pure requestedId

def grantLease (request : LeaseGrantRequest) : StoreM LeaseGrantResult := do
  let s ← MonadState.get
  ofExcept (s.validateTick request.tick)
  if request.ttl = 0 then throw (.invalidArgument "lease TTL must be positive")
  if u64Max - request.ttl < request.tick then
    throw (.overflowError "lease expiry tick exhausted")
  if s.nextFencingToken = u64Max then throw (.overflowError "fencing token exhausted")
  if s.limits.maxActiveLeases ≤ s.leases.size then
    throw (.storeError .quotaExceeded "active lease limit reached" 0)
  let id ← ofExcept (s.chooseLeaseId request.requestedId)
  if id ∈ s.leases then throw (.invalidArgument "requested lease ID is already live")
  let stored : StoredLease :=
    { fencingToken := s.nextFencingToken, grantedTtl := request.ttl,
      expiryTick := request.tick + request.ttl }
  modify fun s => { s with leases := s.leases.insert id stored }
  modify fun s => { s with
    nextLeaseId := if s.nextLeaseId ≤ id then id + 1 else s.nextLeaseId }
  modify fun s => { s with nextFencingToken := s.nextFencingToken + 1 }
  modify fun s => { s with logicalTick := request.tick }
  return { lease := leaseRecord id stored, revision := s.revision }

/-- `lookup_lease_locked`. -/
def lookupLease (s : InMemoryMetadataStore) (id : Int) (tick : Nat) : LeaseLookupResult :=
  match s.leases[id]? with
  | none => { code := .notFound, revision := s.revision }
  | some lease =>
    if lease.expiryTick ≤ tick then
      { code := .expired, lease := some (leaseRecord id lease), revision := s.revision }
    else
      { code := .ok, lease := some (leaseRecord id lease),
        remainingTtl := lease.expiryTick - tick, revision := s.revision }

/-- The part of `keep_alive` after the lookup: a live lease with the right token is renewed. -/
def renewLease (request : LeaseKeepAliveRequest) (result : LeaseLookupResult) :
    StoreM LeaseLookupResult := do
  let s ← MonadState.get
  match result.code, s.leases[request.id]? with
  | .ok, some lease =>
    if lease.fencingToken ≠ request.fencingToken then
      return { result with code := .fencingTokenMismatch }
    else
      if u64Max - lease.grantedTtl < request.tick then
        throw (.overflowError "lease expiry tick exhausted")
      let expiryTick := request.tick + lease.grantedTtl
      modify fun s => { s with leases := s.leases.insert request.id { lease with expiryTick } }
      return { result with
        lease := result.lease.map ({ · with expiryTick })
        remainingTtl := lease.grantedTtl }
  | _, _ => return result

def keepAlive (request : LeaseKeepAliveRequest) : StoreM LeaseLookupResult := do
  let s ← MonadState.get
  ofExcept (s.validateTick request.tick)
  if request.id ≤ 0 ∨ request.fencingToken = 0 then
    throw (.invalidArgument "invalid keepalive ownership")
  let result ← renewLease request (s.lookupLease request.id request.tick)
  modify fun s => { s with logicalTick := request.tick }
  return result

def timeToLive (request : LeaseTimeToLiveRequest) : StoreM LeaseLookupResult := do
  let s ← MonadState.get
  ofExcept (s.validateTick request.tick)
  if request.id ≤ 0 then throw (.invalidArgument "invalid lease ID")
  return s.lookupLease request.id request.tick

/-- The value an attached key of a lease names. -/
def attachedValue (s : InMemoryMetadataStore) (id : Int) (key : ByteSequence) :
    Except StoreException KeyValue :=
  match s.values[key]? with
  | none => throw (.logicError "lease attachment index is inconsistent")
  | some value =>
    if value.leaseId ≠ id then throw (.logicError "lease attachment index is inconsistent")
    else pure value

/-- The values attached to a lease that is to be removed. -/
def attachedValues (s : InMemoryMetadataStore) (id : Int) :
    Except StoreException (List KeyValue) :=
  match s.leases[id]? with
  | none => throw (.logicError "lease cleanup references missing lease")
  | some lease => lease.attachedKeys.toList.mapM (s.attachedValue id)

/-- The order `remove_leases_locked` sorts the deleted values in. -/
def keyLE (left right : KeyValue) : Prop := (compare left.key right.key).isLE = true

instance : DecidableRel keyLE := fun left right =>
  inferInstanceAs (Decidable ((compare left.key right.key).isLE = true))

/-- `remove_leases_locked`. -/
def removeLeases (ids : List Int) (code : LeaseResultCode) :
    StoreM (LeaseCleanupResult × Option EventBatch) := do
  let s ← MonadState.get
  let attached ← ofExcept (ids.mapM s.attachedValues)
  let deletedKeys := attached.flatten.insertionSort keyLE
  let cleanupRevision ← ofExcept (if ids.isEmpty then pure s.revision else s.nextRevision)
  let workingValues := deletedKeys.foldl (fun values value => values.erase value.key) s.values
  let workingLeases := ids.foldl (fun leases id => leases.erase id) s.leases
  let batch := if ids.isEmpty then none
    else some { revision := cleanupRevision
                events := deletedKeys.map fun value =>
                  { revision := cleanupRevision, mutation := .erase value } }
  let publication := batch.map s.stageWatchPublication
  modify fun s => { s with values := workingValues }
  modify fun s => { s with leases := workingLeases }
  modify fun s => { s with revision := cleanupRevision }
  commitStaged publication
  return ({ code, leases := ids, deletedKeys, revision := cleanupRevision }, batch)

def revokeLease (request : LeaseRevokeRequest) :
    StoreM (LeaseCleanupResult × Option EventBatch) := do
  let s ← MonadState.get
  ofExcept (s.validateTick request.tick)
  if request.id ≤ 0 ∨ request.fencingToken = 0 then
    throw (.invalidArgument "invalid revoke ownership")
  match s.leases[request.id]? with
  | none =>
    modify fun s => { s with logicalTick := request.tick }
    return ({ code := .notFound, revision := s.revision }, none)
  | some lease =>
    if lease.fencingToken ≠ request.fencingToken then
      modify fun s => { s with logicalTick := request.tick }
      return ({ code := .fencingTokenMismatch, revision := s.revision }, none)
    else
      let result ← removeLeases [request.id] .ok
      modify fun s => { s with logicalTick := request.tick }
      return result

def expireLeases (tick : Nat) : StoreM (LeaseCleanupResult × Option EventBatch) := do
  let s ← MonadState.get
  ofExcept (s.validateTick tick)
  let expired := (s.leases.toList.filter fun entry => entry.2.expiryTick ≤ tick).map Prod.fst
  let result ← removeLeases expired .ok
  modify fun s => { s with logicalTick := tick }
  return result

/-! ## Watch operations -/

/-- One pass of the loop of `create_watch` over the retained history. -/
def replayBatch (limits : StoreLimits) (state : WatchState) (batch : EventBatch) :
    Except StoreException WatchState :=
  if batch.revision < state.request.startRevision then pure state
  else
    let matching := batch.events.filter (watchMatches state.request)
    if matching.isEmpty && !state.request.progressNotifications then pure state
    else if limits.maxWatchPendingResponses ≤ state.pending.length then
      throw (.storeError .quotaExceeded "watch replay exceeds pending response limit" 0)
    else
      pure { state with
        pending := state.pending
          ++ [{ header := { revision := batch.revision }, id := state.request.id,
                events := matching }] }

/-- The revision a new watch starts at. -/
def effectiveStart (s : InMemoryMetadataStore) (startRevision : Int) :
    Except StoreException Int := do
  let start ← (if startRevision = 0 then
      if s.revision = i64Max then
        throw (.storeError .futureRevision "no revision exists after the current revision" 0)
      else pure (s.revision + 1)
    else pure startRevision)
  if start ≤ s.compactRevision then
    throw (.storeError .compacted "watch start revision has been compacted" s.compactRevision)
  if s.revision < start ∧ (s.revision = i64Max ∨ start ≠ s.revision + 1) then
    throw (.storeError .futureRevision "watch start revision is in the future" 0)
  return start

def createWatch (request : WatchRequest) : StoreM WatchResponse := do
  let s ← MonadState.get
  if request.id ≤ 0 then throw (.storeError .invalidArgument "watch ID must be positive" 0)
  if request.range.start.isEmpty then
    throw (.storeError .invalidArgument "watch key must not be empty" 0)
  if !request.range.stop.isEmpty && (compare request.range.start request.range.stop).isGE then
    throw (.storeError .invalidArgument "watch range start must be less than range end" 0)
  if request.startRevision < 0 then
    throw (.storeError .invalidArgument "watch start revision must not be negative" 0)
  if request.id ∈ s.watchers then
    throw (.storeError .invalidArgument "watch ID is already active" 0)
  if s.limits.maxWatchers ≤ s.watchers.size then
    throw (.storeError .quotaExceeded "active watcher limit reached" 0)
  let startRevision ← ofExcept (s.effectiveStart request.startRevision)
  let state ← ofExcept (s.history.foldlM (replayBatch s.limits)
    { request := { request with startRevision } })
  modify fun s => { s with watchers := s.watchers.insert request.id state }
  return { header := { revision := s.revision }, id := request.id }

def unknownWatch : StoreException := .storeError .invalidArgument "unknown watch ID" 0

def pollWatch (id : Int) : StoreM (Option WatchResponse) := do
  let s ← MonadState.get
  match s.watchers[id]? with
  | none => throw unknownWatch
  | some state =>
    match state.terminal, state.pending with
    | some response, _ =>
      modify fun s => { s with watchers := s.watchers.erase id }
      return some response
    | none, [] => return none
    | none, response :: pending =>
      modify fun s => { s with watchers := s.watchers.insert id { state with pending } }
      return some response

def requestWatchProgress (id : Int) : StoreM Unit := do
  let s ← MonadState.get
  match s.watchers[id]? with
  | none => throw unknownWatch
  | some state =>
    if state.terminal.isSome then return ()
    else if s.limits.maxWatchPendingResponses ≤ state.pending.length then
      modify fun s => { s with
        watchers := s.watchers.insert id
          { state with pending := [], terminal := some (overflowed id s.revision) } }
    else
      modify fun s => { s with
        watchers := s.watchers.insert id
          { state with
            pending := state.pending ++ [{ header := { revision := s.revision }, id }] } }

def cancelWatch (id : Int) : StoreM WatchResponse := do
  let s ← MonadState.get
  match s.watchers[id]? with
  | none => throw unknownWatch
  | some _ =>
    modify fun s => { s with watchers := s.watchers.erase id }
    return { header := { revision := s.revision }, id, cancelled := true }

end InMemoryMetadataStore

end KuraMetadata
