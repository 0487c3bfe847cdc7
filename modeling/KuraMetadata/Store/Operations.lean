import KuraMetadata.Store.InMemoryMetadataStore
import KuraMetadata.Library.EStateM

/-! # Runs of the store

The public operations as one type, the runs of a store under them, failing calls included, and
the stores a run can start from. Then the first result on them: an operation that throws has
changed nothing. -/

namespace KuraMetadata

variable {s t : InMemoryMetadataStore}

/-- The public operations with their arguments. -/
inductive Operation where
  | get (key : ByteSequence)
  | range (start stop : ByteSequence)
  | put (key value : ByteSequence)
  | erase (key : ByteSequence)
  | compareAndSet (key : ByteSequence) (expectedModRevision : Int) (newValue : ByteSequence)
  | transaction (request : TransactionRequest)
  | grantLease (request : LeaseGrantRequest)
  | keepAlive (request : LeaseKeepAliveRequest)
  | timeToLive (request : LeaseTimeToLiveRequest)
  | revokeLease (request : LeaseRevokeRequest)
  | expireLeases (tick : Nat)
  | createWatch (request : WatchRequest)
  | pollWatch (id : Int)
  | requestWatchProgress (id : Int)
  | cancelWatch (id : Int)
  deriving DecidableEq, Repr

/-- What an operation returns. -/
inductive Reply where
  | get (result : StoreRead)
  | range (result : RangeRead)
  | put (result : PutResult)
  | erase (result : DeleteResult)
  | compareAndSet (result : CompareAndSetResult)
  | transaction (result : TransactionResult)
  | grantLease (result : LeaseGrantResult)
  | keepAlive (result : LeaseLookupResult)
  | timeToLive (result : LeaseLookupResult)
  | revokeLease (result : LeaseCleanupResult)
  | expireLeases (result : LeaseCleanupResult)
  | createWatch (response : WatchResponse)
  | pollWatch (response : Option WatchResponse)
  | requestWatchProgress
  | cancelWatch (response : WatchResponse)
  deriving DecidableEq, Repr

open InMemoryMetadataStore in
/-- An operation's reply, with the batch of events it has published. -/
def Operation.run : Operation → StoreM (Reply × Option EventBatch)
  | .get key => return (.get (← InMemoryMetadataStore.get key), none)
  | .range start stop => return (.range (← InMemoryMetadataStore.range start stop), none)
  | .put key value => return (← InMemoryMetadataStore.put key value).map .put id
  | .erase key => return (← InMemoryMetadataStore.erase key).map .erase id
  | .compareAndSet key expectedModRevision newValue =>
    return (← InMemoryMetadataStore.compareAndSet key expectedModRevision newValue).map
      .compareAndSet id
  | .transaction request => return (← InMemoryMetadataStore.transaction request).map .transaction id
  | .grantLease request => return (.grantLease (← InMemoryMetadataStore.grantLease request), none)
  | .keepAlive request => return (.keepAlive (← InMemoryMetadataStore.keepAlive request), none)
  | .timeToLive request => return (.timeToLive (← InMemoryMetadataStore.timeToLive request), none)
  | .revokeLease request => return (← InMemoryMetadataStore.revokeLease request).map .revokeLease id
  | .expireLeases tick => return (← InMemoryMetadataStore.expireLeases tick).map .expireLeases id
  | .createWatch request =>
    return (.createWatch (← InMemoryMetadataStore.createWatch request), none)
  | .pollWatch id => return (.pollWatch (← InMemoryMetadataStore.pollWatch id), none)
  | .requestWatchProgress id => do
    InMemoryMetadataStore.requestWatchProgress id
    return (.requestWatchProgress, none)
  | .cancelWatch id => return (.cancelWatch (← InMemoryMetadataStore.cancelWatch id), none)

/-! ## Runs -/

/-- One call of a run: the state it was made in, the operation and how it ended. -/
structure Call where
  before : InMemoryMetadataStore
  operation : Operation
  deriving DecidableEq

namespace Call

def outcome (call : Call) :
    EStateM.Result StoreException InMemoryMetadataStore (Reply × Option EventBatch) :=
  call.operation.run call.before

def after (call : Call) : InMemoryMetadataStore := call.outcome.state

/-- What the call returned, unless it threw. -/
def reply (call : Call) : Option Reply :=
  match call.outcome with
  | .ok (reply, _) _ => some reply
  | .error _ _ => none

/-- The batch the call has published. -/
def batch (call : Call) : Option EventBatch :=
  match call.outcome with
  | .ok (_, batch) _ => batch
  | .error _ _ => none

variable {operation : Operation}

theorem of_run_eq_ok {reply : Reply} {batch : Option EventBatch}
    (h : operation.run s = .ok (reply, batch) t) :
    (Call.mk s operation).after = t ∧ (Call.mk s operation).batch = batch
      ∧ (Call.mk s operation).reply = some reply := by
  unfold Call.after Call.batch Call.reply Call.outcome
  rw [h]
  exact ⟨rfl, rfl, rfl⟩

theorem of_run_eq_error {e : StoreException} (h : operation.run s = .error e t) :
    (Call.mk s operation).after = t ∧ (Call.mk s operation).batch = none
      ∧ (Call.mk s operation).reply = none := by
  unfold Call.after Call.batch Call.reply Call.outcome
  rw [h]
  exact ⟨rfl, rfl, rfl⟩

end Call

/-- The store goes from `s` to `t` in the given calls, failing ones included. -/
inductive Run (s : InMemoryMetadataStore) : List Call → InMemoryMetadataStore → Prop
  | nil : Run s [] s
  | snoc {calls : List Call} {t : InMemoryMetadataStore} (run : Run s calls t)
      (operation : Operation) : Run s (calls ++ [⟨t, operation⟩]) (Call.mk t operation).after

variable {calls : List Call}

theorem Run.trans {u : InMemoryMetadataStore} {calls' : List Call} (run : Run s calls t)
    (run' : Run t calls' u) : Run s (calls ++ calls') u := by
  induction run' with
  | nil =>
    rw [List.append_nil]
    exact run
  | snoc _ operation ih =>
    rw [← List.append_assoc]
    exact ih.snoc operation

theorem Run.split (run : Run s calls t) {earlier later : List Call} (h : calls = earlier ++ later) :
    ∃ u, Run s earlier u ∧ Run u later t := by
  induction run generalizing later with
  | nil =>
    obtain ⟨rfl, rfl⟩ := List.append_eq_nil_iff.mp h.symm
    exact ⟨s, Run.nil, Run.nil⟩
  | snoc run operation ih =>
    rcases later.eq_nil_or_concat' with rfl | ⟨later, call, rfl⟩
    · rw [List.append_nil] at h
      exact ⟨_, h ▸ run.snoc operation, Run.nil⟩
    · rw [← List.append_assoc] at h
      obtain ⟨rfl, hcall⟩ := List.append_inj' h rfl
      cases hcall
      obtain ⟨u, hu, hlater⟩ := ih rfl
      exact ⟨u, hu, hlater.snoc operation⟩

theorem Run.unique {t' : InMemoryMetadataStore} (run : Run s calls t)
    (run' : Run s calls t') : t = t' := by
  have hlast : ∀ {calls : List Call} {t : InMemoryMetadataStore}, Run s calls t →
      t = (calls.getLast?.map Call.after).getD s := by
    intro calls t run
    cases run with
    | nil => rfl
    | snoc run operation => simp
  rw [hlast run, hlast run']

theorem Run.singleton {call : Call} (run : Run s [call] t) : call.before = s ∧ call.after = t := by
  generalize hcalls : [call] = calls at run
  cases run with
  | nil => cases hcalls
  | snoc run operation =>
    rw [← List.nil_append [call]] at hcalls
    obtain ⟨rfl, hcall⟩ := List.append_inj' hcalls rfl
    cases hcall
    exact ⟨run.unique Run.nil, rfl⟩

/-- The calls a sequence of operations makes. -/
def callsFrom (s : InMemoryMetadataStore) : List Operation → List Call
  | [] => []
  | operation :: operations =>
    ⟨s, operation⟩ :: callsFrom (Call.mk s operation).after operations

/-- The state a sequence of operations leads to. -/
def stateAfter (s : InMemoryMetadataStore) : List Operation → InMemoryMetadataStore
  | [] => s
  | operation :: operations => stateAfter (Call.mk s operation).after operations

theorem callsFrom_append (s : InMemoryMetadataStore) (operations operations' : List Operation) :
    callsFrom s (operations ++ operations')
      = callsFrom s operations ++ callsFrom (stateAfter s operations) operations' := by
  induction operations generalizing s with
  | nil => rfl
  | cons operation operations ih =>
    rw [List.cons_append, callsFrom, callsFrom, ih]
    rfl

theorem Run.of_operations (s : InMemoryMetadataStore) (operations : List Operation) :
    Run s (callsFrom s operations) (stateAfter s operations) := by
  induction operations generalizing s with
  | nil => exact Run.nil
  | cons operation operations ih => exact (Run.nil.snoc operation).trans (ih _)

theorem stateAfter_append (s : InMemoryMetadataStore) (operations operations' : List Operation) :
    stateAfter s (operations ++ operations')
      = stateAfter (stateAfter s operations) operations' := by
  induction operations generalizing s with
  | nil => rfl
  | cons operation operations ih => exact ih _

theorem Run.eq_stateAfter (run : Run s calls t) : t = stateAfter s (calls.map Call.operation) := by
  induction run with
  | nil => rfl
  | snoc run operation ih =>
    rw [List.map_append, stateAfter_append, ← ih]
    rfl

/-- A store just opened: by one of the two constructors that take no snapshot, or from the
snapshot a run of such a store has reached. -/
inductive Opened : InMemoryMetadataStore → Prop
  | ofRevision {revision : Int} {limits : StoreLimits} {s : InMemoryMetadataStore} :
      InMemoryMetadataStore.ofRevision revision limits = .ok s → Opened s
  | ofValues {values : List KeyValue} {revision : Int} {limits : StoreLimits}
      {s : InMemoryMetadataStore} :
      InMemoryMetadataStore.ofValues values revision limits = .ok s → Opened s
  | ofSnapshot {s t u : InMemoryMetadataStore} {calls : List Call} {limits : StoreLimits} :
      Opened s → Run s calls t → InMemoryMetadataStore.ofSnapshot t.snapshot limits = .ok u →
      Opened u

/-! ## A failing operation changes nothing

Every operation reads and checks first. What follows its first change never throws. -/

namespace InMemoryMetadataStore

open EStateM

theorem returns_commitWatchPublication (publication : StagedWatchPublication) :
    Returns (commitWatchPublication publication) :=
  .modify <| .modify <| returns_modify _

theorem returns_commitStaged (publication : Option StagedWatchPublication) :
    Returns (commitStaged publication) := by
  cases publication with
  | none => exact returns_pure _
  | some publication => exact returns_commitWatchPublication publication

theorem atomic_get (key : ByteSequence) : Atomic (get key) := by
  refine .ofExcept fun _ => ?_
  refine .get fun _ => ?_
  exact (returns_pure _).atomic

theorem atomic_range (start stop : ByteSequence) : Atomic (range start stop) := by
  refine .ofExcept fun _ => ?_
  refine .ofExcept fun _ => .check ?_
  refine .get fun _ => ?_
  exact (returns_pure _).atomic

theorem atomic_putLocked (key value : ByteSequence) : Atomic (putLocked key value) := by
  refine .get fun _ => ?_
  refine .ofExcept fun _ => .check ?_
  refine .ofExcept fun _ => Returns.atomic ?_
  refine .modify <| .modify ?_
  refine .modify <| (returns_commitWatchPublication _).bind fun _ => ?_
  exact returns_pure _

theorem atomic_put (key value : ByteSequence) : Atomic (put key value) :=
  .ofExcept fun _ => atomic_putLocked key value

theorem atomic_erase (key : ByteSequence) : Atomic (erase key) := by
  refine .ofExcept fun _ => ?_
  refine .get fun s => ?_
  cases s.values[key]? with
  | none => exact (returns_pure _).atomic
  | some previous =>
    refine .ofExcept fun _ => ?_
    refine .ofExcept fun _ => Returns.atomic ?_
    refine .modify <| .modify ?_
    refine .modify <| (returns_commitWatchPublication _).bind fun _ => ?_
    exact returns_pure _

theorem atomic_compareAndSet (key : ByteSequence) (expectedModRevision : Int)
    (newValue : ByteSequence) : Atomic (compareAndSet key expectedModRevision newValue) := by
  refine .ofExcept fun _ => .check ?_
  refine .get fun _ => .ite ?_ (returns_pure _).atomic
  exact (atomic_putLocked key newValue).bind_returns fun _ => returns_pure _

theorem atomic_transaction (request : TransactionRequest) : Atomic (transaction request) := by
  refine .get fun _ => ?_
  refine .ofExcept fun _ => Returns.atomic ?_
  refine .modify <| .modify ?_
  refine .modify <| .modify ?_
  exact (returns_commitStaged _).bind fun _ => returns_pure _

theorem atomic_grantLease (request : LeaseGrantRequest) : Atomic (grantLease request) := by
  refine .get fun _ => ?_
  refine .ofExcept fun _ => ?_
  refine .check (.check (.check (.check ?_)))
  refine .ofExcept fun _ => .check (Returns.atomic ?_)
  refine .modify <| .modify ?_
  refine .modify <| .modify ?_
  exact returns_pure _

theorem atomic_renewLease (request : LeaseKeepAliveRequest) (result : LeaseLookupResult) :
    Atomic (renewLease request result) := by
  refine .get fun s => ?_
  split
  · refine .ite (returns_pure _).atomic (.check (Returns.atomic ?_))
    exact .modify <| returns_pure _
  · exact (returns_pure _).atomic

theorem atomic_keepAlive (request : LeaseKeepAliveRequest) : Atomic (keepAlive request) := by
  refine .get fun s => ?_
  refine .ofExcept fun _ => .check ?_
  refine (atomic_renewLease request _).bind_returns fun _ => ?_
  exact .modify <| returns_pure _

theorem atomic_timeToLive (request : LeaseTimeToLiveRequest) : Atomic (timeToLive request) := by
  refine .get fun _ => ?_
  refine .ofExcept fun _ => .check ?_
  exact (returns_pure _).atomic

theorem atomic_removeLeases (ids : List Int) (code : LeaseResultCode) :
    Atomic (removeLeases ids code) := by
  refine .get fun _ => ?_
  refine .ofExcept fun _ => ?_
  refine .ofExcept fun _ => Returns.atomic ?_
  refine .modify <| .modify ?_
  refine .modify <| (returns_commitStaged _).bind fun _ => ?_
  exact returns_pure _

theorem atomic_revokeLease (request : LeaseRevokeRequest) : Atomic (revokeLease request) := by
  refine .get fun s => ?_
  refine .ofExcept fun _ => .check ?_
  cases s.leases[request.id]? with
  | none => exact Returns.atomic (.modify (returns_pure _))
  | some lease =>
    refine .ite (Returns.atomic (.modify (returns_pure _))) ?_
    refine (atomic_removeLeases _ _).bind_returns fun _ => ?_
    exact .modify <| returns_pure _

theorem atomic_expireLeases (tick : Nat) : Atomic (expireLeases tick) := by
  refine .get fun _ => ?_
  refine .ofExcept fun _ => ?_
  refine (atomic_removeLeases _ _).bind_returns fun _ => ?_
  exact .modify <| returns_pure _

theorem atomic_createWatch (request : WatchRequest) : Atomic (createWatch request) := by
  refine .get fun _ => ?_
  refine .check (.check (.check (.check (.check (.check ?_)))))
  refine .ofExcept fun _ => ?_
  refine .ofExcept fun _ => Returns.atomic ?_
  exact .modify <| returns_pure _

theorem atomic_pollWatch (id : Int) : Atomic (pollWatch id) := by
  refine .get fun s => ?_
  cases s.watchers[id]? with
  | none => exact atomic_throw _
  | some state =>
    obtain ⟨request, pending, terminal⟩ := state
    cases terminal with
    | some response => exact Returns.atomic (.modify (returns_pure _))
    | none =>
      cases pending with
      | nil => exact (returns_pure _).atomic
      | cons response pending =>
        exact Returns.atomic (.modify (returns_pure _))

theorem atomic_requestWatchProgress (id : Int) : Atomic (requestWatchProgress id) := by
  refine .get fun s => ?_
  cases s.watchers[id]? with
  | none => exact atomic_throw _
  | some state =>
    refine .ite (returns_pure _).atomic ?_
    exact .ite (returns_modify _).atomic (returns_modify _).atomic

theorem atomic_cancelWatch (id : Int) : Atomic (cancelWatch id) := by
  refine .get fun s => ?_
  cases s.watchers[id]? with
  | none => exact atomic_throw _
  | some state => exact Returns.atomic (.modify (returns_pure _))

theorem atomic_run (operation : Operation) : Atomic operation.run := by
  cases operation with
  | get key => exact (atomic_get key).bind_returns fun _ => returns_pure _
  | range start stop => exact (atomic_range start stop).bind_returns fun _ => returns_pure _
  | put key value => exact (atomic_put key value).bind_returns fun _ => returns_pure _
  | erase key => exact (atomic_erase key).bind_returns fun _ => returns_pure _
  | compareAndSet key expectedModRevision newValue =>
    exact (atomic_compareAndSet key _ newValue).bind_returns fun _ => returns_pure _
  | transaction request => exact (atomic_transaction request).bind_returns fun _ => returns_pure _
  | grantLease request => exact (atomic_grantLease request).bind_returns fun _ => returns_pure _
  | keepAlive request => exact (atomic_keepAlive request).bind_returns fun _ => returns_pure _
  | timeToLive request => exact (atomic_timeToLive request).bind_returns fun _ => returns_pure _
  | revokeLease request => exact (atomic_revokeLease request).bind_returns fun _ => returns_pure _
  | expireLeases tick => exact (atomic_expireLeases tick).bind_returns fun _ => returns_pure _
  | createWatch request => exact (atomic_createWatch request).bind_returns fun _ => returns_pure _
  | pollWatch id => exact (atomic_pollWatch id).bind_returns fun _ => returns_pure _
  | requestWatchProgress id =>
    exact (atomic_requestWatchProgress id).bind_returns fun _ => returns_pure _
  | cancelWatch id => exact (atomic_cancelWatch id).bind_returns fun _ => returns_pure _

end InMemoryMetadataStore

/-- A call that throws leaves the store exactly as it was. -/
theorem Call.unchanged_of_throws (call : Call) (h : call.reply = none) :
    call.after = call.before := by
  unfold Call.reply at h
  unfold Call.after
  split at h
  · cases h
  · rename_i e s hs
    rw [hs]
    exact InMemoryMetadataStore.atomic_run call.operation call.before e s hs

/-- A renewal that finds, after its lookup, that the new deadline does not fit. -/
def exhaustedRenewal : Call :=
  { before := (Call.mk { revision := 0, compactRevision := 0 }
      (.grantLease { ttl := 5, tick := u64Max - 5 })).after
    operation := .keepAlive { id := 1, fencingToken := 1, tick := u64Max - 1 } }

theorem Call.unchanged_of_throws_renewal :
    exhaustedRenewal.before.leases.size = 1 ∧ exhaustedRenewal.reply = none
      ∧ exhaustedRenewal.after = exhaustedRenewal.before := by
  have hreply : exhaustedRenewal.reply = none := by decide +kernel
  exact ⟨by decide +kernel, hreply, Call.unchanged_of_throws exhaustedRenewal hreply⟩

end KuraMetadata
