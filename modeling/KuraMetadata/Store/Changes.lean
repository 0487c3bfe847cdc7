import KuraMetadata.Store.Branch

/-! # The changes a call can make

`DataChange` lists everything an operation on the data that returns can do to the store: move
the logical tick, grant or renew a lease, publish a sequence of edits, or publish a lease
cleanup. A watch operation changes the watchers only. Every invariant of the store is checked
against these. -/

namespace KuraMetadata

variable {request : TransactionRequest} {s s' : InMemoryMetadataStore} {plan : TransactionPlan}
variable {key : ByteSequence}

/-- The operations that create, read and end watches. -/
def Operation.watches : Operation → Bool
  | .createWatch _ | .pollWatch _ | .requestWatchProgress _ | .cancelWatch _ => true
  | _ => false

namespace InMemoryMetadataStore

open EStateM List

variable {result : LeaseCleanupResult × Option EventBatch} {value : ByteSequence} {ids : List Int}
variable {code : LeaseResultCode} {tick : Nat} {response : WatchResponse} {id : Int}
variable {operation : Operation} {reply : Reply} {batch : Option EventBatch}

/-- The values a cleanup of the leases deletes, in the order of their keys. -/
def sortedByKey (attached : List (List KeyValue)) : List KeyValue :=
  attached.flatten.insertionSort keyLE

def eraseEvents (revision : Int) (deleted : List KeyValue) : List WatchEvent :=
  deleted.map fun value => { revision, mutation := .erase value }

def eraseValues (values : ValueMap) (deleted : List KeyValue) : ValueMap :=
  deleted.foldl (fun values value => values.erase value.key) values

def eraseLeases (leases : LeaseMap) (ids : List Int) : LeaseMap :=
  ids.foldl (fun leases id => leases.erase id) leases

/-- What an operation on the data has done, beside its reply. -/
inductive DataChange (s : InMemoryMetadataStore) :
    Option EventBatch → InMemoryMetadataStore → Prop
  | ticked {tick : Nat} (later : s.logicalTick ≤ tick) :
      DataChange s none { s with logicalTick := tick }
  | granted {requestedId id : Int} {ttl tick : Nat} (later : s.logicalTick ≤ tick)
      (choice : s.chooseLeaseId requestedId = .ok id) (free : s.leases[id]? = none)
      (positive : ttl ≠ 0) (quota : s.leases.size < s.limits.maxActiveLeases) :
      DataChange s none
        { s with
          leases := s.leases.insert id
            { fencingToken := s.nextFencingToken, grantedTtl := ttl, expiryTick := tick + ttl }
          nextLeaseId := if s.nextLeaseId ≤ id then id + 1 else s.nextLeaseId
          nextFencingToken := s.nextFencingToken + 1
          logicalTick := tick }
  | renewed {id : Int} {lease : StoredLease} {tick : Nat} (later : s.logicalTick ≤ tick)
      (found : s.leases[id]? = some lease) (live : tick < lease.expiryTick) :
      DataChange s none
        { s with
          leases := s.leases.insert id { lease with expiryTick := tick + lease.grantedTtl }
          logicalTick := tick }
  | edited {events : List WatchEvent} {values : ValueMap} {leases : LeaseMap} {tick : Nat}
      (later : s.logicalTick ≤ tick) (room : s.revision ≠ i64Max)
      (edits : Edits (s.revision + 1) s.values s.leases events values leases) :
      DataChange s (some ⟨s.revision + 1, events⟩)
        { s.published values leases ⟨s.revision + 1, events⟩ with logicalTick := tick }
  | cleaned {ids : List Int} {attached : List (List KeyValue)} {tick : Nat}
      (later : s.logicalTick ≤ tick) (room : s.revision ≠ i64Max) (distinct : ids.Nodup)
      (found : ids.mapM s.attachedValues = .ok attached) :
      DataChange s (some ⟨s.revision + 1, eraseEvents (s.revision + 1) (sortedByKey attached)⟩)
        { s.published (eraseValues s.values (sortedByKey attached)) (eraseLeases s.leases ids)
            ⟨s.revision + 1, eraseEvents (s.revision + 1) (sortedByKey attached)⟩ with
          logicalTick := tick }

theorem DataChange.refl (s : InMemoryMetadataStore) : DataChange s none s :=
  @DataChange.ticked s s.logicalTick le_rfl

/-! ## Point operations and transactions -/

theorem putLocked_change {result : PutResult × Option EventBatch}
    (hkey : key ≠ []) (h : putLocked key value s = .ok result s') : DataChange s result.2 s' := by
  obtain ⟨leases, hroom, hdetach, hbatch, rfl⟩ := putLocked_eq_ok h
  rw [hbatch]
  refine DataChange.edited le_rfl hroom ?_
  exact Edits.nil.put hkey le_rfl (fun _ hevent => by cases hevent) hdetach (if_pos rfl)

theorem put_change {result : PutResult × Option EventBatch}
    (h : put key value s = .ok result s') : DataChange s result.2 s' := by
  simp only [put, ofExcept_bind_eq_ok, validateKey_eq_ok] at h
  obtain ⟨_, hkey, h⟩ := h
  exact putLocked_change hkey h

theorem erase_change {result : DeleteResult × Option EventBatch} (h : erase key s = .ok result s') :
    DataChange s result.2 s' := by
  rcases erase_eq_ok h with ⟨-, hbatch, rfl⟩
    | ⟨previous, leases, hbound, hroom, hdetach, hbatch, rfl⟩
  · rw [hbatch]
    exact DataChange.refl s'
  · rw [hbatch]
    exact DataChange.edited le_rfl hroom (Edits.nil.erase hbound hdetach)

theorem compareAndSet_change {expectedModRevision : Int} {newValue : ByteSequence}
    {result : CompareAndSetResult × Option EventBatch}
    (h : compareAndSet key expectedModRevision newValue s = .ok result s') :
    DataChange s result.2 s' := by
  simp only [compareAndSet, ofExcept_bind_eq_ok, validateKey_eq_ok, EStateM.ite_apply,
    throw_bind_apply, EStateM.ite_error_eq_ok, get_bind_apply] at h
  obtain ⟨_, hkey, -, h⟩ := h
  split at h
  · obtain ⟨put, t, hput, hresult⟩ := bind_eq_ok.mp h
    cases hresult
    exact putLocked_change hkey hput
  · cases h
    exact DataChange.refl s

/-- What the first part of a transaction has established. -/
theorem planTransaction_eq_ok (h : s.planTransaction request = .ok plan) :
    (request.leaseOwnership ≠ [] → s.logicalTick ≤ request.leaseTick)
      ∧ (plan.hasEffectiveMutation = true → s.revision ≠ i64Max ∧ plan.revision = s.revision + 1
          ∧ Edits (s.revision + 1) s.values s.leases plan.working.events plan.working.values
              plan.working.leases)
      ∧ (plan.hasEffectiveMutation = false → plan.revision = s.revision
          ∧ plan.working.values = s.values ∧ plan.working.leases = s.leases) := by
  simp only [planTransaction, Except.bind_eq_ok, Except.pure_eq_ok] at h
  obtain ⟨hold, -, _, htick, verified, -, footprint, hvalid, revision, hrevision, working, hwork,
    rfl⟩ := h
  refine ⟨fun howned => ?_, fun heffective => ?_, fun heffective => ?_⟩
  · rw [if_neg (by simpa using howned), validateTick_eq_ok] at htick
    exact htick
  · rw [if_pos heffective, nextRevision_eq_ok] at hrevision
    obtain ⟨hroom, rfl⟩ := hrevision
    exact ⟨hroom, rfl, executeBranch_edits hvalid hwork Edits.nil fun _ hevent => by cases hevent⟩
  · rw [if_neg (by simpa using heffective), Except.pure_eq_ok] at hrevision
    obtain ⟨hvalues, hleases, -⟩ := executeBranch_idle hvalid heffective hwork rfl
    exact ⟨hrevision.symm, hvalues, hleases⟩

/-- A transaction reports the branch its plan has taken. -/
theorem transaction_plan {result : TransactionResult × Option EventBatch}
    (h : transaction request s = .ok result s') :
    ∃ plan, s.planTransaction request = .ok plan ∧ result.1.succeeded = plan.succeeded := by
  simp only [transaction, get_bind_apply, ofExcept_bind_eq_ok, modify_bind_apply] at h
  obtain ⟨plan, hplan, h⟩ := h
  refine ⟨plan, hplan, ?_⟩
  obtain ⟨_, _, -, h⟩ := bind_eq_ok.mp h
  cases h
  rfl

theorem transaction_change {result : TransactionResult × Option EventBatch}
    (h : transaction request s = .ok result s') : DataChange s result.2 s' := by
  simp only [transaction, get_bind_apply, ofExcept_bind_eq_ok, modify_bind_apply] at h
  obtain ⟨plan, hplan, h⟩ := h
  obtain ⟨htick, heffect, hidle⟩ := planTransaction_eq_ok hplan
  have later : s.logicalTick
      ≤ if request.leaseOwnership.isEmpty = true then s.logicalTick else request.leaseTick := by
    split
    · exact le_rfl
    · rename_i howned
      exact htick (by simpa using howned)
  cases hflag : plan.hasEffectiveMutation with
  | true =>
    obtain ⟨hroom, hrevision, hedits⟩ := heffect hflag
    simp only [hflag, if_true, Option.map_some, commitStaged_some_bind_apply, pure_apply,
      Result.ok.injEq, hrevision] at h
    obtain ⟨rfl, rfl⟩ := h
    exact DataChange.edited later hroom hedits
  | false =>
    obtain ⟨hrevision, hvalues, hleases⟩ := hidle hflag
    simp only [hflag, Bool.false_eq_true, if_false, Option.map_none,
      commitStaged_none_bind_apply, pure_apply, Result.ok.injEq, hrevision, hvalues,
      hleases] at h
    obtain ⟨rfl, rfl⟩ := h
    exact DataChange.ticked later

/-! ## Lease operations -/

theorem grantLease_eq_ok {request : LeaseGrantRequest} {result : LeaseGrantResult}
    (h : grantLease request s = .ok result s') :
    ∃ id, s.logicalTick ≤ request.tick ∧ request.ttl ≠ 0 ∧ s.leases.size < s.limits.maxActiveLeases
      ∧ s.chooseLeaseId request.requestedId = .ok id ∧ s.leases[id]? = none
      ∧ result.lease.id = id ∧ result.lease.fencingToken = s.nextFencingToken
      ∧ s' = { s with
          leases := s.leases.insert id
            { fencingToken := s.nextFencingToken, grantedTtl := request.ttl,
              expiryTick := request.tick + request.ttl }
          nextLeaseId := if s.nextLeaseId ≤ id then id + 1 else s.nextLeaseId
          nextFencingToken := s.nextFencingToken + 1
          logicalTick := request.tick } := by
  simp only [grantLease, get_bind_apply, ofExcept_bind_eq_ok, EStateM.ite_apply, throw_bind_apply,
    EStateM.ite_error_eq_ok, modify_bind_apply, pure_apply, Result.ok.injEq, validateTick_eq_ok,
    Nat.not_lt, Nat.not_le] at h
  obtain ⟨_, htick, httl, -, -, hquota, id, hchoice, hfree, rfl, rfl⟩ := h
  exact ⟨id, htick, httl, hquota, hchoice, Std.ExtTreeMap.notMem_iff_getElem?.mp hfree, rfl, rfl,
    rfl⟩

theorem grantLease_change {request : LeaseGrantRequest} {result : LeaseGrantResult}
    (h : grantLease request s = .ok result s') : DataChange s none s' := by
  obtain ⟨id, htick, httl, hquota, hchoice, hfree, -, -, rfl⟩ := grantLease_eq_ok h
  exact DataChange.granted htick hchoice hfree httl hquota

/-- A renewal that succeeds finds the generation live, and any other answer moves the tick
only. -/
theorem keepAlive_eq_ok {request : LeaseKeepAliveRequest} {result : LeaseLookupResult}
    (h : keepAlive request s = .ok result s') :
    s.logicalTick ≤ request.tick
      ∧ ((∃ lease, s.leases[request.id]? = some lease ∧ request.tick < lease.expiryTick
            ∧ lease.fencingToken = request.fencingToken ∧ result.code = .ok
            ∧ s' = { s with
                leases := s.leases.insert request.id
                  { lease with expiryTick := request.tick + lease.grantedTtl }
                logicalTick := request.tick })
        ∨ result.code ≠ .ok ∧ s' = { s with logicalTick := request.tick }) := by
  simp only [keepAlive, get_bind_apply, ofExcept_bind_eq_ok, EStateM.ite_apply, throw_bind_apply,
    EStateM.ite_error_eq_ok, validateTick_eq_ok] at h
  obtain ⟨_, htick, -, h⟩ := h
  obtain ⟨renewed, t, hrenew, h⟩ := bind_eq_ok.mp h
  simp only [modify_bind_apply, pure_apply, Result.ok.injEq] at h
  obtain ⟨rfl, rfl⟩ := h
  refine ⟨htick, ?_⟩
  unfold renewLease lookupLease at hrenew
  simp only [get_bind_apply] at hrenew
  cases hfound : s.leases[request.id]? with
  | none =>
    simp only [hfound, pure_apply, Result.ok.injEq] at hrenew
    obtain ⟨rfl, rfl⟩ := hrenew
    exact .inr ⟨by simp, rfl⟩
  | some lease =>
    simp only [hfound] at hrenew
    by_cases hlive : lease.expiryTick ≤ request.tick
    · simp only [hlive, if_true, pure_apply, Result.ok.injEq] at hrenew
      obtain ⟨rfl, rfl⟩ := hrenew
      exact .inr ⟨by simp, rfl⟩
    · simp only [hlive, if_false, EStateM.ite_apply, throw_bind_apply, pure_apply,
        modify_bind_apply] at hrenew
      split at hrenew
      · cases hrenew
        exact .inr ⟨by simp, rfl⟩
      · rename_i htoken
        obtain ⟨-, hrenew⟩ := EStateM.ite_error_eq_ok.mp hrenew
        cases hrenew
        exact .inl ⟨lease, rfl, Nat.not_le.mp hlive, not_not.mp htoken, rfl, rfl⟩

theorem keepAlive_change {request : LeaseKeepAliveRequest} {result : LeaseLookupResult}
    (h : keepAlive request s = .ok result s') : DataChange s none s' := by
  obtain ⟨htick, ⟨lease, hfound, hlive, -, -, rfl⟩ | ⟨-, rfl⟩⟩ := keepAlive_eq_ok h
  · exact DataChange.renewed htick hfound hlive
  · exact DataChange.ticked htick

theorem removeLeases_eq_ok (h : removeLeases ids code s = .ok result s') :
    result.1.code = code ∧ result.1.leases = ids ∧ (ids = [] ∧ result.2 = none ∧ s' = s
        ∨ ids ≠ [] ∧ ∃ attached, s.revision ≠ i64Max ∧ ids.mapM s.attachedValues = .ok attached
          ∧ result.2 = some ⟨s.revision + 1, eraseEvents (s.revision + 1) (sortedByKey attached)⟩
          ∧ s' = s.published (eraseValues s.values (sortedByKey attached))
              (eraseLeases s.leases ids)
              ⟨s.revision + 1, eraseEvents (s.revision + 1) (sortedByKey attached)⟩) := by
  simp only [removeLeases, get_bind_apply, ofExcept_bind_eq_ok, modify_bind_apply] at h
  obtain ⟨attached, hattached, revision, hrevision, h⟩ := h
  cases ids with
  | nil =>
    simp only [isEmpty_nil, if_true, Except.pure_eq_ok] at hrevision
    cases hattached
    simp only [isEmpty_nil, if_true, Option.map_none, commitStaged_none_bind_apply,
      pure_apply, Result.ok.injEq, ← hrevision] at h
    obtain ⟨rfl, rfl⟩ := h
    exact ⟨rfl, rfl, .inl ⟨rfl, rfl, rfl⟩⟩
  | cons id ids =>
    simp only [isEmpty_cons, Bool.false_eq_true, if_false, nextRevision_eq_ok] at hrevision
    obtain ⟨hroom, rfl⟩ := hrevision
    simp only [isEmpty_cons, Bool.false_eq_true, if_false, Option.map_some,
      commitStaged_some_bind_apply, pure_apply, Result.ok.injEq] at h
    obtain ⟨rfl, rfl⟩ := h
    exact ⟨rfl, rfl, .inr ⟨cons_ne_nil _ _, attached, hroom, hattached, rfl, rfl⟩⟩

/-- A cleanup followed by the move of the tick. -/
theorem removeLeases_change (distinct : ids.Nodup) (later : s.logicalTick ≤ tick)
    (h : removeLeases ids code s = .ok result s') :
    DataChange s result.2 { s' with logicalTick := tick } := by
  obtain ⟨-, -, ⟨-, hbatch, rfl⟩ | ⟨-, attached, hroom, hattached, hbatch, rfl⟩⟩ :=
    removeLeases_eq_ok h
  · rw [hbatch]
    exact DataChange.ticked later
  · rw [hbatch]
    exact DataChange.cleaned later hroom distinct hattached

/-- A revocation that succeeds finds the generation and removes it, and any other answer moves
the tick only. -/
theorem revokeLease_eq_ok {request : LeaseRevokeRequest}
    (h : revokeLease request s = .ok result s') :
    s.logicalTick ≤ request.tick ∧ ((∃ lease t, s.leases[request.id]? = some lease
            ∧ lease.fencingToken = request.fencingToken
            ∧ removeLeases [request.id] .ok s = .ok result t
            ∧ s' = { t with logicalTick := request.tick })
        ∨ result.1.code ≠ .ok ∧ result.2 = none ∧ s' = { s with logicalTick := request.tick }) := by
  simp only [revokeLease, get_bind_apply, ofExcept_bind_eq_ok, EStateM.ite_apply, throw_bind_apply,
    EStateM.ite_error_eq_ok, validateTick_eq_ok] at h
  obtain ⟨_, htick, -, h⟩ := h
  refine ⟨htick, ?_⟩
  cases hfound : s.leases[request.id]? with
  | none =>
    simp only [hfound, modify_bind_apply, pure_apply, Result.ok.injEq] at h
    obtain ⟨rfl, rfl⟩ := h
    exact .inr ⟨by simp, rfl, rfl⟩
  | some lease =>
    simp only [hfound, EStateM.ite_apply, modify_bind_apply, pure_apply] at h
    split at h
    · cases h
      exact .inr ⟨by simp, rfl, rfl⟩
    · rename_i htoken
      obtain ⟨removed, t, hremove, h⟩ := bind_eq_ok.mp h
      cases h
      exact .inl ⟨lease, t, rfl, not_not.mp htoken, hremove, rfl⟩

theorem revokeLease_change {request : LeaseRevokeRequest}
    (h : revokeLease request s = .ok result s') : DataChange s result.2 s' := by
  obtain ⟨htick, ⟨lease, t, -, -, hremove, rfl⟩ | ⟨-, hbatch, rfl⟩⟩ := revokeLease_eq_ok h
  · exact removeLeases_change (nodup_singleton _) htick hremove
  · rw [hbatch]
    exact DataChange.ticked htick

/-- The leases that have expired at the tick, in the order of their ids. -/
def expiredAt (s : InMemoryMetadataStore) (tick : Nat) : List Int :=
  (s.leases.toList.filter fun entry => entry.2.expiryTick ≤ tick).map Prod.fst

theorem expiredAt_nodup (s : InMemoryMetadataStore) (tick : Nat) : (s.expiredAt tick).Nodup := by
  unfold expiredAt List.Nodup
  rw [pairwise_map]
  refine (Std.ExtTreeMap.distinct_keys_toList.imp fun {a b} hab he => ?_).filter _
  exact hab (Std.LawfulEqCmp.compare_eq_iff_eq.mpr he)

theorem expireLeases_eq_ok (h : expireLeases tick s = .ok result s') :
    s.logicalTick ≤ tick ∧ ∃ t, removeLeases (s.expiredAt tick) .ok s = .ok result t
      ∧ s' = { t with logicalTick := tick } := by
  simp only [expireLeases, get_bind_apply, ofExcept_bind_eq_ok, validateTick_eq_ok] at h
  obtain ⟨_, htick, h⟩ := h
  obtain ⟨removed, t, hremove, h⟩ := bind_eq_ok.mp h
  cases h
  exact ⟨htick, t, hremove, rfl⟩

theorem expireLeases_change (h : expireLeases tick s = .ok result s') :
    DataChange s result.2 s' := by
  obtain ⟨htick, t, hremove, rfl⟩ := expireLeases_eq_ok h
  exact removeLeases_change (s.expiredAt_nodup tick) htick hremove

theorem timeToLive_eq_ok {request : LeaseTimeToLiveRequest} {result : LeaseLookupResult}
    (h : timeToLive request s = .ok result s') : s' = s := by
  simp only [timeToLive, get_bind_apply, ofExcept_bind_eq_ok, EStateM.ite_apply, throw_bind_apply,
    EStateM.ite_error_eq_ok, pure_apply, Result.ok.injEq] at h
  obtain ⟨_, -, -, -, rfl⟩ := h
  rfl

/-! ## Watch operations -/

theorem createWatch_eq_ok {request : WatchRequest} (h : createWatch request s = .ok response s') :
    ∃ start state, s.effectiveStart request.startRevision = .ok start
      ∧ s.history.foldlM (replayBatch s.limits)
          { request := { request with startRevision := start } } = .ok state
      ∧ s' = { s with watchers := s.watchers.insert request.id state } := by
  simp only [createWatch, get_bind_apply, ofExcept_bind_eq_ok, EStateM.ite_apply, throw_bind_apply,
    EStateM.ite_error_eq_ok, modify_bind_apply, pure_apply, Result.ok.injEq] at h
  obtain ⟨-, -, -, -, -, -, start, hstart, state, hstate, -, rfl⟩ := h
  exact ⟨start, state, hstart, hstate, rfl⟩

theorem pollWatch_eq_ok {response : Option WatchResponse} (h : pollWatch id s = .ok response s') :
    ∃ state, s.watchers[id]? = some state ∧ (state.terminal ≠ none ∧ response = state.terminal
            ∧ s' = { s with watchers := s.watchers.erase id }
        ∨ state.terminal = none ∧ state.pending = [] ∧ response = none ∧ s' = s
        ∨ state.terminal = none ∧ ∃ first pending, state.pending = first :: pending
            ∧ response = some first
            ∧ s' = { s with watchers := s.watchers.insert id { state with pending } }) := by
  simp only [pollWatch, get_bind_apply] at h
  cases hfound : s.watchers[id]? with
  | none =>
    rw [hfound] at h
    cases h
  | some state =>
    refine ⟨state, rfl, ?_⟩
    obtain ⟨request, pending, terminal⟩ := state
    rw [hfound] at h
    cases terminal with
    | some last =>
      cases h
      exact .inl ⟨by simp, rfl, rfl⟩
    | none =>
      cases pending with
      | nil =>
        cases h
        exact .inr (.inl ⟨rfl, rfl, rfl, rfl⟩)
      | cons first pending =>
        cases h
        exact .inr (.inr ⟨rfl, first, pending, rfl, rfl, rfl⟩)

theorem requestWatchProgress_eq_ok {u : Unit} (h : requestWatchProgress id s = .ok u s') :
    ∃ state, s.watchers[id]? = some state ∧ (state.terminal ≠ none ∧ s' = s ∨ state.terminal = none
            ∧ s' = { s with
                watchers := s.watchers.insert id
                  { state with pending := [], terminal := some (overflowed id s.revision) } }
        ∨ state.terminal = none
            ∧ s' = { s with
                watchers := s.watchers.insert id
                  { state with
                    pending := state.pending
                      ++ [{ header := { revision := s.revision }, id }] } }) := by
  simp only [requestWatchProgress, get_bind_apply] at h
  cases hfound : s.watchers[id]? with
  | none =>
    rw [hfound] at h
    cases h
  | some state =>
    refine ⟨state, rfl, ?_⟩
    simp only [hfound, EStateM.ite_apply, pure_apply, modify_apply] at h
    split at h
    · rename_i hterminal
      cases h
      exact .inl ⟨by simpa [Option.isSome_iff_ne_none] using hterminal, rfl⟩
    · rename_i hterminal
      have hnone : state.terminal = none := by simpa using hterminal
      split at h
      · cases h
        exact .inr (.inl ⟨hnone, rfl⟩)
      · cases h
        exact .inr (.inr ⟨hnone, rfl⟩)

theorem cancelWatch_eq_ok (h : cancelWatch id s = .ok response s') :
    s' = { s with watchers := s.watchers.erase id } := by
  simp only [cancelWatch, get_bind_apply] at h
  cases hfound : s.watchers[id]? with
  | none =>
    rw [hfound] at h
    cases h
  | some state =>
    rw [hfound] at h
    cases h
    rfl

/-! ## Every operation -/

theorem get_eq_ok {result : StoreRead} (h : get key s = .ok result s') : s' = s := by
  simp only [get, ofExcept_bind_eq_ok, get_bind_apply, pure_apply, Result.ok.injEq] at h
  obtain ⟨_, -, -, rfl⟩ := h
  rfl

theorem range_eq_ok {start stop : ByteSequence} {result : RangeRead}
    (h : range start stop s = .ok result s') : s' = s := by
  simp only [range, ofExcept_bind_eq_ok, EStateM.ite_apply, throw_bind_apply,
    EStateM.ite_error_eq_ok, get_bind_apply, pure_apply, Result.ok.injEq] at h
  obtain ⟨_, -, _, -, -, -, rfl⟩ := h
  rfl

theorem run_dataChange
    (h : operation.run s = .ok (reply, batch) s') (hdata : operation.watches = false) :
    DataChange s batch s' := by
  cases operation
  case createWatch | pollWatch | requestWatchProgress | cancelWatch => cases hdata
  all_goals
    obtain ⟨_, _, hrun, h⟩ := bind_eq_ok.mp h
    cases h
  case get =>
    rw [get_eq_ok hrun]
    exact DataChange.refl s
  case range =>
    rw [range_eq_ok hrun]
    exact DataChange.refl s
  case put => exact put_change hrun
  case erase => exact erase_change hrun
  case compareAndSet => exact compareAndSet_change hrun
  case transaction => exact transaction_change hrun
  case grantLease => exact grantLease_change hrun
  case keepAlive => exact keepAlive_change hrun
  case timeToLive =>
    rw [timeToLive_eq_ok hrun]
    exact DataChange.refl s
  case revokeLease => exact revokeLease_change hrun
  case expireLeases => exact expireLeases_change hrun

/-- What a call that returns has done, beside its reply. -/
inductive Change (s : InMemoryMetadataStore) : Option EventBatch → InMemoryMetadataStore → Prop
  | data {batch : Option EventBatch} {s' : InMemoryMetadataStore}
      (change : DataChange s batch s') : Change s batch s'
  | watching (watchers : WatchMap) : Change s none { s with watchers }

theorem Change.refl (s : InMemoryMetadataStore) : Change s none s := Change.watching s.watchers

/-- Every call that returns has made one of the listed changes. -/
theorem run_change (h : operation.run s = .ok (reply, batch) s') : Change s batch s' := by
  cases hdata : operation.watches with
  | false => exact Change.data (run_dataChange h hdata)
  | true =>
    cases operation <;> cases hdata
    all_goals
      obtain ⟨_, _, hrun, h⟩ := bind_eq_ok.mp h
      cases h
    · obtain ⟨_, _, -, -, rfl⟩ := createWatch_eq_ok hrun
      exact Change.watching _
    · obtain ⟨_, -, ⟨-, -, rfl⟩ | ⟨-, -, -, rfl⟩ | ⟨-, _, _, -, -, rfl⟩⟩ := pollWatch_eq_ok hrun
      · exact Change.watching _
      · exact Change.refl _
      · exact Change.watching _
    · obtain ⟨_, -, ⟨-, rfl⟩ | ⟨-, rfl⟩ | ⟨-, rfl⟩⟩ := requestWatchProgress_eq_ok hrun
      · exact Change.refl _
      · exact Change.watching _
      · exact Change.watching _
    · rw [cancelWatch_eq_ok hrun]
      exact Change.watching _

end InMemoryMetadataStore

theorem Call.change (call : Call) :
    InMemoryMetadataStore.Change call.before call.batch call.after := by
  obtain ⟨s, operation⟩ := call
  cases h : operation.run s with
  | ok result t =>
    obtain ⟨hafter, hbatch, -⟩ := Call.of_run_eq_ok h
    rw [hafter, hbatch]
    exact InMemoryMetadataStore.run_change h
  | error e t =>
    obtain ⟨hafter, hbatch, -⟩ := Call.of_run_eq_error h
    rw [hafter, hbatch, InMemoryMetadataStore.atomic_run operation s e t h]
    exact InMemoryMetadataStore.Change.refl s

theorem Run.induct {s t : InMemoryMetadataStore} {calls : List Call}
    {P : InMemoryMetadataStore → Prop} (run : Run s calls t) (init : P s)
    (step : ∀ call : Call, P call.before → P call.after) : P t := by
  induction run with
  | nil => exact init
  | snoc run operation ih => exact step ⟨_, operation⟩ ih

/-! ## What a transaction reports and writes

The reply of a transaction, the values it leaves, and what its comparisons have found, for
requests whose failure branch is empty. -/

namespace InMemoryMetadataStore

open EStateM Std

variable {values : ValueMap} {revision : Int} {working working' : Working}

/-! ## Comparisons -/

/-- When the comparisons hold together, each of them holds. -/
theorem evaluateComparison_of_mem {comparisons : List Compare}
    (h : evaluateComparisons values comparisons = .ok true) :
    ∀ comparison ∈ comparisons, evaluateComparison values comparison = .ok true := by
  unfold evaluateComparisons at h
  suffices hall : ∀ (comparisons : List Compare) (start : Bool),
      comparisons.foldlM (fun succeeded comparison =>
        return succeeded && (← evaluateComparison values comparison)) start = .ok true →
      start = true
        ∧ ∀ comparison ∈ comparisons, evaluateComparison values comparison = .ok true from
    (hall comparisons true h).2
  intro comparisons
  induction comparisons with
  | nil =>
    intro start h
    exact ⟨Except.pure_eq_ok.mp h, List.forall_mem_nil _⟩
  | cons comparison comparisons ih =>
    intro start h
    simp only [List.foldlM_cons, Except.bind_eq_ok, Except.pure_eq_ok] at h
    obtain ⟨_, ⟨held, hheld, rfl⟩, h⟩ := h
    obtain ⟨hboth, hrest⟩ := ih _ h
    obtain ⟨rfl, rfl⟩ := Bool.and_eq_true_iff.mp hboth
    exact ⟨rfl, List.forall_mem_cons.mpr ⟨hheld, hrest⟩⟩

/-- A numeric comparison for equality reads zero for an absent key. -/
theorem evaluateComparison_equal {target : CompareTarget} {expected : Int}
    (htarget : target ≠ .value)
    (h : evaluateComparison values ⟨key, target, .equal, .int64 expected⟩ = .ok true) :
    (values[key]?.map (numericField · target)).getD 0 = expected := by
  simp only [evaluateComparison, if_neg htarget, Except.bind_eq_ok, Except.pure_eq_ok,
    comparisonMatches, decide_eq_true_eq] at h
  obtain ⟨_, -, hequal⟩ := h
  exact hequal

/-- A comparison with the bytes of a value reads an absent key as empty. -/
theorem evaluateComparison_value_equal {key expected : ByteSequence}
    (h : evaluateComparison values ⟨key, .value, .equal, .bytes expected⟩ = .ok true) :
    (values[key]?.map (·.value)).getD [] = expected := by
  simp only [evaluateComparison, if_true, Except.bind_eq_ok, Except.pure_eq_ok, comparisonMatches,
    decide_eq_true_eq] at h
  obtain ⟨_, -, hequal⟩ := h
  exact hequal

/-! ## Values -/

theorem executeOperation_put_eq_ok {request : PutRequest}
    (h : executeOperation revision working (.put request) = .ok working') :
    working'.values = working.values.insert request.key
      (rebind working.values[request.key]? request.key request.value revision request.leaseId) := by
  simp only [executeOperation, Except.bind_eq_ok, Except.pure_eq_ok] at h
  obtain ⟨_, -, _, -, rfl⟩ := h
  rfl

theorem eraseEntries_values {entries : List (ByteSequence × KeyValue)}
    (h : eraseEntries revision working entries = .ok working') (key : ByteSequence) :
    working'.values[key]? = if key ∈ entries.map Prod.fst then none else working.values[key]? := by
  induction entries generalizing working with
  | nil =>
    obtain rfl : working = working' := Except.pure_eq_ok.mp h
    simp
  | cons entry entries ih =>
    simp only [eraseEntries, Except.bind_eq_ok] at h
    obtain ⟨_, -, h⟩ := h
    rw [ih h, ExtTreeMap.getElem?_erase_eq]
    by_cases hkey : entry.1 = key
    · simp [hkey]
    · have hmem : key ∈ (entry :: entries).map Prod.fst ↔ key ∈ entries.map Prod.fst := by
        rw [List.map_cons, List.mem_cons, or_iff_right (Ne.symm hkey)]
      rw [if_neg hkey, if_congr hmem rfl rfl]

/-- A delete erases the keys of its range. -/
theorem executeOperation_delete_eq_ok {request : DeleteRequest}
    (h : executeOperation revision working (.delete request) = .ok working') (key : ByteSequence) :
    working'.values[key]?
      = if request.range.containsKey key = true then none else working.values[key]? := by
  simp only [executeOperation, Except.bind_eq_ok, Except.pure_eq_ok] at h
  obtain ⟨erased, herased, rfl⟩ := h
  show erased.values[key]? = _
  rw [eraseEntries_values herased]
  have hmem : key ∈ (working.values.entriesIn request.range).map Prod.fst
      ↔ working.values[key]? ≠ none ∧ request.range.containsKey key = true := by
    rw [List.mem_map]
    constructor
    · rintro ⟨entry, hentry, rfl⟩
      obtain ⟨hvalue, hrange⟩ := ValueMap.mem_entriesIn.mp hentry
      exact ⟨by simp [hvalue], hrange⟩
    · rintro ⟨hbound, hrange⟩
      obtain ⟨value, hvalue⟩ := Option.ne_none_iff_exists'.mp hbound
      exact ⟨(key, value), ValueMap.mem_entriesIn.mpr ⟨hvalue, hrange⟩, rfl⟩
  by_cases hrange : request.range.containsKey key = true
  · by_cases hbound : working.values[key]? = none
    · simp [hrange, hbound]
    · rw [if_pos (hmem.mpr ⟨hbound, hrange⟩), if_pos hrange]
  · rw [if_neg fun h => hrange (hmem.mp h).2, if_neg hrange]

/-! ## The reply -/

/-- What a transaction reports and leaves is what its plan says. -/
theorem transaction_eq_ok
    {result : TransactionResult × Option EventBatch} (h : transaction request s = .ok result s') :
    ∃ plan, s.planTransaction request = .ok plan ∧ result.1.succeeded = plan.succeeded
      ∧ result.1.header.revision = plan.revision ∧ s'.values = plan.working.values := by
  simp only [transaction, get_bind_apply, ofExcept_bind_eq_ok, modify_bind_apply] at h
  obtain ⟨plan, hplan, h⟩ := h
  refine ⟨plan, hplan, ?_⟩
  generalize hpublication : (if plan.hasEffectiveMutation = true
    then some (EventBatch.mk plan.revision plan.working.events) else none).map
      s.stageWatchPublication = publication at h
  cases publication with
  | none =>
    rw [commitStaged_none_bind_apply] at h
    cases h
    exact ⟨rfl, rfl, rfl⟩
  | some publication =>
    rw [commitStaged_some_bind_apply] at h
    cases h
    exact ⟨rfl, rfl, rfl⟩

/-- A transaction without failure branch: it takes the success branch, with all comparisons and
ownerships holding, or it leaves the values alone. -/
theorem planTransaction_branch
    (h : s.planTransaction request = .ok plan) (hfailure : request.failure = []) :
    (plan.succeeded = true
        ∧ (∀ comparison ∈ request.comparisons, evaluateComparison s.values comparison = .ok true)
        ∧ ∃ verified footprint,
            request.success.foldlM (validateOperation s.values verified) {} = .ok footprint
            ∧ (footprint.hasEffectiveMutation = true → plan.revision = s.revision + 1)
            ∧ request.success.foldlM (executeOperation plan.revision)
                { values := s.values, leases := s.leases } = .ok plan.working)
      ∨ plan.succeeded = false ∧ plan.working.values = s.values := by
  simp only [planTransaction, Except.bind_eq_ok, Except.pure_eq_ok] at h
  obtain ⟨hold, hhold, _, -, verified, -, footprint, hvalid, revision, hrevision, working, hwork,
    rfl⟩ := h
  dsimp only
  cases hsucceeded : hold && request.leaseOwnership.all
    (ownershipMatches s.leases request.leaseTick)
  with
  | true =>
    obtain ⟨rfl, -⟩ := Bool.and_eq_true_iff.mp hsucceeded
    rw [hsucceeded] at hvalid hwork
    refine .inl ⟨rfl, evaluateComparison_of_mem hhold, verified, footprint, hvalid, ?_, hwork⟩
    intro heffective
    rw [if_pos heffective, nextRevision_eq_ok] at hrevision
    exact hrevision.2.symm
  | false =>
    rw [hsucceeded, if_neg Bool.false_ne_true, hfailure] at hwork
    obtain rfl := Except.pure_eq_ok.mp hwork
    exact .inr ⟨rfl, rfl⟩

end InMemoryMetadataStore

end KuraMetadata
