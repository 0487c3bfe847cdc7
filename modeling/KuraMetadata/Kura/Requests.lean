import KuraMetadata.Kura.Sites
import KuraMetadata.Store.Fencing

/-! # What the calls do to the store

A claim, a publication, a registration and a collection are one transaction each. For each of
them: what the store held if it succeeded, and the values it has left. Every other call leaves
the values alone, but for the removal of a lease. -/

namespace KuraMetadata.Kura

open EStateM Std InMemoryMetadataStore

variable {s s' : InMemoryMetadataStore} {initial : Int} {session : LeaseSession}
variable {result : TransactionResult × Option EventBatch}
variable {encoded snapshotId root key : ByteSequence} {tick : Nat} {α : Type}

/-- The session's lease generation is there and has not expired at the tick. -/
def Live (s : InMemoryMetadataStore) (session : LeaseSession) (tick : Nat) : Prop :=
  ∃ lease, s.leases[session.id]? = some lease ∧ lease.fencingToken = session.token
    ∧ tick < lease.expiryTick

theorem Live.id_ne_zero (wf : WellFormed initial s) (h : Live s session tick) : session.id ≠ 0 := by
  obtain ⟨lease, hlease, -⟩ := h
  intro hzero
  rw [hzero, wf.index.positive] at hlease
  cases hlease

/-! ## Claims -/

theorem claim_eq_ok (wf : WellFormed initial s)
    (h : transaction { claimRequest root session with leaseTick := tick } s = .ok result s') :
    (result.1.succeeded = true ∧ Live s session tick ∧ s.values[writerKey root]? = none
        ∧ ∃ value : KeyValue, value.leaseId = session.id
          ∧ s'.values = s.values.insert (writerKey root) value)
      ∨ result.1.succeeded = false ∧ s'.values = s.values := by
  obtain ⟨plan, hplan, hsucceeded, -, hvalues⟩ := transaction_eq_ok h
  rw [hsucceeded, hvalues]
  rcases planTransaction_branch hplan rfl with ⟨htrue, hcompared, _, _, -, -, hwork⟩ | hfalse
  swap
  · exact .inr hfalse
  refine .inl ⟨htrue, (planTransaction_owned hplan htrue List.mem_cons_self).2, ?_, ?_⟩
  · have hversion := evaluateComparison_equal (by decide) (hcompared _ List.mem_cons_self)
    cases hwriter : s.values[writerKey root]? with
    | none => rfl
    | some value =>
      rw [hwriter] at hversion
      have hpositive := (wf.dated hwriter).2.version
      have hzero : value.version = 0 := hversion
      omega
  · simp only [claimRequest, List.foldlM_cons, List.foldlM_nil, Except.bind_eq_ok,
      Except.pure_eq_ok] at hwork
    obtain ⟨working, hput, rfl⟩ := hwork
    exact ⟨_, rfl, executeOperation_put_eq_ok hput⟩

/-! ## Publications -/

/-- A publication: it succeeds with both comparisons and the ownership holding, or it leaves the
values alone. -/
theorem publish_branch {guard : WriterGuard} {expectedRevision : Int} (h : transaction
      { publishRequest guard expectedRevision snapshotId encoded with leaseTick := tick } s
        = .ok result s') :
    (result.1.succeeded = true ∧ Live s guard.lease tick
        ∧ (s.values[currentKey guard.tablePrefix]?.map (·.modRevision)).getD 0 = expectedRevision
        ∧ (s.values[writerKey guard.tablePrefix]?.map (·.leaseId)).getD 0 = guard.lease.id
        ∧ result.1.header.revision = s.revision + 1
        ∧ ∃ current snapshot : KeyValue,
            s'.values = (s.values.insert (currentKey guard.tablePrefix) current).insert
              (snapshotKey guard.tablePrefix snapshotId) snapshot
            ∧ current.value = encoded ∧ current.leaseId = 0
            ∧ current.modRevision = s.revision + 1 ∧ snapshot.value = encoded
            ∧ snapshot.leaseId = 0)
      ∨ result.1.succeeded = false ∧ s'.values = s.values := by
  obtain ⟨plan, hplan, hsucceeded, hheader, hvalues⟩ := transaction_eq_ok h
  rw [hsucceeded, hheader, hvalues]
  rcases planTransaction_branch hplan rfl with
    ⟨htrue, hcompared, verified, footprint, hvalid, hrevision, hwork⟩ | hfalse
  swap
  · exact .inr hfalse
  have hlive : Live s guard.lease tick := (planTransaction_owned hplan htrue List.mem_cons_self).2
  have hcurrent := evaluateComparison_equal (by decide) (hcompared _ List.mem_cons_self)
  have hwriter := evaluateComparison_equal (by decide)
    (hcompared _ (List.mem_cons_of_mem _ List.mem_cons_self))
  simp only [publishRequest, List.foldlM_cons, List.foldlM_nil, Except.bind_eq_ok,
    Except.pure_eq_ok] at hvalid hwork
  obtain ⟨between, -, last, hlast, rfl⟩ := hvalid
  obtain ⟨-, -, -, -, -, -, hfootprint⟩ := validateOperation_put_eq_ok.mp hlast
  have hnext : plan.revision = s.revision + 1 := hrevision (by rw [← hfootprint])
  obtain ⟨middle, hput, working, hput', rfl⟩ := hwork
  have hvalues := executeOperation_put_eq_ok hput'
  rw [executeOperation_put_eq_ok hput] at hvalues
  exact .inl ⟨htrue, hlive, hcurrent, hwriter, hnext, _, _, hvalues, rfl, rfl, hnext, rfl, rfl⟩

/-- A live lease is not the id 0 that stands for none, so a key compared equal to it is there. -/
theorem exists_leased (wf : WellFormed initial s)
    (hlive : Live s session tick) (h : (s.values[key]?.map (·.leaseId)).getD 0 = session.id) :
    ∃ value, s.values[key]? = some value ∧ value.leaseId = session.id := by
  cases hfound : s.values[key]? with
  | none =>
    rw [hfound] at h
    exact absurd h.symm (hlive.id_ne_zero wf)
  | some value =>
    rw [hfound] at h
    exact ⟨value, rfl, h⟩

/-! ## Registrations -/

theorem register_eq_ok {readerId : ByteSequence} (hencoded : encoded ≠ []) (h : transaction
      { registerRequest root readerId session snapshotId encoded with leaseTick := tick } s
        = .ok result s') :
    (result.1.succeeded = true ∧ Live s session tick
        ∧ (∃ snapshot, s.values[snapshotKey root snapshotId]? = some snapshot
            ∧ snapshot.value = encoded)
        ∧ ∃ reader : KeyValue, reader.value = snapshotId ∧ reader.leaseId = session.id
          ∧ s'.values = s.values.insert (readerKey root readerId) reader)
      ∨ result.1.succeeded = false ∧ s'.values = s.values := by
  obtain ⟨plan, hplan, hsucceeded, -, hvalues⟩ := transaction_eq_ok h
  rw [hsucceeded, hvalues]
  rcases planTransaction_branch hplan rfl with ⟨htrue, hcompared, _, _, -, -, hwork⟩ | hfalse
  swap
  · exact .inr hfalse
  refine .inl ⟨htrue, (planTransaction_owned hplan htrue List.mem_cons_self).2, ?_, ?_⟩
  · have hvalue := evaluateComparison_value_equal (hcompared _ List.mem_cons_self)
    cases hfound : s.values[snapshotKey root snapshotId]? with
    | none =>
      rw [hfound] at hvalue
      exact absurd hvalue.symm hencoded
    | some snapshot =>
      rw [hfound] at hvalue
      exact ⟨snapshot, rfl, hvalue⟩
  · simp only [registerRequest, List.foldlM_cons, List.foldlM_nil, Except.bind_eq_ok,
      Except.pure_eq_ok] at hwork
    obtain ⟨working, hput, rfl⟩ := hwork
    exact ⟨_, rfl, rfl, executeOperation_put_eq_ok hput⟩

/-! ## Collections -/

theorem ofStore_eq_ok {x : StoreM α} {a : α} (h : ofStore x s = .ok a s') : x s = .ok a s' := by
  unfold ofStore at h
  split at h
  · cases h
    assumption
  · cases h

theorem get_read {read : StoreRead} (h : get key s = .ok read s') :
    s' = s ∧ read = { value := s.values[key]?, revision := s.revision } := by
  simp only [InMemoryMetadataStore.get, ofExcept_bind_eq_ok, get_bind_apply, pure_apply,
    Result.ok.injEq] at h
  obtain ⟨_, -, rfl, rfl⟩ := h
  exact ⟨rfl, rfl⟩

theorem range_read {start stop : ByteSequence} {read : RangeRead}
    (h : range start stop s = .ok read s') :
    s' = s ∧ read = { values := (s.values.entriesIn ⟨start, stop⟩).map Prod.snd,
                      revision := s.revision } := by
  simp only [range, ofExcept_bind_eq_ok, EStateM.ite_apply, throw_bind_apply,
    EStateM.ite_error_eq_ok, get_bind_apply, pure_apply, Result.ok.injEq] at h
  obtain ⟨_, -, _, -, -, rfl, rfl⟩ := h
  exact ⟨rfl, rfl⟩

theorem collectTransaction_eq_ok {modRevision : Int}
    (h : transaction (collectRequest key modRevision tick) s = .ok result s') :
    s'.values = s.values
      ∨ ∀ other, s'.values[other]? = if other = key then none else s.values[other]? := by
  obtain ⟨plan, hplan, -, -, hvalues⟩ := transaction_eq_ok h
  rw [hvalues]
  rcases planTransaction_branch hplan rfl with ⟨-, -, _, _, -, -, hwork⟩ | ⟨-, hsame⟩
  swap
  · exact .inl hsame
  simp only [collectRequest, List.foldlM_cons, List.foldlM_nil, Except.bind_eq_ok,
    Except.pure_eq_ok] at hwork
  obtain ⟨working, hdelete, rfl⟩ := hwork
  refine .inr fun other => ?_
  rw [executeOperation_delete_eq_ok hdelete other]
  exact if_congr (containsKey_exact key other) rfl rfl

/-- The snapshot is not the current one and no reader has registered it. -/
structure Unreferenced (s : InMemoryMetadataStore)
    (currentKey readersStart readersEnd snapshotId : ByteSequence) : Prop where
  current : ∀ {value : KeyValue}, s.values[currentKey]? = some value →
    ∃ pointer, decodePointer value.value = .ok pointer ∧ pointer.snapshotId ≠ snapshotId
  readers : ∀ {key : ByteSequence} {value : KeyValue}, s.values[key]? = some value →
    KeyRange.containsKey ⟨readersStart, readersEnd⟩ key = true → value.value ≠ snapshotId

/-- A collection deletes the snapshot's key only if nothing refers to it. -/
theorem collectSnapshotIfUnreferenced_eq_ok
    {currentKey snapshotKey readersStart readersEnd : ByteSequence} {collected : Bool}
    (h : collectSnapshotIfUnreferenced currentKey snapshotKey readersStart readersEnd snapshotId
      tick s = .ok collected s') :
    s' = s ∨ Unreferenced s currentKey readersStart readersEnd snapshotId ∧ ∃ modRevision result,
            transaction (collectRequest snapshotKey modRevision tick) s = .ok result s' := by
  obtain ⟨current, t, hcurrent, h⟩ := bind_eq_ok.mp h
  obtain ⟨rfl, rfl⟩ := get_read (ofStore_eq_ok hcurrent)
  simp only [ofExcept_bind_eq_ok] at h
  obtain ⟨points, hpoints, h⟩ := h
  cases points with
  | true =>
    cases h
    exact .inl rfl
  | false =>
    simp only [Bool.false_eq_true, if_false] at h
    obtain ⟨readers, t, hreaders, h⟩ := bind_eq_ok.mp h
    obtain ⟨rfl, rfl⟩ := range_read (ofStore_eq_ok hreaders)
    by_cases hany : ((t.values.entriesIn ⟨readersStart, readersEnd⟩).map Prod.snd).any
        (·.value = snapshotId) = true
    · simp only [hany, if_true] at h
      cases h
      exact .inl rfl
    · simp only [hany, Bool.false_eq_true, if_false] at h
      obtain ⟨snapshot, t, hsnapshot, h⟩ := bind_eq_ok.mp h
      obtain ⟨rfl, rfl⟩ := get_read (ofStore_eq_ok hsnapshot)
      cases hfound : t.values[snapshotKey]? with
      | none =>
        simp only [hfound] at h
        cases h
        exact .inl rfl
      | some value =>
        simp only [hfound] at h
        obtain ⟨result, t', hresult, h⟩ := bind_eq_ok.mp h
        cases h
        refine .inr ⟨⟨?_, ?_⟩, value.modRevision, result, ofStore_eq_ok hresult⟩
        · intro current hcurrent
          rw [hcurrent] at hpoints
          simp only [pointsTo, Except.bind_eq_ok, Except.pure_eq_ok, decide_eq_false_iff_not]
            at hpoints
          exact hpoints
        · intro key reader hreader hrange hvalue
          refine hany (List.any_eq_true.mpr ⟨reader, ?_, by simpa using hvalue⟩)
          exact List.mem_map.mpr ⟨(key, reader), ValueMap.mem_entriesIn.mpr ⟨hreader, hrange⟩, rfl⟩

/-! ## Leases that are removed -/

/-- The values attached to the leases are gone, and all others are left. -/
def Released (ids : List Int) (s s' : InMemoryMetadataStore) : Prop :=
  0 ∉ ids ∧ ∀ {key : ByteSequence} {value : KeyValue},
    s'.values[key]? = some value ↔ s.values[key]? = some value ∧ value.leaseId ∉ ids

theorem Released.of_values_eq (h : s'.values = s.values) : Released [] s s' := by
  refine ⟨List.not_mem_nil, fun {key value} => ?_⟩
  rw [h]
  simp

theorem removeLeases_released {ids : List Int} {code : LeaseResultCode}
    {result : LeaseCleanupResult × Option EventBatch} (wf : WellFormed initial s)
    (h : removeLeases ids code s = .ok result s') : Released ids s s' := by
  obtain ⟨-, -, ⟨rfl, -, rfl⟩ | ⟨-, attached, -, hattached, -, rfl⟩⟩ := removeLeases_eq_ok h
  · exact Released.of_values_eq rfl
  refine ⟨fun hzero => ?_, getElem?_cleaned_eq_some wf.index hattached⟩
  obtain ⟨_, -, hfound⟩ := Except.exists_mem_of_mapM hattached hzero
  unfold attachedValues at hfound
  rw [wf.index.positive] at hfound
  cases hfound

theorem revokeLease_released {request : LeaseRevokeRequest}
    {result : LeaseCleanupResult × Option EventBatch} (wf : WellFormed initial s)
    (h : revokeLease request s = .ok result s') :
    ∃ ids, Released ids s s' ∧ ∀ id ∈ ids, id = request.id
      ∧ ∃ lease, s.leases[id]? = some lease ∧ lease.fencingToken = request.fencingToken := by
  obtain ⟨-, ⟨lease, t, hlease, htoken, hremove, rfl⟩ | ⟨-, -, rfl⟩⟩ := revokeLease_eq_ok h
  · have hreleased := removeLeases_released wf hremove
    refine ⟨[request.id], hreleased, fun id hid => ?_⟩
    obtain rfl := List.mem_singleton.mp hid
    exact ⟨rfl, lease, hlease, htoken⟩
  · exact ⟨[], Released.of_values_eq rfl, List.forall_mem_nil _⟩

theorem expireLeases_released {result : LeaseCleanupResult × Option EventBatch}
    (wf : WellFormed initial s) (h : expireLeases tick s = .ok result s') :
    ∃ ids, Released ids s s' := by
  obtain ⟨-, t, hremove, rfl⟩ := expireLeases_eq_ok h
  have hreleased := removeLeases_released wf hremove
  exact ⟨_, hreleased⟩

/-! ## Answers -/

variable {w : World} {request : Request}

theorem onStore_world (w : World) (x : EStateM ClientException InMemoryMetadataStore α) :
    (w.onStore x).2 = { w with store := (x w.store).state } := by
  unfold World.onStore
  cases x w.store with
  | ok a s | error e s => rfl

theorem onStore_store (w : World) (x : EStateM ClientException InMemoryMetadataStore α) :
    (w.onStore x).2.store = (x w.store).state :=
  congrArg World.store (onStore_world w x)

theorem ofStore_state (x : StoreM α) (s : InMemoryMetadataStore) :
    (ofStore x s).state = (x s).state := by
  unfold ofStore
  cases x s with
  | ok a s | error e s => rfl

theorem collectSnapshotIfUnreferenced_atomic
    (currentKey snapshotKey readersStart readersEnd snapshotId : ByteSequence) (tick : Nat) :
    Atomic (Kura.collectSnapshotIfUnreferenced currentKey snapshotKey readersStart readersEnd
      snapshotId tick) := by
  have hget : ∀ key, ReadOnly (ofStore (InMemoryMetadataStore.get key)) := by
    intro key s
    rw [ofStore_state]
    exact (atomic_get key).state_induct (fun _ _ h => get_eq_ok h) rfl
  have hrange : ReadOnly (ofStore (range readersStart readersEnd)) := by
    intro s
    rw [ofStore_state]
    exact (atomic_range _ _).state_induct (fun _ _ h => range_eq_ok h) rfl
  have htransaction : ∀ request, Atomic (ofStore (transaction request)) := by
    intro request s e t h
    have hstate := ofStore_state (transaction request) s
    rw [h] at hstate
    cases hrun : transaction request s with
    | ok result u =>
      unfold ofStore at h
      rw [hrun] at h
      cases h
    | error e' u =>
      rw [hrun] at hstate
      rw [show t = u from hstate]
      exact atomic_transaction request s e' u hrun
  refine (hget currentKey).bind_atomic fun current => ?_
  refine (readOnly_ofExcept _).bind_atomic fun points => Atomic.ite (returns_pure _).atomic ?_
  refine hrange.bind_atomic fun readers => Atomic.ite (returns_pure _).atomic ?_
  refine (hget snapshotKey).bind_atomic fun snapshot => ?_
  cases snapshot.value with
  | none => exact (returns_pure _).atomic
  | some value => exact (htransaction _).bind_returns fun _ => returns_pure _

/-- The operation of the store that a call runs. -/
def Request.operation (tick : Nat) : Request → Option Operation
  | .get key => some (.get key)
  | .transaction _ request => some (.transaction { request with leaseTick := tick })
  | .grantLease ttl => some (.grantLease { ttl, tick })
  | .keepAlive id token => some (.keepAlive { id, fencingToken := token, tick })
  | .revokeLease id token => some (.revokeLease { id, fencingToken := token, tick })
  | .createWatch _ request => some (.createWatch request)
  | .pollWatch id => some (.pollWatch id)
  | .cancelWatch id => some (.cancelWatch id)
  | _ => none

/-- A call that is an operation of the store leaves the store as that operation does. -/
theorem answer_store_of_operation {operation : Operation}
    (h : request.operation tick = some operation) :
    (w.answer tick request).2.store = (Call.mk w.store operation).after := by
  have hrun : ∀ {α : Type} (x : StoreM α) (f : α → Reply × Option EventBatch),
      ((x >>= fun a => pure (f a)) w.store).state = (x w.store).state := by
    intro α x f
    exact state_bind_pure x f w.store
  cases request
  case createWatch client request =>
    cases h
    show (w.createWatch client request).2.store = _
    unfold Call.after Call.outcome Operation.run
    rw [hrun]
    unfold World.createWatch
    cases InMemoryMetadataStore.createWatch request w.store with
    | ok response s | error e s => rfl
  case cancelWatch id =>
    cases h
    unfold Call.after Call.outcome Operation.run
    rw [hrun]
    rfl
  case transaction client request =>
    cases h
    unfold Call.after Call.outcome Operation.run
    rw [hrun]
    refine (onStore_store _ _).trans ((ofStore_state _ _).trans ?_)
    exact state_bind_pure _ _ _
  case revokeLease id token =>
    cases h
    unfold Call.after Call.outcome Operation.run
    rw [hrun]
    refine (onStore_store _ _).trans ((ofStore_state _ _).trans ?_)
    exact state_bind_pure _ _ _
  case get | grantLease | keepAlive | pollWatch =>
    cases h
    unfold Call.after Call.outcome Operation.run
    rw [hrun]
    exact (onStore_store _ _).trans (ofStore_state _ _)
  all_goals cases h

theorem answer_change (w : World) (tick : Nat) (request : Request) :
    ∃ batch, Change w.store batch (w.answer tick request).2.store := by
  cases hoperation : request.operation tick with
  | some operation =>
    rw [answer_store_of_operation hoperation]
    exact ⟨_, Call.change ⟨w.store, operation⟩⟩
  | none =>
    cases request
    case collectSnapshotIfUnreferenced currentKey snapshotKey readersStart readersEnd id =>
      have hstore := onStore_store w
        (Kura.collectSnapshotIfUnreferenced currentKey snapshotKey readersStart readersEnd id tick)
      refine hstore ▸ ?_
      refine (collectSnapshotIfUnreferenced_atomic _ _ _ _ _ _).state_induct
        (P := fun t => ∃ batch, Change w.store batch t) (fun collected t h => ?_)
        ⟨none, Change.refl _⟩
      rcases collectSnapshotIfUnreferenced_eq_ok h with rfl | ⟨-, _, result, hresult⟩
      · exact ⟨none, Change.refl _⟩
      · exact ⟨_, Change.data (transaction_change hresult)⟩
    case exchangeClosed token =>
      refine ⟨none, ?_⟩
      show Change w.store none (w.exchangeClosed token).2.store
      unfold World.exchangeClosed
      split <;> exact Change.refl _
    case takeSequence | takeWatchId | loadActive | clearActive => exact ⟨none, Change.refl _⟩
    all_goals cases hoperation

theorem answer_values (h : request.writes = false) :
    (w.answer tick request).2.store.values = w.store.values := by
  have hstore : ∀ {α : Type} {x : StoreM α}, Atomic x →
      (∀ a t, x w.store = .ok a t → t.values = w.store.values) →
      (x w.store).state.values = w.store.values := fun hx hok =>
    hx.state_induct (P := fun t => t.values = w.store.values) hok rfl
  have honStore : ∀ {α : Type} (x : StoreM α),
      (w.onStore (ofStore x)).2.store = (x w.store).state := fun x =>
    (onStore_store w (ofStore x)).trans (ofStore_state x w.store)
  cases request
  case get key =>
    refine (congrArg _ (honStore _)).trans (hstore (atomic_get key) fun _ _ h => ?_)
    rw [get_eq_ok h]
  case grantLease ttl =>
    refine (congrArg _ (honStore _)).trans (hstore (atomic_grantLease _) fun _ _ h => ?_)
    obtain ⟨_, -, -, -, -, -, -, -, rfl⟩ := grantLease_eq_ok h
    rfl
  case keepAlive id token =>
    refine (congrArg _ (honStore _)).trans (hstore (atomic_keepAlive _) fun _ _ h => ?_)
    obtain ⟨-, ⟨_, -, -, -, -, rfl⟩ | ⟨-, rfl⟩⟩ := keepAlive_eq_ok h <;> rfl
  case createWatch client request =>
    rw [answer_store_of_operation rfl]
    unfold Call.after Call.outcome Operation.run
    rw [state_bind_pure]
    refine hstore (atomic_createWatch request) fun _ _ h => ?_
    obtain ⟨_, _, -, -, rfl⟩ := createWatch_eq_ok h
    rfl
  case pollWatch id =>
    refine (congrArg _ (honStore _)).trans (hstore (atomic_pollWatch id) fun _ _ h => ?_)
    obtain ⟨_, -, ⟨-, -, rfl⟩ | ⟨-, -, -, rfl⟩ | ⟨-, _, _, -, -, rfl⟩⟩ := pollWatch_eq_ok h <;> rfl
  case cancelWatch id =>
    refine hstore (atomic_cancelWatch id) fun _ _ h => ?_
    rw [cancelWatch_eq_ok h]
  case exchangeClosed token =>
    show (w.exchangeClosed token).2.store.values = _
    unfold World.exchangeClosed
    split <;> rfl
  case takeSequence | takeWatchId | loadActive | clearActive => rfl
  all_goals cases h

theorem answer_transaction (w : World) (tick client : Nat) (request : TransactionRequest) :
    (∃ result s, transaction { request with leaseTick := tick } w.store = .ok result s
        ∧ (w.answer tick (.transaction client request)).1 = .ok result.1
        ∧ (w.answer tick (.transaction client request)).2.store = s)
      ∨ (∃ e, (w.answer tick (.transaction client request)).1 = .error e)
        ∧ (w.answer tick (.transaction client request)).2.store = w.store := by
  cases hrun : transaction { request with leaseTick := tick } w.store with
  | ok result s =>
    refine .inl ⟨result, s, rfl, ?_⟩
    have hmap : (do return (← transaction { request with leaseTick := tick }).1 : StoreM _) w.store
        = .ok result.1 s := bind_apply_of_ok hrun
    unfold World.answer World.onStore ofStore
    dsimp only
    rw [hmap]
    exact ⟨rfl, rfl⟩
  | error e s =>
    refine .inr ⟨⟨.standard e, ?_⟩, ?_⟩
    · have hmap : (do return (← transaction { request with leaseTick := tick }).1 : StoreM _)
          w.store = .error e s := bind_apply_of_error hrun
      unfold World.answer World.onStore ofStore
      dsimp only
      rw [hmap]
    · rw [answer_store_of_operation rfl]
      unfold Call.after Call.outcome Operation.run
      rw [state_bind_pure, hrun]
      exact atomic_transaction _ _ _ _ hrun

end KuraMetadata.Kura
