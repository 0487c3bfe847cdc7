import KuraMetadata.Library.Calls
import KuraMetadata.Kura.Keys

/-! # The Kura client

The operations of `KuraClient` and of the guards it hands out, as programs that call a backend.
Each call is one step, so other clients may act between two of them. What a client or a lease
session keeps for itself (the sequence and watch counters, the two flags of a session) is read
and changed by calls too, since the operations of one client may overlap. -/

namespace KuraMetadata.Kura

/-! ## The backend -/

/-- The calls a client's operation makes. A transaction names the client because its request id
takes one of the client's sequence numbers, and a watch because it is the client's. -/
inductive Request where
  | get (key : ByteSequence)
  | transaction (client : Nat) (request : TransactionRequest)
  | grantLease (ttl : Nat)
  | keepAlive (id : Int) (token : Nat)
  | revokeLease (id : Int) (token : Nat)
  | createWatch (client : Nat) (request : WatchRequest)
  | pollWatch (id : Int)
  | cancelWatch (id : Int)
  | collectSnapshotIfUnreferenced
      (currentKey snapshotKey readersStart readersEnd snapshotId : ByteSequence)
  /-- `next_sequence_++` -/
  | takeSequence (client : Nat)
  /-- `next_watch_id_++` -/
  | takeWatchId (client : Nat)
  /-- `active.load()` of the session with the token -/
  | loadActive (token : Nat)
  /-- `active.store(false)` -/
  | clearActive (token : Nat)
  /-- `closed.exchange(true)`, and `active.store(false)` if it was not closed -/
  | exchangeClosed (token : Nat)
  deriving DecidableEq

/-- What the calls return. -/
def Answer : Request → Type
  | .get _ => StoreRead
  | .transaction _ _ => TransactionResult
  | .grantLease _ => LeaseGrantResult
  | .keepAlive _ _ => LeaseLookupResult
  | .revokeLease _ _ => LeaseCleanupResult
  | .createWatch _ _ => WatchResponse
  | .pollWatch _ => Option WatchResponse
  | .cancelWatch _ => Unit
  | .collectSnapshotIfUnreferenced _ _ _ _ _ => Bool
  | .takeSequence _ => Nat
  | .takeWatchId _ => Int
  | .loadActive _ => Bool
  | .clearActive _ => Unit
  | .exchangeClosed _ => Bool

/-- The programs of the client. -/
abbrev Program := Calls Request Answer ClientException

namespace Backend

def get (key : ByteSequence) : Program StoreRead := Calls.perform (Request.get key)

def transaction (client : Nat) (request : TransactionRequest) : Program TransactionResult :=
  Calls.perform (Request.transaction client request)

def grantLease (ttl : Nat) : Program LeaseGrantResult := Calls.perform (Request.grantLease ttl)

def keepAlive (id : Int) (token : Nat) : Program LeaseLookupResult :=
  Calls.perform (Request.keepAlive id token)

def revokeLease (id : Int) (token : Nat) : Program LeaseCleanupResult :=
  Calls.perform (Request.revokeLease id token)

def createWatch (client : Nat) (request : WatchRequest) : Program WatchResponse :=
  Calls.perform (Request.createWatch client request)

def pollWatch (id : Int) : Program (Option WatchResponse) := Calls.perform (Request.pollWatch id)

def cancelWatch (id : Int) : Program Unit := Calls.perform (Request.cancelWatch id)

def collectSnapshotIfUnreferenced
    (currentKey snapshotKey readersStart readersEnd snapshotId : ByteSequence) : Program Bool :=
  Calls.perform
    (Request.collectSnapshotIfUnreferenced currentKey snapshotKey readersStart readersEnd
      snapshotId)

end Backend

def takeSequence (client : Nat) : Program Nat := Calls.perform (Request.takeSequence client)

def takeWatchId (client : Nat) : Program Int := Calls.perform (Request.takeWatchId client)

/-! ## Guards -/

/-- `LeaseSession`: the lease generation; its flags are kept under the token. -/
structure LeaseSession where
  id : Int
  token : Nat
  deriving DecidableEq, Repr

structure WriterGuard where
  lease : LeaseSession
  tablePrefix : ByteSequence
  observedRevision : Int
  deriving DecidableEq, Repr

structure ReaderGuard where
  lease : LeaseSession
  readerId : ByteSequence
  snapshot : SnapshotPointer
  deriving DecidableEq, Repr

namespace LeaseSession

def loadActive (session : LeaseSession) : Program Bool :=
  Calls.perform (Request.loadActive session.token)

def clearActive (session : LeaseSession) : Program Unit :=
  Calls.perform (Request.clearActive session.token)

def exchangeClosed (session : LeaseSession) : Program Bool :=
  Calls.perform (Request.exchangeClosed session.token)

/-- `keep_alive`, which the session's own thread calls too. -/
def keepAlive (session : LeaseSession) : Program Bool := do
  if !(← session.loadActive) then return false
  tryCatch
    (do
      let result ← Backend.keepAlive session.id session.token
      if result.code ≠ .ok then session.clearActive)
    fun _ => session.clearActive
  session.loadActive

/-- `close`, which the destructor calls too. -/
def close (session : LeaseSession) : Program Unit := do
  if ← session.exchangeClosed then return
  tryCatch (do let _ ← Backend.revokeLease session.id session.token) fun _ => pure ()

end LeaseSession

/-! ## Requests -/

def numericCompare (key : ByteSequence) (target : CompareTarget) (result : CompareResult)
    (expected : Int) : Compare :=
  { key, target, result, expected := .int64 expected }

/-- `std::to_string`. -/
def decimal (value : Nat) : ByteSequence := ascii (Nat.toDigits 10 value)

def signedDecimal : Int → ByteSequence
  | .ofNat value => decimal value
  | .negSucc value => ascii ['-'] ++ decimal (value + 1)

/-- The transaction with which a writer takes the table's writer key. -/
def claimRequest (root : ByteSequence) (session : LeaseSession) : TransactionRequest :=
  { comparisons := [numericCompare (writerKey root) .version .equal 0]
    leaseOwnership := [⟨session.id, session.token⟩]
    success := [.put
      { key := writerKey root
        value := signedDecimal session.id ++ (ascii [':'] ++ decimal session.token)
        leaseId := session.id }] }

/-- The transaction that publishes a snapshot. -/
def publishRequest (guard : WriterGuard) (expectedRevision : Int)
    (snapshotId encoded : ByteSequence) :
    TransactionRequest :=
  { comparisons :=
      [numericCompare (currentKey guard.tablePrefix) .modRevision .equal expectedRevision,
       numericCompare (writerKey guard.tablePrefix) .leaseId .equal guard.lease.id]
    leaseOwnership := [⟨guard.lease.id, guard.lease.token⟩]
    success :=
      [.put { key := currentKey guard.tablePrefix, value := encoded },
       .put { key := snapshotKey guard.tablePrefix snapshotId, value := encoded }] }

/-- The transaction that registers a reader of a snapshot. -/
def registerRequest (root readerId : ByteSequence) (session : LeaseSession)
    (snapshotId encoded : ByteSequence) : TransactionRequest :=
  { comparisons :=
      [{ key := snapshotKey root snapshotId, target := .value, result := .equal,
         expected := .bytes encoded }]
    leaseOwnership := [⟨session.id, session.token⟩]
    success := [.put
      { key := readerKey root readerId, value := snapshotId, leaseId := session.id }] }

/-! ## Operations -/

/-- The session of a granted lease. -/
def sessionOf (granted : LeaseGrantResult) : LeaseSession :=
  ⟨granted.lease.id, granted.lease.fencingToken⟩

/-- The revision at which a read has found its key modified last. -/
def readRevision (read : StoreRead) : Int := (read.value.map (·.modRevision)).getD 0

/-- The part of `acquire_writer` from its claim on. -/
def claimWriter (client : Nat) (root : ByteSequence) (current : StoreRead)
    (session : LeaseSession) : Program WriterGuard := do
  let claim ← Backend.transaction client (claimRequest root session)
  if !claim.succeeded then
    let _ ← Backend.revokeLease session.id session.token
    throw (.kuraClientError .comparisonFailed "another writer owns the table")
  return { lease := session, tablePrefix := root, observedRevision := readRevision current }

def acquireWriter (catalogId : Identifier) (client : Nat) (tableId : ByteSequence) (ttl : Int) :
    Program WriterGuard := do
  if ttl ≤ 0 then throw (.standard (.invalidArgument "writer TTL must be positive"))
  let root ← Calls.ofExcept (tablePrefix catalogId tableId)
  let current ← Backend.get (currentKey root)
  let granted ← Backend.grantLease ttl.toNat
  claimWriter client root current (sessionOf granted)

inductive PublishStatus where
  | published
  | conflict
  | recoveredAfterUncertainResponse
  deriving DecidableEq, Repr

structure PublishResult where
  status : PublishStatus
  revision : Int
  current : Option SnapshotPointer
  deriving DecidableEq, Repr

def PublishResult.published (result : PublishResult) : Bool := result.status ≠ .conflict

def uncertainStatus (status : StatusCode) : Bool :=
  status = .notLeader || status = .noQuorum || status = .deadlineExceeded

/-- The errors `publish_snapshot` handles itself. -/
def ClientException.uncertain : ClientException → Bool
  | .kuraClientError code _ => uncertainStatus code
  | _ => false

/-- The pointer a read has found. -/
def decodeRead (read : StoreRead) : Except ClientException (Option SnapshotPointer) :=
  match read.value with
  | none => pure none
  | some value => return some (← decodePointer value.value)

/-- The body of the `try` block of `publish_snapshot`. -/
def tryPublish (client : Nat) (guard : WriterGuard) (expectedRevision : Int)
    (pointer : SnapshotPointer) (encoded : ByteSequence) : Program PublishResult := do
  let result ← Backend.transaction client
    (publishRequest guard expectedRevision pointer.snapshotId encoded)
  if !result.succeeded then
    let current ← Backend.get (currentKey guard.tablePrefix)
    return { status := .conflict, revision := readRevision current,
             current := ← Calls.ofExcept (decodeRead current) }
  return { status := .published, revision := result.header.revision, current := some pointer }

/-- The handler of `publish_snapshot`. -/
def recoverPublish (guard : WriterGuard) (pointer : SnapshotPointer) (encoded : ByteSequence)
    (error : ClientException) : Program PublishResult := do
  if !error.uncertain then throw error
  let current ← Backend.get (currentKey guard.tablePrefix)
  match current.value with
  | none => throw error
  | some value =>
    if value.value = encoded then
      return { status := .recoveredAfterUncertainResponse, revision := value.modRevision,
               current := some pointer }
    else throw error

def publishSnapshot (client : Nat) (guard : WriterGuard) (expectedRevision : Int)
    (pointer : SnapshotPointer) : Program PublishResult := do
  if !(← guard.lease.loadActive) then
    throw (.kuraClientError .leaseNotFound "writer guard is no longer active")
  let encoded ← Calls.ofExcept (encodePointer pointer)
  tryCatch (tryPublish client guard expectedRevision pointer encoded)
    (recoverPublish guard pointer encoded)

/-- The id of a reader; the sequence number is a 64-bit one. -/
def readerIdOf (client sequence : Nat) : ByteSequence :=
  decimal client ++ (ascii ['-'] ++ decimal (sequence % (u64Max + 1)))

/-- The part of `register_reader` from its registration on. -/
def registerSession (client : Nat) (root : ByteSequence) (snapshot : SnapshotPointer)
    (encoded : ByteSequence) (session : LeaseSession) (sequence : Nat) : Program ReaderGuard := do
  let registration ← Backend.transaction client
    (registerRequest root (readerIdOf client sequence) session snapshot.snapshotId encoded)
  if !registration.succeeded then
    let _ ← Backend.revokeLease session.id session.token
    throw (.kuraClientError .comparisonFailed "snapshot is not registered")
  return { lease := session, readerId := readerIdOf client sequence, snapshot }

def registerReader (catalogId : Identifier) (client : Nat) (tableId : ByteSequence)
    (snapshot : SnapshotPointer) (ttl : Int) : Program ReaderGuard := do
  if ttl ≤ 0 then throw (.standard (.invalidArgument "reader TTL must be positive"))
  let encoded ← Calls.ofExcept (encodePointer snapshot)
  let root ← Calls.ofExcept (tablePrefix catalogId tableId)
  let granted ← Backend.grantLease ttl.toNat
  let sequence ← takeSequence client
  registerSession client root snapshot encoded (sessionOf granted) sequence

structure SnapshotUpdate where
  pointer : SnapshotPointer
  revision : Int
  fullResynchronization : Bool := false
  deriving DecidableEq, Repr

def currentSnapshot (catalogId : Identifier) (tableId : ByteSequence) :
    Program (Option SnapshotUpdate) := do
  let root ← Calls.ofExcept (tablePrefix catalogId tableId)
  let current ← Backend.get (currentKey root)
  let pointer ← Calls.ofExcept (decodeRead current)
  return pointer.map fun pointer => { pointer, revision := current.revision }

/-- The answer of `await_snapshot_change` to a compacted start. -/
def resynchronize (catalogId : Identifier) (tableId : ByteSequence) :
    Program (Option SnapshotUpdate) := do
  let current ← currentSnapshot catalogId tableId
  return current.map ({ · with fullResynchronization := true })

/-- The errors of `create_watch` that mean a compacted start. -/
def ClientException.compacted : ClientException → Bool
  | .standard (.storeError code _ _) => code = .compacted
  | .kuraClientError code _ => code = .compacted
  | _ => false

/-- The value of the first put among the events, with the revision of its event. -/
def firstPut : List WatchEvent → Option (KeyValue × Int)
  | [] => none
  | ⟨revision, .put current _⟩ :: _ => some (current, revision)
  | ⟨_, .erase _⟩ :: events => firstPut events

/-- One pass of the polling loop of `await_snapshot_change`; `again` is what follows a pass that
has found nothing. -/
def pollOnce (catalogId : Identifier) (tableId : ByteSequence) (watchId : Int)
    (again : Program (Option SnapshotUpdate)) : Program (Option SnapshotUpdate) := do
  match ← Backend.pollWatch watchId with
  | none => again
  | some response =>
    if response.status = .compacted then resynchronize catalogId tableId
    else
      match firstPut response.events with
      | none => again
      | some (current, revision) => do
        let pointer ← Calls.ofExcept (decodePointer current.value)
        return some { pointer, revision }

/-- The polling loop: `polls` is how many more times the clock lets it come round. -/
def pollSnapshotChange (catalogId : Identifier) (tableId : ByteSequence) (watchId : Int) :
    Nat → Program (Option SnapshotUpdate)
  | 0 => pollOnce catalogId tableId watchId (pure none)
  | polls + 1 => pollOnce catalogId tableId watchId
      (pollSnapshotChange catalogId tableId watchId polls)

/-- The part of `await_snapshot_change` after its watch was created: however the loop ends, the
watch is cancelled on the way out. -/
def watchSnapshot (catalogId : Identifier) (tableId : ByteSequence) (watchId : Int) (polls : Nat) :
    Program (Option SnapshotUpdate) := do
  let outcome ← (pollSnapshotChange catalogId tableId watchId polls).attempt
  Backend.cancelWatch watchId
  Calls.ofExcept outcome

/-- The request of `await_snapshot_change`, which watches the current key alone. -/
def watchRequest (root : ByteSequence) (watchId fromRevision : Int) : WatchRequest :=
  { id := watchId, range := ⟨currentKey root, []⟩, startRevision := fromRevision + 1 }

/-- `await_snapshot_change`. The clock is not modelled: `polls` is how many times it lets the
loop come round again if the timeout is not zero. -/
def awaitSnapshotChange (catalogId : Identifier) (client : Nat) (tableId : ByteSequence)
    (fromRevision timeout : Int) (polls : Nat) : Program (Option SnapshotUpdate) := do
  if fromRevision < 0 ∨ fromRevision = i64Max ∨ timeout < 0 then
    throw (.standard (.invalidArgument "watch revision and timeout must not be negative"))
  let root ← Calls.ofExcept (tablePrefix catalogId tableId)
  let watchId ← takeWatchId client
  match ← (Backend.createWatch client (watchRequest root watchId fromRevision)).attempt with
  | .ok _ => watchSnapshot catalogId tableId watchId (if timeout = 0 then 0 else polls)
  | .error error =>
    if error.compacted then resynchronize catalogId tableId
    else throw error

def collectSnapshot (catalogId : Identifier) (tableId snapshotId : ByteSequence) :
    Program Bool := do
  Calls.ofExcept (validateIdentifier snapshotId "snapshot ID")
  let root ← Calls.ofExcept (tablePrefix catalogId tableId)
  match prefixRangeEnd (readersRoot root) with
  | none => throw (.standard (.logicError "reader namespace has no finite range"))
  | some readersEnd =>
    Backend.collectSnapshotIfUnreferenced (currentKey root) (snapshotKey root snapshotId)
      (readersRoot root) readersEnd snapshotId

end KuraMetadata.Kura
