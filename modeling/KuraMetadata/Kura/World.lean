import KuraMetadata.Kura.Client

/-! # Clients on one backend

Any number of clients run their operations against one `InProcessKuraMetadataBackend`. A step of
the world lets one running operation make its next call, starts an operation, expires leases, or
lets someone else use the store without writing below the tables' paths. The backend holds its
mutex for the whole of a call and reads the tick from its source, so a call is one step with a
tick of its own. -/

namespace KuraMetadata.Kura

open MonadExcept (ofExcept)

/-! ## Operations -/

/-- The operations of the clients, numbered by their client ids, and of their guards. -/
inductive ClientOperation where
  | acquireWriter (client : Nat) (tableId : ByteSequence) (ttl : Int)
  | publishSnapshot (client : Nat) (guard : WriterGuard) (expectedRevision : Int)
      (pointer : SnapshotPointer)
  | registerReader (client : Nat) (tableId : ByteSequence) (snapshot : SnapshotPointer) (ttl : Int)
  | awaitSnapshotChange (client : Nat) (tableId : ByteSequence) (fromRevision timeout : Int)
      (polls : Nat)
  | collectSnapshot (client : Nat) (tableId snapshotId : ByteSequence)
  | currentSnapshot (client : Nat) (tableId : ByteSequence)
  | keepAlive (session : LeaseSession)
  | close (session : LeaseSession)
  deriving DecidableEq, Repr

/-- What the operations return. -/
inductive Outcome where
  | writer (guard : WriterGuard)
  | published (result : PublishResult)
  | reader (guard : ReaderGuard)
  | update (update : Option SnapshotUpdate)
  | collected (collected : Bool)
  | active (active : Bool)
  | closed
  deriving DecidableEq, Repr

/-- The program of an operation, for the catalogs the clients were constructed with. -/
def ClientOperation.program (catalogs : Nat → Identifier) : ClientOperation → Program Outcome
  | .acquireWriter client tableId ttl =>
    return .writer (← Kura.acquireWriter (catalogs client) client tableId ttl)
  | .publishSnapshot client guard expectedRevision pointer =>
    return .published (← Kura.publishSnapshot client guard expectedRevision pointer)
  | .registerReader client tableId snapshot ttl =>
    return .reader (← Kura.registerReader (catalogs client) client tableId snapshot ttl)
  | .awaitSnapshotChange client tableId fromRevision timeout polls =>
    return .update
      (← Kura.awaitSnapshotChange (catalogs client) client tableId fromRevision timeout polls)
  | .collectSnapshot client tableId snapshotId =>
    return .collected (← Kura.collectSnapshot (catalogs client) tableId snapshotId)
  | .currentSnapshot client tableId =>
    return .update (← Kura.currentSnapshot (catalogs client) tableId)
  | .keepAlive session => return .active (← session.keepAlive)
  | .close session => do
    session.close
    return .closed

/-! ## The in-process backend -/

/-- A store operation, with its exceptions as the client sees them. -/
def ofStore {α : Type} (x : StoreM α) : EStateM ClientException InMemoryMetadataStore α := fun s =>
  match x s with
  | .ok a s => .ok a s
  | .error e s => .error (.standard e) s

/-- Whether the current pointer, if there is one, is to the snapshot. -/
def pointsTo (current : Option KeyValue) (snapshotId : ByteSequence) :
    Except ClientException Bool :=
  match current with
  | none => pure false
  | some value => return (← decodePointer value.value).snapshotId = snapshotId

/-- The transaction of `collect_snapshot_if_unreferenced`. -/
def collectRequest (snapshotKey : ByteSequence) (modRevision : Int) (tick : Nat) :
    TransactionRequest :=
  { comparisons := [numericCompare snapshotKey .modRevision .equal modRevision]
    leaseTick := tick
    success := [.delete { range := ⟨snapshotKey, exactKeyEnd snapshotKey⟩ }] }

def collectSnapshotIfUnreferenced
    (currentKey snapshotKey readersStart readersEnd snapshotId : ByteSequence) (tick : Nat) :
    EStateM ClientException InMemoryMetadataStore Bool := do
  let current ← ofStore (InMemoryMetadataStore.get currentKey)
  if ← ofExcept (pointsTo current.value snapshotId) then return false
  let readers ← ofStore (InMemoryMetadataStore.range readersStart readersEnd)
  if readers.values.any (·.value = snapshotId) then return false
  let snapshot ← ofStore (InMemoryMetadataStore.get snapshotKey)
  match snapshot.value with
  | none => return true
  | some value =>
    let result ← ofStore
      (InMemoryMetadataStore.transaction (collectRequest snapshotKey value.modRevision tick))
    return result.1.succeeded

/-! ## The world -/

/-- An operation under way. -/
structure Process where
  operation : ClientOperation
  program : Program Outcome

/-- An operation that has ended, with the store just before its last call and the tick of it. -/
structure Finished where
  process : Nat
  operation : ClientOperation
  outcome : Except ClientException Outcome
  before : InMemoryMetadataStore
  tick : Nat

structure World where
  store : InMemoryMetadataStore
  /-- `next_sequence_` of each client -/
  sequences : Nat → Nat := fun _ => 1
  /-- `next_watch_id_` of each client -/
  watchIds : Nat → Int := fun _ => 1
  /-- `active` of the session with the token -/
  active : Nat → Bool := fun _ => true
  /-- `closed` of the session with the token -/
  closed : Nat → Bool := fun _ => false
  processes : Std.ExtTreeMap Nat Process compare := ∅
  /-- What has ended, in the order of the last calls. -/
  finished : List Finished := []
  /-- Which client has created the watch of an id last; the code keeps no such record. -/
  watchCreators : Int → Option Nat := fun _ => none

namespace World

/-- A call that runs on the store alone. -/
def onStore {α : Type} (w : World) (x : EStateM ClientException InMemoryMetadataStore α) :
    Except ClientException α × World :=
  match x w.store with
  | .ok a s => (.ok a, { w with store := s })
  | .error e s => (.error e, { w with store := s })

/-- The creation of a watch, with the record of who has created it. -/
def createWatch (w : World) (client : Nat) (request : WatchRequest) :
    Except ClientException WatchResponse × World :=
  match InMemoryMetadataStore.createWatch request w.store with
  | .ok response s =>
    (.ok response,
      { w with
        store := s
        watchCreators := Function.update w.watchCreators request.id (some client) })
  | .error e s => (.error (.standard e), { w with store := s })

def exchangeClosed (w : World) (token : Nat) : Bool × World :=
  if w.closed token then (true, w)
  else
    (false,
      { w with
        closed := Function.update w.closed token true
        active := Function.update w.active token false })

/-- The answer to a call, and the world after it. -/
def answer (w : World) (tick : Nat) :
    (request : Request) → Except ClientException (Answer request) × World
  | .get key => w.onStore (ofStore (InMemoryMetadataStore.get key))
  | .transaction client request =>
    { w with sequences := Function.update w.sequences client (w.sequences client + 1) }.onStore
      (ofStore (return (← InMemoryMetadataStore.transaction { request with leaseTick := tick }).1))
  | .grantLease ttl => w.onStore (ofStore (InMemoryMetadataStore.grantLease { ttl, tick }))
  | .keepAlive id token =>
    w.onStore (ofStore (InMemoryMetadataStore.keepAlive { id, fencingToken := token, tick }))
  | .revokeLease id token =>
    w.onStore (ofStore
      (return (← InMemoryMetadataStore.revokeLease { id, fencingToken := token, tick }).1))
  | .createWatch client request => w.createWatch client request
  | .pollWatch id => w.onStore (ofStore (InMemoryMetadataStore.pollWatch id))
  | .cancelWatch id =>
    (.ok (), { w with store := (InMemoryMetadataStore.cancelWatch id w.store).state })
  | .collectSnapshotIfUnreferenced currentKey snapshotKey readersStart readersEnd snapshotId =>
    w.onStore (Kura.collectSnapshotIfUnreferenced currentKey snapshotKey readersStart readersEnd
      snapshotId tick)
  | .takeSequence client =>
    (.ok (w.sequences client),
      { w with sequences := Function.update w.sequences client (w.sequences client + 1) })
  | .takeWatchId client =>
    (.ok (w.watchIds client),
      { w with watchIds := Function.update w.watchIds client (w.watchIds client + 1) })
  | .loadActive token => (.ok (w.active token), w)
  | .clearActive token => (.ok (), { w with active := Function.update w.active token false })
  | .exchangeClosed token => (.ok (w.exchangeClosed token).1, (w.exchangeClosed token).2)

/-- The world in which a process goes on with a program, or has ended with it. -/
def settle (w : World) (process : Nat) (operation : ClientOperation) (program : Program Outcome)
    (before : InMemoryMetadataStore) (tick : Nat) : World :=
  match program with
  | .done outcome =>
    { w with
      processes := w.processes.erase process
      finished := w.finished ++ [{ process, operation, outcome, before, tick }] }
  | .call request next =>
    { w with
      processes := w.processes.insert process { operation, program := .call request next } }

/-- The guards that were handed out, by their sessions. -/
def sessions (w : World) : List LeaseSession :=
  w.finished.filterMap fun turn =>
    match turn.outcome with
    | .ok (.writer guard) => some guard.lease
    | .ok (.reader guard) => some guard.lease
    | _ => none

/-- The writer guards that were handed out. -/
def writers (w : World) : List WriterGuard :=
  w.finished.filterMap fun turn =>
    match turn.outcome with
    | .ok (.writer guard) => some guard
    | _ => none

/-- Whether the guard or session an operation is called on was handed out. -/
def holds (w : World) : ClientOperation → Bool
  | .publishSnapshot _ guard _ _ => guard ∈ w.writers
  | .keepAlive session | .close session => session ∈ w.sessions
  | _ => true

end World

/-- What can happen next. -/
inductive Action where
  | start (process : Nat) (operation : ClientOperation)
  | advance (process tick : Nat)
  | expire (tick : Nat)
  | other (operation : Operation)
  deriving DecidableEq, Repr

/-- The entries below the path that the keys of all tables begin with. -/
def tableEntries (values : ValueMap) : List (ByteSequence × KeyValue) :=
  values.toList.filter fun entry => catalogsRoot.isPrefixOf entry.1

namespace World

/-- One step of the world, for the catalogs of the clients. Others than the clients may do
anything to the store but change what lies below the tables' paths, and create no watches. -/
def step (catalogs : Nat → Identifier) (w : World) : Action → Option World
  | .start process operation =>
    if process ∉ w.processes ∧ w.holds operation then
      some (w.settle process operation (operation.program catalogs) w.store w.store.logicalTick)
    else none
  | .advance process tick =>
    match w.processes[process]? with
    | some ⟨operation, .call request next⟩ =>
      some ((w.answer tick request).2.settle process operation (next (w.answer tick request).1)
        w.store tick)
    | _ => none
  | .expire tick => some { w with store := (InMemoryMetadataStore.expireLeases tick w.store).state }
  | .other operation =>
    let store := (operation.run w.store).state
    if operation.watches = false ∧ tableEntries store.values = tableEntries w.store.values then
      some { w with store }
    else none

end World

/-- The worlds a world can come to, if only steps that are `allowed` are taken. -/
inductive Reaches (catalogs : Nat → Identifier) (allowed : World → Action → Prop) (w : World) :
    World → Prop
  | refl : Reaches catalogs allowed w w
  | snoc {w' w'' : World} {action : Action} (run : Reaches catalogs allowed w w')
      (ok : allowed w' action) (step : w'.step catalogs action = some w'') :
      Reaches catalogs allowed w w''

/-- Any step. -/
def anything (_ : World) (_ : Action) : Prop := True

end KuraMetadata.Kura
