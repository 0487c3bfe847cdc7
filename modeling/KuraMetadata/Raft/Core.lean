import KuraMetadata.Raft.Figure2
import KuraMetadata.Storage.Checksum
import Mathlib.Data.List.Sort

/-! # The Raft core

`raft::election::Core` of `raft_election.cpp` wraps the Figure 2 specification with timers,
log durability, ordered application, ReadIndex and snapshots. Its methods mutate the object
and may throw half way; here a method maps the core to the next one, and a throw carries the
exception together with the core as the method left it (`Failure`). -/

namespace KuraMetadata.Election

open Figure2 (RuleId)

structure TimeoutRange where
  minimum : Nat := 10
  maximum : Nat := 20
  deriving DecidableEq, Repr

inductive Input where
  | electionDeadline (timerId : Nat)
  | heartbeatDeadline (timerId : Nat)
  | receiveRequestVote (sender : NodeId) (request : RequestVoteRequest)
  | receiveRequestVoteResponse (sender : NodeId) (response : RequestVoteResponse)
  | receiveAppendEntries (sender : NodeId) (request : AppendEntriesRequest)
  | receiveAppendEntriesResponse (sender : NodeId) (response : AppendEntriesResponse)
  | receiveClientCommand (command : CommandEnvelope)
  | raftHardStatePersisted (completion : PersistRaftHardState)
  | raftLogPersisted (completion : PersistRaftLog)
  | logEntryApplied (requestId : Nat) (index : Nat)
  | logEntryApplyFailed (requestId : Nat) (index : Nat)
  | retryApplication
  | createRaftSnapshot (request : CreateRaftSnapshot)
  | receiveInstallSnapshot (sender : NodeId) (request : InstallSnapshotRequest)
  | receiveInstallSnapshotResponse (sender : NodeId) (response : InstallSnapshotResponse)
  | raftSnapshotPersisted (completion : PersistRaftSnapshot)
  | raftSnapshotRestored (requestId : Nat) (index : Nat)
  | readIndexRequest (requestId : RequestId)
  | cancelReadIndex (requestId : RequestId)
  | timeoutReadIndex (requestId : RequestId)
  deriving DecidableEq

inductive Effect where
  | roleTransition (source target : RaftRole) (term : Nat)
  | persistRaftHardState (request : PersistRaftHardState)
  | persistRaftLog (request : PersistRaftLog)
  | persistRaftSnapshot (request : PersistRaftSnapshot)
  | sendRequestVote (dest : NodeId) (request : RequestVoteRequest)
  | sendRequestVoteResponse (dest : NodeId) (response : RequestVoteResponse)
  | sendAppendEntries (dest : NodeId) (request : AppendEntriesRequest)
  | sendAppendEntriesResponse (dest : NodeId) (response : AppendEntriesResponse)
  | sendInstallSnapshot (dest : NodeId) (request : InstallSnapshotRequest)
  | sendInstallSnapshotResponse (dest : NodeId) (response : InstallSnapshotResponse)
  | restoreStateMachineSnapshot (requestId : Nat) (snapshot : RaftSnapshot)
  | truncateRaftLogPrefix (through : Nat)
  | raftSnapshotCreated (index : Nat)
  | raftSnapshotRejected (reason : SnapshotRejection)
  | applyLogEntry (request : ApplyLogEntry)
  | applicationBackpressured (index : Nat)
  | completeClientCommand (index : Nat)
  | readIndexResponse (requestId : RequestId) (committedIndex : Nat)
  | readIndexRejected (requestId : RequestId) (reason : ReadIndexFailure)
  | resetElectionDeadline (timerId delay : Nat)
  | cancelElectionDeadline (timerId : Nat)
  | resetHeartbeatDeadline (timerId delay : Nat)
  | cancelHeartbeatDeadline (timerId : Nat)
  deriving DecidableEq

structure StepResult where
  rules : List RuleId := []
  effects : List Effect := []

structure PendingLogPersistence where
  request : PersistRaftLog
  deferredEffects : List Effect

structure PendingApplication where
  request : ApplyLogEntry
  blocked : Bool := false

structure PendingRead where
  request : RequestId
  readIndex : Nat
  acknowledgements : Finset NodeId
  quorumConfirmed : Bool := false

/-- `reply` pairs `reply_to` with `response`: both are set for a received snapshot and
neither for one created locally (`local_creation`). -/
structure PendingSnapshotPersistence where
  request : PersistRaftSnapshot
  reply : Option (NodeId × InstallSnapshotResponse) := none
  localCreation : Bool := false

structure PendingSnapshotTransfer where
  transferId : Nat
  term : Nat
  index : Nat

structure PendingSnapshotRestore where
  requestId : Nat
  snapshot : RaftSnapshot
  replyTo : NodeId
  response : InstallSnapshotResponse

structure Core where
  state : Figure2.State
  timeouts : TimeoutRange := {}
  heartbeatInterval : Nat := 2
  randomState : Nat := 0
  nextTimerId : Nat := 1
  nextLogRequestId : Nat := 9223372036854775808
  nextApplicationRequestId : Nat := 4611686018427387904
  electionTimer : Option Nat := none
  electionTimeout : Option Nat := none
  heartbeatTimer : Option Nat := none
  pendingLog : Option PendingLogPersistence := none
  pendingApplication : Option PendingApplication := none
  pendingSnapshot : Option PendingSnapshotPersistence := none
  pendingSnapshotRestore : Option PendingSnapshotRestore := none
  installAfterHardState : Option (NodeId × InstallSnapshotRequest) := none
  durableSnapshot : Option RaftSnapshot := none
  snapshotTransfers : List (NodeId × PendingSnapshotTransfer) := []
  pendingReads : List (Nat × PendingRead) := []
  pendingReadRequests : List (RequestId × Nat) := []
  usedReadRequests : Finset RequestId := ∅
  maxPendingReads : Nat := 128
  maxReadHistory : Nat := 4096
  nextReadContext : Nat := 1
  nextSnapshotRequestId : Nat := 2305843009213693952
  nextSnapshotTransferId : Nat := 1
  maxSnapshotBytes : Nat := 67108864
  maxSnapshotMembers : Nat := 1024
  completedReadCount : Nat := 0
  rejectedReadCount : Nat := 0
  started : Bool := false

/-- A throw out of a method of the core: the exception and what the method left behind. -/
structure Failure where
  error : Exn
  core : Core

/-- Let the exceptions of the pure specification escape through a method of the core. -/
def Core.lift {α : Type} (c : Core) (x : Except Exn α) : Except Failure α :=
  x.mapError fun e => ⟨e, c⟩

def StepResult.emit (r : StepResult) (effect : Effect) : StepResult :=
  { r with effects := r.effects ++ [effect] }

/-! ## Constants of the request-identifier ranges -/

/-- `1ULL << 63`: log requests start here and application requests end here. -/
def logRequestBase : Nat := 9223372036854775808

/-- `1ULL << 62`: application requests start here and snapshot requests end here. -/
def applicationRequestBase : Nat := 4611686018427387904

/-! ## Timers -/

/-- `splitmix64`: the next state and the value drawn from it. -/
def splitmix64 (state : Nat) : Nat × Nat :=
  let wrap := 18446744073709551616
  let state := (state + 0x9e3779b97f4a7c15) % wrap
  let value := (state ^^^ (state >>> 30)) * 0xbf58476d1ce4e5b9 % wrap
  let value := (value ^^^ (value >>> 27)) * 0x94d049bb133111eb % wrap
  (state, value ^^^ (value >>> 31))

/-- The delay of the next election deadline, and the random state after drawing it. -/
def Core.drawDelay (c : Core) : Nat × Nat :=
  let width := c.timeouts.maximum - c.timeouts.minimum
  if width = 0 then (c.randomState, c.timeouts.minimum)
  else
    let drawn := splitmix64 c.randomState
    (drawn.1, c.timeouts.minimum + drawn.2 % (width + 1))

def Core.nextDeadline (c : Core) : Except Failure (Core × Effect) :=
  if c.nextTimerId = 0 ∨ c.nextTimerId = u64Max then
    .error ⟨.overflowError "Raft election timer ID exhausted", c⟩
  else
    let drawn := c.drawDelay
    .ok ({ c with
        randomState := drawn.1
        nextTimerId := c.nextTimerId + 1
        electionTimer := some c.nextTimerId
        electionTimeout := some drawn.2 },
      .resetElectionDeadline c.nextTimerId drawn.2)

def Core.nextHeartbeat (c : Core) : Except Failure (Core × Effect) :=
  if c.nextTimerId = 0 ∨ c.nextTimerId = u64Max then
    .error ⟨.overflowError "Raft timer ID exhausted", c⟩
  else
    .ok ({ c with
        nextTimerId := c.nextTimerId + 1
        heartbeatTimer := some c.nextTimerId },
      .resetHeartbeatDeadline c.nextTimerId c.heartbeatInterval)

/-! ## Construction and recovery -/

/-- The arguments of the constructor. -/
structure Recovery where
  self : NodeId
  peers : List NodeId
  recovered : RaftHardState := {}
  seed : Nat := 0
  timeouts : TimeoutRange := {}
  recoveredLog : List LogEntry := []
  heartbeatInterval : Nat := 2
  recoveredApplied : Nat := 0
  maxPendingReads : Nat := 128
  maxReadHistory : Nat := 4096
  recoveredSnapshot : Option RaftSnapshot := none
  maxSnapshotBytes : Nat := 67108864
  maxSnapshotMembers : Nat := 1024

/-- The first checks of the constructor, up to the recovered log. -/
def checkConfiguration (a : Recovery) : Except Exn Unit :=
  let clusterSize := a.peers.length + 1
  if a.self = 0 then .error (.invalidArgument "Raft node ID must be nonzero")
  else if 0 ∈ a.peers then .error (.invalidArgument "Raft peer IDs must be nonzero")
  else if clusterSize < 3 ∨ clusterSize % 2 = 0 then
    .error (.invalidArgument "Raft election cluster must have an odd size of at least three")
  else if a.timeouts.minimum = 0 ∨ a.timeouts.maximum < a.timeouts.minimum then
    .error (.invalidArgument "invalid Raft election timeout range")
  else if a.heartbeatInterval = 0 then
    .error (.invalidArgument "Raft heartbeat interval must be nonzero")
  else if a.maxPendingReads = 0 ∨ a.maxReadHistory < a.maxPendingReads then
    .error (.invalidArgument "invalid ReadIndex limits")
  else if a.maxSnapshotBytes < 68 then
    .error (.invalidArgument "invalid Raft snapshot size limit")
  else if a.maxSnapshotMembers < clusterSize then
    .error (.invalidArgument "invalid Raft snapshot member limit")
  else if a.recovered.currentTerm = 0 ∧ a.recovered.votedFor.isSome then
    .error (.invalidArgument "bootstrap term cannot contain a vote")
  else if a.recovered.votedFor.any fun v => v ≠ a.self ∧ v ∉ a.peers then
    .error (.invalidArgument "recovered vote is outside the cluster")
  else if a.recoveredLog.any fun entry => entry.term = 0 then
    .error (.invalidArgument "recovered Raft log entries must have nonzero terms")
  else .ok ()

/-- The checks of a recovered snapshot on its own. -/
def checkRecoveredSnapshot (a : Recovery) (snapshot : RaftSnapshot) : Except Exn Unit :=
  let metadata := snapshot.metadata
  let members := metadata.membership.voters ++ metadata.membership.learners
  let memberCount := members.toFinset.card
  if metadata.lastIncludedIndex = 0 ∨ metadata.lastIncludedTerm = 0
      ∨ a.recovered.currentTerm < metadata.lastIncludedTerm ∨ metadata.formatVersion ≠ 1 then
    .error (.invalidArgument "invalid recovered Raft snapshot")
  else if metadata.storeRevision < 0 ∨ metadata.compactionRevision < 0
      ∨ metadata.storeRevision < metadata.compactionRevision then
    .error (.invalidArgument "invalid recovered snapshot revisions")
  else if 0 ∈ members ∨ ¬ members.Nodup
      ∨ metadata.membership.voters.toFinset ≠ insert a.self a.peers.toFinset
      ∨ a.maxSnapshotMembers < memberCount
      ∨ (a.maxSnapshotBytes - 68) / 8 < memberCount
      ∨ a.maxSnapshotBytes - 68 - memberCount * 8 < snapshot.state.length then
    .error (.invalidArgument "invalid recovered snapshot membership or size")
  else .ok ()

/-- The recovered log once the recovered snapshot is taken out of it: the suffix after the
entry at the snapshot's index, or the whole log when it already follows the snapshot. -/
def logAfterSnapshot (log : List LogEntry) (metadata : SnapshotMetadata) :
    Except Exn (List LogEntry) :=
  let index := metadata.lastIncludedIndex
  match log.dropWhile fun entry => entry.index ≠ index with
  | matching :: suffix =>
    if matching.term ≠ metadata.lastIncludedTerm then
      .error (.invalidArgument "recovered snapshot conflicts with Raft log")
    else .ok suffix
  | [] =>
    match log with
    | [] => .ok []
    | front :: _ =>
      if front.index ≠ index + 1 then
        .error (.invalidArgument "recovered log does not follow the Raft snapshot")
      else .ok log

/-- The specification state the constructor recovers. -/
def recoverState (a : Recovery) : Except Exn Figure2.State := do
  let s : Figure2.State := {
    node := a.self
    peers := a.peers
    persistent := {
      currentTerm := a.recovered.currentTerm
      votedFor := a.recovered.votedFor
      log := a.recoveredLog }
    volatileState := { commitIndex := a.recoveredApplied, lastApplied := a.recoveredApplied } }
  match a.recoveredSnapshot with
  | none => return s
  | some snapshot =>
    checkRecoveredSnapshot a snapshot
    let log ← logAfterSnapshot a.recoveredLog snapshot.metadata
    let applied := max a.recoveredApplied snapshot.metadata.lastIncludedIndex
    return { s with
      persistent := { s.persistent with log := log, snapshot := some snapshot.metadata }
      volatileState := { commitIndex := applied, lastApplied := applied } }

/-- `Core::Core`. -/
def Core.make (a : Recovery) : Except Exn Core := do
  checkConfiguration a
  let s ← recoverState a
  if Figure2.lastIndex s < s.volatileState.lastApplied then
    .error (.invalidArgument "recovered applied index exceeds the Raft log")
  else
    match Figure2.validate s with
    | violation :: _ => .error (.invalidArgument violation)
    | [] =>
      return {
        state := s
        timeouts := a.timeouts
        heartbeatInterval := a.heartbeatInterval
        randomState := a.seed
        durableSnapshot := a.recoveredSnapshot
        maxPendingReads := a.maxPendingReads
        maxReadHistory := a.maxReadHistory
        maxSnapshotBytes := a.maxSnapshotBytes
        maxSnapshotMembers := a.maxSnapshotMembers }

def Core.start (c : Core) : Except Failure (Core × StepResult) :=
  if c.started then .error ⟨.logicError "Raft election core already started", c⟩
  else do
    let (c, deadline) ← { c with started := true }.nextDeadline
    return (c, { effects := [deadline] })

/-- `snapshot().waiting_for_persistence`. -/
def Core.waitingForPersistence (c : Core) : Bool :=
  c.state.pendingHardState.isSome || c.pendingLog.isSome || c.pendingSnapshot.isSome
    || c.pendingSnapshotRestore.isSome

end KuraMetadata.Election
