import KuraMetadata.Raft.Core

/-! # The transition function of the Raft core

The methods behind `Core::step`, in the order of the source. A step of the specification
reaches the driver through `Core.translate`: timers are armed, the log write is cut out of the
effects the way the specification cuts out the hard-state write (`gateLogPersistence`), an
`AppendEntries` below the snapshot becomes an `InstallSnapshot` (`replaceCompactedAppends`),
and the next committed entry is handed to the state machine (`scheduleApplication`). -/

namespace KuraMetadata.Election

open Figure2 (RuleId)

/-! ## Application -/

def Core.scheduleApplication (c : Core) (r : StepResult) : Except Failure (Core × StepResult) :=
  let v := c.state.volatileState
  if c.pendingApplication.isSome ∨ v.commitIndex ≤ v.lastApplied then .ok (c, r)
  else if logRequestBase ≤ c.nextApplicationRequestId then
    .error ⟨.overflowError "Raft application request ID exhausted", c⟩
  else do
    let requestId := c.nextApplicationRequestId
    let c := { c with nextApplicationRequestId := requestId + 1 }
    let entry ← c.lift (Figure2.entryAt c.state (v.lastApplied + 1))
    let request : ApplyLogEntry := ⟨requestId, entry⟩
    return ({ c with pendingApplication := some { request := request } },
      r.emit (.applyLogEntry request))

/-! ## Log durability -/

/-- The request of a log write. -/
def Effect.logWrite? : Effect → Option PersistRaftLog
  | .persistRaftLog request => some request
  | _ => none

def Core.gateLogPersistence (c : Core) (effects : List Effect) :
    Except Failure (Core × List Effect) :=
  match effects.splitFirst Effect.logWrite? with
  | none => .ok (c, effects)
  | some (before, request, deferred) =>
    if c.pendingLog.isSome then
      .error ⟨.logicError "Raft log persistence is already pending", c⟩
    else
      .ok ({ c with pendingLog := some ⟨request, deferred⟩ },
        before ++ [.persistRaftLog request])

/-! ## Snapshot transfers -/

/-- `snapshot_transfers_[peer] = transfer;` -/
def setTransfer (transfers : List (NodeId × PendingSnapshotTransfer)) (peer : NodeId)
    (transfer : PendingSnapshotTransfer) : List (NodeId × PendingSnapshotTransfer) :=
  (peer, transfer) :: transfers.filter fun t => t.1 ≠ peer

/-- Whether an append to `peer` would start below the durable snapshot. -/
def needsSnapshot (leader : Figure2.LeaderState) (snapshot : RaftSnapshot) (peer : NodeId) :
    Bool :=
  match leader.progress.lookup peer with
  | none => false
  | some progress => progress.nextIndex ≤ snapshot.metadata.lastIncludedIndex

/-- The `InstallSnapshot` that stands in for an append to `dest`. -/
def Core.installRequest (c : Core) (snapshot : RaftSnapshot)
    (readContext : Option Nat) : InstallSnapshotRequest where
  term := c.state.persistent.currentTerm
  leader := c.state.node
  transferId := c.nextSnapshotTransferId
  metadata := snapshot.metadata
  offset := 0
  totalSize := snapshot.state.length
  chunk := snapshot.state
  stateChecksum := crc32c snapshot.state
  done := true
  readContext := readContext

/-- The loop of `replace_compacted_appends` over the effects. -/
def Core.replaceAppends (c : Core) (leader : Figure2.LeaderState) (snapshot : RaftSnapshot) :
    List Effect → Except Failure (Core × List Effect)
  | [] => .ok (c, [])
  | .sendAppendEntries dest request :: rest =>
    if needsSnapshot leader snapshot dest then
      if c.nextSnapshotTransferId = 0 ∨ c.nextSnapshotTransferId = u64Max then
        .error ⟨.overflowError "Raft snapshot transfer ID exhausted", c⟩
      else do
        let install := c.installRequest snapshot request.readContext
        let c := { c with
          nextSnapshotTransferId := c.nextSnapshotTransferId + 1
          snapshotTransfers := setTransfer c.snapshotTransfers dest
            ⟨install.transferId, install.term, snapshot.metadata.lastIncludedIndex⟩ }
        let (c, rest) ← c.replaceAppends leader snapshot rest
        return (c, .sendInstallSnapshot dest install :: rest)
    else do
      let (c, rest) ← c.replaceAppends leader snapshot rest
      return (c, .sendAppendEntries dest request :: rest)
  | effect :: rest => do
    let (c, rest) ← c.replaceAppends leader snapshot rest
    return (c, effect :: rest)

def Core.replaceCompactedAppends (c : Core) (effects : List Effect) :
    Except Failure (Core × List Effect) :=
  match c.durableSnapshot, c.state.leader with
  | some snapshot, some leader =>
    if c.state.role = .leader then c.replaceAppends leader snapshot effects else .ok (c, effects)
  | _, _ => .ok (c, effects)

/-! ## Translating a step of the specification -/

def Core.rejectPendingReads (c : Core) (reason : ReadIndexFailure) : Core × List Effect :=
  ({ c with
      rejectedReadCount := c.rejectedReadCount + c.pendingReads.length
      pendingReads := []
      pendingReadRequests := [] },
    c.pendingReads.map fun p => .readIndexRejected p.2.request reason)

/-- Cancel the heartbeat timer, if it is armed. -/
def Core.cancelHeartbeat (c : Core) : Core × List Effect :=
  match c.heartbeatTimer with
  | some timer => ({ c with heartbeatTimer := none }, [.cancelHeartbeatDeadline timer])
  | none => (c, [])

/-- The election deadline of a deposed leader, unless the step itself resets it. -/
def Core.deadlineUnless (c : Core) (resetsElection : Bool) :
    Except Failure (Core × List Effect) :=
  if resetsElection then .ok (c, [])
  else do
    let (c, deadline) ← c.nextDeadline
    return (c, [deadline])

/-- The effects of a role change: the timers of the old role are cancelled, and a deposed
leader fails its reads and forgets its snapshot transfers. -/
def Core.changeRole (c : Core) (previous : RaftRole) (resetsElection : Bool) :
    Except Failure (Core × List Effect) :=
  if c.state.role = previous then .ok (c, [])
  else
    let transition :=
      Effect.roleTransition previous c.state.role c.state.persistent.currentTerm
    match c.state.role, c.electionTimer with
    | .leader, some timer => do
      let (c, heartbeat) ←
        { c with electionTimer := none, electionTimeout := none }.nextHeartbeat
      return (c, [transition, .cancelElectionDeadline timer, heartbeat])
    | _, _ =>
      if previous = .leader ∧ c.state.role ≠ .leader then do
        let (c, cancelled) := c.cancelHeartbeat
        let (c, deadline) ← c.deadlineUnless resetsElection
        let (c, rejected) := c.rejectPendingReads .leadershipLost
        return ({ c with snapshotTransfers := [] },
          transition :: cancelled ++ deadline ++ rejected)
      else .ok (c, [transition])

/-- The effects an effect of the specification becomes. -/
def Core.translateEffect (c : Core) : Figure2.Effect → Except Failure (Core × List Effect)
  | .persistRaftHardState request => .ok (c, [.persistRaftHardState request])
  | .sendRequestVote dest request => .ok (c, [.sendRequestVote dest request])
  | .sendRequestVoteResponse dest response => .ok (c, [.sendRequestVoteResponse dest response])
  | .sendAppendEntries dest request => .ok (c, [.sendAppendEntries dest request])
  | .sendAppendEntriesResponse dest response =>
    .ok (c, [.sendAppendEntriesResponse dest response])
  | .persistState =>
    if c.nextLogRequestId = u64Max then
      .error ⟨.overflowError "Raft log persistence request ID exhausted", c⟩
    else
      .ok ({ c with nextLogRequestId := c.nextLogRequestId + 1 },
        [.persistRaftLog ⟨c.nextLogRequestId, c.state.persistent.log⟩])
  | .resetElectionTimer => do
    let (c, deadline) ← c.nextDeadline
    return (c, [deadline])
  | .applyCommand _ _ => .ok (c, [])
  | .completeClientCommand _ => .ok (c, [])

/-- The loop of `translate` over the effects of the specification. -/
def Core.translateEffects (c : Core) : List Figure2.Effect → Except Failure (Core × List Effect)
  | [] => .ok (c, [])
  | effect :: rest => do
    let (c, translated) ← c.translateEffect effect
    let (c, rest) ← c.translateEffects rest
    return (c, translated ++ rest)

def Core.translate (c : Core) (result : Figure2.StepResult) (previous : RaftRole) :
    Except Failure (Core × StepResult) := do
  let (c, roleEffects) ← { c with state := result.state }.changeRole previous
    (result.effects.contains .resetElectionTimer)
  let (c, effects) ← c.translateEffects result.effects
  let (c, effects) ← c.gateLogPersistence (roleEffects ++ effects)
  let (c, effects) ← c.replaceCompactedAppends effects
  let translated : StepResult := { rules := result.rules, effects := effects }
  if c.state.pendingHardState.isNone ∧ c.pendingLog.isNone then
    c.scheduleApplication translated
  else return (c, translated)

/-- `translate(figure2::step(state_, event), state_.role)`. -/
def Core.transition (c : Core) (event : Figure2.Event) : Except Failure (Core × StepResult) := do
  let result ← c.lift (Figure2.step c.state event)
  c.translate result c.state.role

/-! ## ReadIndex -/

/-- The term of the entry at the commit index, zero when there is none. -/
def commitTerm (s : Figure2.State) : Except Exn Nat :=
  let commit := s.volatileState.commitIndex
  match s.persistent.snapshot with
  | some metadata =>
    if commit = metadata.lastIncludedIndex then .ok metadata.lastIncludedTerm
    else if metadata.lastIncludedIndex < commit then
      (Figure2.entryAt s commit).map LogEntry.term
    else .ok 0
  | none => if 0 < commit then (Figure2.entryAt s commit).map LogEntry.term else .ok 0

def Core.rejectRead (c : Core) (requestId : RequestId) (reason : ReadIndexFailure) :
    Core × StepResult :=
  ({ c with rejectedReadCount := c.rejectedReadCount + 1 },
    { effects := [.readIndexRejected requestId reason] })

/-- Attach a read context to the heartbeats of a read. -/
def attachContext (context : Nat) : Effect → Effect
  | .sendAppendEntries dest request =>
    .sendAppendEntries dest { request with readContext := some context }
  | .sendInstallSnapshot dest request =>
    .sendInstallSnapshot dest { request with readContext := some context }
  | effect => effect

/-- The registration of an accepted read. -/
def Core.registerRead (c : Core) (requestId : RequestId) : Core :=
  { c with
    nextReadContext := c.nextReadContext + 1
    usedReadRequests := insert requestId c.usedReadRequests
    pendingReadRequests := c.pendingReadRequests ++ [(requestId, c.nextReadContext)]
    pendingReads := c.pendingReads ++ [(c.nextReadContext, {
      request := requestId
      readIndex := c.state.volatileState.commitIndex
      acknowledgements := {c.state.node} })] }

def Core.beginRead (c : Core) (requestId : RequestId) : Except Failure (Core × StepResult) :=
  if requestId = {} then
    .error ⟨.invalidArgument "ReadIndex request ID must be nonzero", c⟩
  else if c.state.role ≠ .leader then .ok (c.rejectRead requestId .notLeader)
  else if requestId ∈ c.usedReadRequests then .ok (c.rejectRead requestId .duplicateRequest)
  else do
    let term ← c.lift (commitTerm c.state)
    if c.state.volatileState.commitIndex = 0 ∨ term ≠ c.state.persistent.currentTerm then
      return c.rejectRead requestId .currentTermNotCommitted
    else if c.maxPendingReads ≤ c.pendingReads.length
        ∨ c.maxReadHistory ≤ c.usedReadRequests.card then
      return c.rejectRead requestId .capacityExceeded
    else if c.nextReadContext = 0 ∨ c.nextReadContext = u64Max then
      return c.rejectRead requestId .contextExhausted
    else
      let (c', result) ← (c.registerRead requestId).transition .heartbeatTimeout
      return (c', { result with
        effects := result.effects.map (attachContext c.nextReadContext) })

/-- `cancel_read` and `timeout_read`, which differ only in the reason they report. -/
def Core.abandonRead (c : Core) (requestId : RequestId) (reason : ReadIndexFailure) :
    Core × StepResult :=
  match c.pendingReadRequests.lookup requestId with
  | none => (c, {})
  | some context =>
    ({ c with
        pendingReads := c.pendingReads.filter fun p => p.1 ≠ context
        pendingReadRequests := c.pendingReadRequests.filter fun p => p.1 ≠ requestId
        rejectedReadCount := c.rejectedReadCount + 1 },
      { effects := [.readIndexRejected requestId reason] })

def Core.cancelRead (c : Core) (requestId : RequestId) : Core × StepResult :=
  c.abandonRead requestId .cancelled

def Core.timeoutRead (c : Core) (requestId : RequestId) : Core × StepResult :=
  c.abandonRead requestId .timedOut

/-- Whether a read is confirmed by a quorum and covered by the applied state. -/
def PendingRead.ready (p : PendingRead) (lastApplied : Nat) : Bool :=
  p.quorumConfirmed && p.readIndex ≤ lastApplied

def Core.completeReadyReads (c : Core) (r : StepResult) : Core × StepResult :=
  let applied := c.state.volatileState.lastApplied
  let ready := c.pendingReads.filter fun p => p.2.ready applied
  ({ c with
      pendingReads := c.pendingReads.filter fun p => !p.2.ready applied
      pendingReadRequests := c.pendingReadRequests.filter fun p =>
        p.1 ∉ ready.map fun (q : Nat × PendingRead) => q.2.request
      completedReadCount := c.completedReadCount + ready.length },
    { r with effects := r.effects ++
        ready.map fun p => .readIndexResponse p.2.request p.2.readIndex })

/-- Count an acknowledgement of a read. -/
def PendingRead.acknowledge (p : PendingRead) (sender : NodeId) (majority : Nat) : PendingRead :=
  let acknowledgements := insert sender p.acknowledgements
  { p with
    acknowledgements := acknowledgements
    quorumConfirmed := p.quorumConfirmed || majority ≤ acknowledgements.card }

def Core.acknowledgeRead (c : Core) (sender : NodeId) (response : AppendEntriesResponse)
    (r : StepResult) : Core × StepResult :=
  if c.state.role ≠ .leader ∨ response.term ≠ c.state.persistent.currentTerm
      ∨ response.succeeded = false then (c, r)
  else
    match response.readContext with
    | none => (c, r)
    | some context =>
      if context ∈ c.pendingReads.map Prod.fst then
        Core.completeReadyReads { c with
          pendingReads := c.pendingReads.map fun p =>
            if p.1 = context then
              (p.1, p.2.acknowledge sender (Figure2.majority c.state))
            else p } r
      else (c, r)

/-! ## Creating a snapshot -/

/-- Sort node identifiers, `std::ranges::sort(members, by_id)`. -/
def sortIds (members : List NodeId) : List NodeId := members.insertionSort (· ≤ ·)

/-- `std::adjacent_find(members) != members.end()`. -/
def adjacentDuplicate : List NodeId → Bool
  | a :: b :: rest => a == b || adjacentDuplicate (b :: rest)
  | _ => false

/-- The voters every node of the cluster expects in a snapshot. -/
def Core.expectedVoters (c : Core) : List NodeId := sortIds (c.state.peers ++ [c.state.node])

/-- The size of an encoded snapshot without its state. -/
def snapshotOverhead (m : ClusterMembership) : Nat :=
  68 + 8 * (m.voters.length + m.learners.length)

/-- The first reason to refuse a snapshot request, in the order of `begin_snapshot`. -/
def Core.snapshotRejection (c : Core) (request : CreateRaftSnapshot)
    (membership : ClusterMembership) : Option SnapshotRejection :=
  if c.pendingSnapshot.isSome then some .persistenceBusy
  else if request.appliedIndex = 0
      ∨ request.appliedIndex ≠ c.state.volatileState.lastApplied then some .noAppliedEntry
  else if c.durableSnapshot.any fun d =>
      request.appliedIndex ≤ d.metadata.lastIncludedIndex then some .stale
  else if request.storeRevision < 0 ∨ request.compactionRevision < 0
      ∨ request.storeRevision < request.compactionRevision then some .invalidRevision
  else if membership.voters ≠ c.expectedVoters
      ∨ adjacentDuplicate membership.voters ∨ adjacentDuplicate membership.learners
      ∨ 0 ∈ membership.learners
      ∨ (∃ node ∈ membership.learners, node ∈ membership.voters)
      ∨ c.maxSnapshotMembers < membership.voters.length + membership.learners.length then
    some .invalidMembership
  else if c.maxSnapshotBytes < snapshotOverhead membership
      ∨ c.maxSnapshotBytes - snapshotOverhead membership < request.state.length then
    some .tooLarge
  else none

/-- The term `begin_snapshot` records: that of the entry, or of the boundary, at the index. -/
def snapshotTerm (s : Figure2.State) (index : Nat) : Except Exn Nat :=
  match s.persistent.snapshot with
  | some metadata =>
    if index = metadata.lastIncludedIndex then .ok metadata.lastIncludedTerm
    else (Figure2.entryAt s index).map LogEntry.term
  | none => (Figure2.entryAt s index).map LogEntry.term

/-- Ask for the publication of a snapshot. -/
def Core.publishSnapshot (c : Core) (snapshot : RaftSnapshot)
    (reply : Option (NodeId × InstallSnapshotResponse)) (localCreation : Bool)
    (effects : List Effect) (rules : List RuleId) : Except Failure (Core × StepResult) :=
  if c.nextSnapshotRequestId = 0 ∨ applicationRequestBase ≤ c.nextSnapshotRequestId then
    .error ⟨.overflowError "Raft snapshot persistence request ID exhausted", c⟩
  else
    let request : PersistRaftSnapshot := ⟨c.nextSnapshotRequestId, snapshot⟩
    .ok ({ c with
        nextSnapshotRequestId := c.nextSnapshotRequestId + 1
        pendingSnapshot := some ⟨request, reply, localCreation⟩ },
      { rules := rules, effects := effects ++ [.persistRaftSnapshot request] })

def Core.beginSnapshot (c : Core) (request : CreateRaftSnapshot) :
    Except Failure (Core × StepResult) :=
  let membership : ClusterMembership :=
    ⟨sortIds request.membership.voters, sortIds request.membership.learners⟩
  match c.snapshotRejection request membership with
  | some reason => .ok (c, { effects := [.raftSnapshotRejected reason] })
  | none => do
    let term ← c.lift (snapshotTerm c.state request.appliedIndex)
    c.publishSnapshot {
      metadata := {
        lastIncludedIndex := request.appliedIndex
        lastIncludedTerm := term
        storeRevision := request.storeRevision
        compactionRevision := request.compactionRevision
        membership := membership
        formatVersion := 1 }
      state := request.state
      checksum := crc32c request.state } none true [] []

/-! ## Receiving a snapshot -/

/-- `valid_shape` and the checksum test of `receive_snapshot`. -/
def Core.validShape (c : Core) (request : InstallSnapshotRequest) : Bool :=
  let metadata := request.metadata
  let voters := metadata.membership.voters.length
  let learners := metadata.membership.learners.length
  let encodedLimit := (c.maxSnapshotBytes - 68) / 8
  decide (voters ≤ c.maxSnapshotMembers ∧ learners ≤ c.maxSnapshotMembers
    ∧ voters ≤ c.maxSnapshotMembers - learners
    ∧ voters ≤ encodedLimit ∧ learners ≤ encodedLimit ∧ voters ≤ encodedLimit - learners
    ∧ request.totalSize ≤ c.maxSnapshotBytes
    ∧ request.transferId ≠ 0 ∧ request.offset = 0 ∧ request.done = true
    ∧ request.totalSize = request.chunk.length
    ∧ 68 + 8 * (voters + learners) + request.totalSize ≤ c.maxSnapshotBytes
    ∧ metadata.lastIncludedIndex ≠ 0 ∧ metadata.lastIncludedTerm ≠ 0
    ∧ metadata.lastIncludedTerm ≤ request.term ∧ metadata.formatVersion = 1
    ∧ 0 ≤ metadata.storeRevision ∧ 0 ≤ metadata.compactionRevision
    ∧ metadata.compactionRevision ≤ metadata.storeRevision
    ∧ crc32c request.chunk = request.stateChecksum)

/-- The membership test of `receive_snapshot`. -/
def Core.validMembership (c : Core) (m : ClusterMembership) : Bool :=
  decide (sortIds m.voters = c.expectedVoters ∧ 0 ∉ m.voters ++ m.learners
    ∧ m.voters.Pairwise (· ≤ ·) ∧ m.learners.Pairwise (· ≤ ·)
    ∧ (m.voters ++ m.learners).toFinset.card = m.voters.length + m.learners.length)

/-- The negative answer of `receive_snapshot`. -/
def Core.installRejection (c : Core) (sender : NodeId) (request : InstallSnapshotRequest) :
    Effect :=
  .sendInstallSnapshotResponse sender {
    term := c.state.persistent.currentTerm
    transferId := request.transferId
    succeeded := false
    readContext := request.readContext }

/-- Publish a snapshot that is ahead of the applied state. -/
def Core.publishReceived (c : Core) (sender : NodeId) (request : InstallSnapshotRequest)
    (r : StepResult) : Except Failure (Core × StepResult) :=
  let metadata := request.metadata
  if metadata.lastIncludedIndex ≤ c.state.volatileState.lastApplied then
    .ok (c, r.emit (c.installRejection sender request))
  else
    c.publishSnapshot ⟨metadata, request.chunk, request.stateChecksum⟩
      (some (sender, {
        term := c.state.persistent.currentTerm
        transferId := request.transferId
        succeeded := true
        lastIncludedIndex := metadata.lastIncludedIndex
        readContext := request.readContext })) false r.effects r.rules

/-- The receiver's side of an `InstallSnapshot` of the current term, once it follows the
sender: refuse it, acknowledge a snapshot it already has, or publish it. -/
def Core.acceptSnapshot (c : Core) (sender : NodeId) (request : InstallSnapshotRequest)
    (r : StepResult) : Except Failure (Core × StepResult) :=
  let metadata := request.metadata
  if c.validShape request = false ∨ c.validMembership metadata.membership = false then
    .ok (c, r.emit (c.installRejection sender request))
  else
    match c.durableSnapshot with
    | some durable =>
      if metadata.lastIncludedIndex ≤ durable.metadata.lastIncludedIndex then
        .ok (c, r.emit (.sendInstallSnapshotResponse sender {
          term := c.state.persistent.currentTerm
          transferId := request.transferId
          succeeded := metadata == durable.metadata && request.chunk == durable.state
          lastIncludedIndex := durable.metadata.lastIncludedIndex
          readContext := request.readContext }))
      else c.publishReceived sender request r
    | none => c.publishReceived sender request r

def Core.receiveSnapshot (c : Core) (sender : NodeId) (request : InstallSnapshotRequest) :
    Except Failure (Core × StepResult) :=
  if sender ∉ c.state.peers ∨ request.leader ≠ sender then
    .error ⟨.invalidArgument "InstallSnapshot sender is not its voting leader", c⟩
  else if request.term < c.state.persistent.currentTerm then
    .ok (c, { effects := [c.installRejection sender request] })
  else if c.state.persistent.currentTerm < request.term then
    { c with installAfterHardState := some (sender, request) }.transition
      (.observeTerm request.term)
  else if c.pendingSnapshot.isSome then
    .ok (c, { effects := [c.installRejection sender request] })
  else do
    let accepted : Figure2.StepResult := {
      state := { c.state with
        role := .follower
        leader := none
        votesReceived := ∅
        knownLeader := some sender }
      effects := [.resetElectionTimer] }
    let (c, r) ← c.translate accepted c.state.role
    c.acceptSnapshot sender request r

/-- The log after a snapshot is taken out of it, `compact_to`: the suffix after the snapshot
is kept when the entry (or the boundary) at its index has the snapshot's term. -/
def compactedLog (s : Figure2.State) (metadata : SnapshotMetadata) : List LogEntry :=
  let index := metadata.lastIncludedIndex
  let log := s.persistent.log
  if s.persistent.snapshot.any fun m => index = m.lastIncludedIndex then
    if s.persistent.snapshot.any fun m => m.lastIncludedTerm = metadata.lastIncludedTerm then log
    else []
  else if Figure2.base s < index then
    let offset := index - Figure2.base s - 1
    match log[offset]? with
    | some entry => if entry.term = metadata.lastIncludedTerm then log.drop (offset + 1) else []
    | none => []
  else []

def Core.compactTo (c : Core) (snapshot : RaftSnapshot) : Core :=
  let s := c.state
  let index := snapshot.metadata.lastIncludedIndex
  { c with
    state := { s with
      persistent := { s.persistent with
        log := compactedLog s snapshot.metadata
        snapshot := some snapshot.metadata }
      volatileState := {
        commitIndex := max s.volatileState.commitIndex index
        lastApplied := max s.volatileState.lastApplied index } }
    pendingApplication := c.pendingApplication.filter fun p => index < p.request.entry.index
    durableSnapshot := some snapshot }

def Core.installPersistedSnapshot (c : Core) (completion : PersistRaftSnapshot) :
    Except Failure (Core × StepResult) :=
  match c.pendingSnapshot with
  | none =>
    .error ⟨.invalidArgument "Raft snapshot completion does not match pending request", c⟩
  | some pending =>
    if completion.requestId ≠ pending.request.requestId
        ∨ completion.snapshot.metadata ≠ pending.request.snapshot.metadata
        ∨ completion.snapshot.state ≠ pending.request.snapshot.state then
      .error ⟨.invalidArgument "Raft snapshot completion does not match pending request", c⟩
    else
      let c := { c with pendingSnapshot := none }
      let snapshot :=
        { pending.request.snapshot with checksum := crc32c pending.request.snapshot.state }
      let index := snapshot.metadata.lastIncludedIndex
      match pending.localCreation, pending.reply with
      | false, some (replyTo, response) =>
        .ok ({ c with
            pendingSnapshotRestore :=
              some ⟨completion.requestId, snapshot, replyTo, response⟩ },
          { effects := [.restoreStateMachineSnapshot completion.requestId snapshot] })
      | false, none => .error ⟨.logicError "bad optional access", c⟩
      | true, _ =>
        .ok (c.compactTo snapshot,
          { effects := [.truncateRaftLogPrefix index, .raftSnapshotCreated index] })

def Core.completeSnapshotRestore (c : Core) (requestId : Nat) (index : Nat) :
    Except Failure (Core × StepResult) :=
  match c.pendingSnapshotRestore with
  | none =>
    .error ⟨.invalidArgument
      "Raft snapshot restore completion does not match pending restore", c⟩
  | some pending =>
    if requestId ≠ pending.requestId
        ∨ index ≠ pending.snapshot.metadata.lastIncludedIndex then
      .error ⟨.invalidArgument
        "Raft snapshot restore completion does not match pending restore", c⟩
    else
      .ok ({ c with pendingSnapshotRestore := none }.compactTo pending.snapshot,
        { effects := [.truncateRaftLogPrefix pending.snapshot.metadata.lastIncludedIndex,
            .sendInstallSnapshotResponse pending.replyTo pending.response] })

/-- Whether a response acknowledges the transfer recorded for its sender. -/
def Core.acknowledgesTransfer (c : Core) (sender : NodeId) (response : InstallSnapshotResponse) :
    Bool :=
  match c.snapshotTransfers.lookup sender with
  | none => false
  | some transfer =>
    transfer.transferId == response.transferId && transfer.term == response.term
      && transfer.index == response.lastIncludedIndex

def Core.receiveSnapshotResponse (c : Core) (sender : NodeId)
    (response : InstallSnapshotResponse) : Except Failure (Core × StepResult) :=
  if sender ∉ c.state.peers then
    .error ⟨.invalidArgument "InstallSnapshot response is from a non-peer", c⟩
  else if c.state.persistent.currentTerm < response.term then
    c.transition (.observeTerm response.term)
  else if c.state.role ≠ .leader ∨ response.term ≠ c.state.persistent.currentTerm
      ∨ response.succeeded = false
      ∨ c.durableSnapshot.map (·.metadata.lastIncludedIndex) ≠ some response.lastIncludedIndex
      ∨ c.acknowledgesTransfer sender response = false then
    .ok (c, {})
  else do
    let c := { c with snapshotTransfers := c.snapshotTransfers.filter fun t => t.1 ≠ sender }
    let synthetic : AppendEntriesResponse := {
      term := response.term
      succeeded := true
      matchedIndex := response.lastIncludedIndex
      readContext := response.readContext }
    let (c, result) ← c.transition (.receiveAppendEntriesResponse sender synthetic)
    let (c, result) := c.acknowledgeRead sender synthetic result
    let (c, resume) ← c.transition .heartbeatTimeout
    return (c, {
      rules := result.rules ++ resume.rules
      effects := result.effects ++ resume.effects })

/-! ## Validation of appends -/

/-- The loop of `validate_append_request` over the entries. -/
def validateEntries (term : Nat) : Nat → List LogEntry → Except Exn Unit
  | _, [] => .ok ()
  | previous, entry :: rest =>
    if previous = u64Max then .error (.overflowError "AppendEntries index exhausted")
    else if entry.index ≠ previous + 1 ∨ entry.term = 0 ∨ term < entry.term then
      .error (.invalidArgument "AppendEntries entries have invalid term/index ordering")
    else validateEntries term (previous + 1) rest

def validateAppendRequest (request : AppendEntriesRequest) : Except Exn Unit :=
  if request.term = 0 ∨ request.leader = 0 then
    .error (.invalidArgument "AppendEntries term and leader must be nonzero")
  else if request.previousLogIndex = 0 ∧ request.previousLogTerm ≠ 0 then
    .error (.invalidArgument "AppendEntries index zero must have term zero")
  else if request.previousLogIndex ≠ 0 ∧ request.previousLogTerm = 0 then
    .error (.invalidArgument "AppendEntries nonzero index must have a nonzero term")
  else validateEntries request.term request.previousLogIndex request.entries

/-! ## The step -/

/-- A snapshot completion: reads that became ready and the next application follow it. -/
def Core.afterSnapshot (x : Except Failure (Core × StepResult)) :
    Except Failure (Core × StepResult) := do
  let (c, r) ← x
  let (c, r) := c.completeReadyReads r
  c.scheduleApplication r

/-- Whether a completion or failure of an application matches the pending one. -/
def Core.matchesApplication (c : Core) (requestId : Nat) (index : Nat) : Bool :=
  c.pendingApplication.any fun p =>
    !p.blocked && p.request.requestId == requestId && p.request.entry.index == index

def Core.logEntryApplied (c : Core) (requestId : Nat) (index : Nat) :
    Except Failure (Core × StepResult) :=
  if c.matchesApplication requestId index = false then
    .error ⟨.invalidArgument "application completion does not match pending entry", c⟩
  else
    let s := { c.state with
      volatileState := { c.state.volatileState with lastApplied := index } }
    let (s, completed) : Figure2.State × List Effect :=
      match s.leader with
      | some leader =>
        if index ∈ leader.pendingClients then
          ({ s with
              leader := some { leader with pendingClients := leader.pendingClients.erase index } },
            [.completeClientCommand index])
        else (s, [])
      | none => (s, [])
    let (c, r) :=
      { c with state := s, pendingApplication := none }.completeReadyReads { effects := completed }
    c.scheduleApplication r

def Core.logEntryApplyFailed (c : Core) (requestId : Nat) (index : Nat) :
    Except Failure (Core × StepResult) :=
  if c.matchesApplication requestId index = false then
    .error ⟨.invalidArgument "application failure does not match pending entry", c⟩
  else
    .ok ({ c with
        pendingApplication := c.pendingApplication.map fun p => { p with blocked := true } },
      { effects := [.applicationBackpressured index] })

def Core.retryApplication (c : Core) : Except Failure (Core × StepResult) :=
  match c.pendingApplication with
  | some ⟨request, true⟩ =>
    if logRequestBase ≤ c.nextApplicationRequestId then
      .error ⟨.overflowError "Raft application request ID exhausted", c⟩
    else
      let request := { request with requestId := c.nextApplicationRequestId }
      .ok ({ c with
          nextApplicationRequestId := c.nextApplicationRequestId + 1
          pendingApplication := some { request := request } },
        { effects := [.applyLogEntry request] })
  | _ => .error ⟨.logicError "application retry requires a blocked entry", c⟩

def Core.raftLogPersisted (c : Core) (completion : PersistRaftLog) :
    Except Failure (Core × StepResult) :=
  match c.pendingLog with
  | none => .error ⟨.invalidArgument "unexpected Raft log persistence completion", c⟩
  | some pending =>
    if completion ≠ pending.request then
      .error ⟨.invalidArgument "Raft log completion does not match pending request", c⟩
    else do
      let (c, effects) ←
        { c with pendingLog := none }.replaceCompactedAppends pending.deferredEffects
      c.scheduleApplication { effects := effects }

def Core.raftHardStatePersisted (c : Core) (completion : PersistRaftHardState) :
    Except Failure (Core × StepResult) := do
  let (c, completed) ← c.transition (.raftHardStatePersisted completion)
  match c.installAfterHardState with
  | some (sender, request) =>
    if c.state.pendingHardState.isNone then
      let (c, continuation) ←
        { c with installAfterHardState := none }.receiveSnapshot sender request
      return (c, {
        rules := completed.rules ++ continuation.rules
        effects := completed.effects ++ continuation.effects })
    else return (c, completed)
  | none => return (c, completed)

def Core.electionDeadline (c : Core) (timerId : Nat) : Except Failure (Core × StepResult) :=
  if c.electionTimer ≠ some timerId then .ok (c, {})
  else { c with electionTimer := none, electionTimeout := none }.transition .electionTimeout

def Core.heartbeatDeadline (c : Core) (timerId : Nat) : Except Failure (Core × StepResult) :=
  if c.heartbeatTimer ≠ some timerId ∨ c.state.role ≠ .leader then .ok (c, {})
  else do
    let (c, result) ← { c with heartbeatTimer := none }.transition .heartbeatTimeout
    let (c, heartbeat) ← c.nextHeartbeat
    return (c, result.emit heartbeat)

/-- The inputs that reach the core only while no log write is outstanding. -/
def Core.stepUnblocked (c : Core) : Input → Except Failure (Core × StepResult)
  | .raftHardStatePersisted completion => c.raftHardStatePersisted completion
  | .createRaftSnapshot request => c.beginSnapshot request
  | .receiveInstallSnapshot sender request => c.receiveSnapshot sender request
  | .receiveInstallSnapshotResponse sender response => c.receiveSnapshotResponse sender response
  | .readIndexRequest requestId => c.beginRead requestId
  | .cancelReadIndex requestId => .ok (c.cancelRead requestId)
  | .timeoutReadIndex requestId => .ok (c.timeoutRead requestId)
  | .receiveAppendEntries sender request => do
    c.lift (validateAppendRequest request)
    c.transition (.receiveAppendEntries sender request)
  | .receiveAppendEntriesResponse sender response => do
    let (c, result) ← c.transition (.receiveAppendEntriesResponse sender response)
    return c.acknowledgeRead sender response result
  | .electionDeadline timerId => c.electionDeadline timerId
  | .heartbeatDeadline timerId => c.heartbeatDeadline timerId
  | .receiveRequestVote sender request => c.transition (.receiveRequestVote sender request)
  | .receiveRequestVoteResponse sender response =>
    c.transition (.receiveRequestVoteResponse sender response)
  | .receiveClientCommand command => c.transition (.receiveClientCommand command)
  | _ => .ok (c, {})

def Core.step (c : Core) (input : Input) : Except Failure (Core × StepResult) :=
  if c.started = false then .error ⟨.logicError "Raft election core has not started", c⟩
  else
    match input with
    | .raftSnapshotPersisted completion =>
      Core.afterSnapshot (c.installPersistedSnapshot completion)
    | .raftSnapshotRestored requestId index =>
      Core.afterSnapshot (c.completeSnapshotRestore requestId index)
    | input =>
      if c.pendingSnapshot.isSome ∨ c.pendingSnapshotRestore.isSome then
        .error ⟨.logicError
          "Raft core input is blocked on snapshot persistence/restore", c⟩
      else
        match input with
        | .logEntryApplied requestId index => c.logEntryApplied requestId index
        | .logEntryApplyFailed requestId index => c.logEntryApplyFailed requestId index
        | .retryApplication => c.retryApplication
        | .raftLogPersisted completion => c.raftLogPersisted completion
        | input =>
          if c.pendingLog.isSome then
            .error ⟨.logicError "Raft core input is blocked on log persistence", c⟩
          else c.stepUnblocked input

/-! ## Durable records -/

/-- The content of a durable record. -/
inductive Record where
  | hardState (state : RaftHardState)
  | log (log : List LogEntry)
  | applied (index : Nat)
  | snapshot (metadata : SnapshotMetadata) (state : List UInt8)
  deriving DecidableEq

/-- The record whose write an input reports as complete. -/
def Input.records : Input → List Record
  | .raftHardStatePersisted completion => [.hardState completion.state]
  | .raftLogPersisted completion => [.log completion.log]
  | .logEntryApplied _ index => [.applied index]
  | .raftSnapshotPersisted completion =>
    [.snapshot completion.snapshot.metadata completion.snapshot.state]
  | _ => []

/-! ## Runs of one core -/

/-- A call of `Core::step` that returned. -/
structure Call where
  before : Core
  input : Input
  result : StepResult
  after : Core

/-- The calls a core has accepted since it was built from `a` and started, oldest first. -/
inductive CoreRun (a : Recovery) : List Call → Core → Prop where
  | start {c₀ c : Core} {r : StepResult} (hm : Core.make a = .ok c₀)
      (hs : c₀.start = .ok (c, r)) : CoreRun a [] c
  | step {calls : List Call} {c c' : Core} {input : Input} {r : StepResult}
      (run : CoreRun a calls c) (h : c.step input = .ok (c', r)) :
      CoreRun a (calls ++ [⟨c, input, r, c'⟩]) c'

/-- Feed inputs to a core, as long as it accepts them. -/
def Core.exec (calls : List Call) (c : Core) : List Input → Option (List Call × Core)
  | [] => some (calls, c)
  | input :: rest =>
    match c.step input with
    | .ok (c', r) => Core.exec (calls ++ [⟨c, input, r, c'⟩]) c' rest
    | .error _ => none

/-- A core built from `a` accepts the inputs and then `input`, and the calls before the last
one and the last one satisfy `P`. -/
def Recovery.accepts (a : Recovery) (inputs : List Input) (input : Input)
    (P : List Call → Call → Bool) : Bool :=
  match Core.make a with
  | .ok c =>
    match c.start with
    | .ok (c, _) =>
      match Core.exec [] c inputs with
      | some (calls, c) =>
        match c.step input with
        | .ok (c', r) => P calls ⟨c, input, r, c'⟩
        | .error _ => false
      | none => false
    | .error _ => false
  | .error _ => false

/-- The log on disk after an input: the completion of a log write replaces it. -/
def Input.durableLog (log : List LogEntry) : Input → List LogEntry
  | .raftLogPersisted completion => completion.log
  | _ => log

/-- The log the disk holds: that of the last accepted `RaftLogPersisted`, or the recovered
one. -/
def confirmedLog (a : Recovery) (calls : List Call) : List LogEntry :=
  calls.foldl (fun log call => call.input.durableLog log) a.recoveredLog

/-- The hard states the disk has held: the recovered one and every confirmed one. -/
def confirmedHardStates (a : Recovery) (calls : List Call) : List RaftHardState :=
  a.recovered :: calls.filterMap fun call =>
    match call.input with
    | .raftHardStatePersisted completion => some completion.state
    | _ => none

end KuraMetadata.Election
