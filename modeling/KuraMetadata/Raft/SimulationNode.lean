import KuraMetadata.Raft.CoreStep

/-! # The simulated Raft node

`SimulationNode` of `raft_election.cpp` is the adapter that runs a `Core` under the simulator.
It maps the effects of the core to simulator actions and simulator events to inputs, and it
queues every event but a persistence completion while the core waits for one. Messages and
durable records are kept decoded; the observers of the configuration, which nothing reads, are
left out.

Besides the actions the model returns the calls the adapter made into the core, so that a run
can speak about every input the core accepted. -/

namespace KuraMetadata.Election

/-! ## Events, actions and durable records -/

structure DurableRecord where
  requestId : Nat
  record : Record
  deriving DecidableEq

inductive NodeEvent where
  | start (self : NodeId) (peers : List NodeId) (durableRecords : List DurableRecord)
  | message (sender : NodeId) (message : Message)
  | timer (timerId : Nat)
  | persisted (requestId : Nat)
  deriving DecidableEq

inductive NodeAction where
  | send (dest : NodeId) (message : Message)
  | persist (record : DurableRecord)
  | setTimer (timerId delay : Nat)
  | cancelTimer (timerId : Nat)
  deriving DecidableEq

structure SimulationConfig where
  timeouts : TimeoutRange := {}
  seed : Nat := 0
  mixNodeIdIntoSeed : Bool := true
  heartbeatInterval : Nat := 2
  commandsOnLeadership : List CommandEnvelope := []
  readsOnLeadership : List RequestId := []
  snapshotsOnApply : List CreateRaftSnapshot := []
  maxPendingReads : Nat := 128
  maxReadHistory : Nat := 4096

structure SimulationNode where
  expected : NodeId
  config : SimulationConfig
  core : Option Core := none
  queued : List NodeEvent := []
  nextLeaderCommand : Nat := 0
  nextReadRequest : Nat := 0
  nextSnapshot : Nat := 0

/-! ## Translating effects -/

/-- The simulator action of an effect, if it has one. -/
def Effect.action? : Effect → Option NodeAction
  | .persistRaftHardState request => some (.persist ⟨request.requestId, .hardState request.state⟩)
  | .persistRaftLog request => some (.persist ⟨request.requestId, .log request.log⟩)
  | .persistRaftSnapshot request =>
    some (.persist ⟨request.requestId,
      .snapshot request.snapshot.metadata request.snapshot.state⟩)
  | .applyLogEntry request => some (.persist ⟨request.requestId, .applied request.entry.index⟩)
  | .sendRequestVote dest request => some (.send dest (.requestVote request))
  | .sendRequestVoteResponse dest response => some (.send dest (.requestVoteResponse response))
  | .sendAppendEntries dest request => some (.send dest (.appendEntries request))
  | .sendAppendEntriesResponse dest response =>
    some (.send dest (.appendEntriesResponse response))
  | .sendInstallSnapshot dest request => some (.send dest (.installSnapshot request))
  | .sendInstallSnapshotResponse dest response =>
    some (.send dest (.installSnapshotResponse response))
  | .resetElectionDeadline timerId delay => some (.setTimer timerId delay)
  | .cancelElectionDeadline timerId => some (.cancelTimer timerId)
  | .resetHeartbeatDeadline timerId delay => some (.setTimer timerId delay)
  | .cancelHeartbeatDeadline timerId => some (.cancelTimer timerId)
  | _ => none

/-- The completion the adapter feeds back for a `RestoreStateMachineSnapshot`. -/
def Effect.restored? : Effect → Option Input
  | .restoreStateMachineSnapshot requestId snapshot =>
    some (.raftSnapshotRestored requestId snapshot.metadata.lastIncludedIndex)
  | _ => none

/-- A node in the middle of an event: its core, what it has asked the simulator for, and the
calls it has made. -/
structure Turn where
  core : Core
  actions : List NodeAction := []
  calls : List Call := []

/-- `core_->step(input)` together with the actions of its effects. -/
def Turn.callCore (t : Turn) (input : Input) : Except Exn (Turn × StepResult) :=
  match t.core.step input with
  | .error failure => .error failure.error
  | .ok (core, result) =>
    .ok ({ core := core
           actions := t.actions ++ result.effects.filterMap Effect.action?
           calls := t.calls ++ [⟨t.core, input, result, core⟩] }, result)

/-- Feed a list of completions to the core. -/
def Turn.callAll (t : Turn) : List Input → Except Exn Turn
  | [] => .ok t
  | input :: rest => do
    let (t, _) ← t.callCore input
    t.callAll rest

/-- `translate(core_->step(input))`: the state machine restores at once, so every restore
among the effects is completed before the adapter returns. The completion of a restore never
asks for another one, which is where the recursion of the source ends. -/
def Turn.call (t : Turn) (input : Input) : Except Exn Turn := do
  let (t, result) ← t.callCore input
  t.callAll (result.effects.filterMap Effect.restored?)

/-! ## Recovery -/

def validateRecoveredTransition (previous next : RaftHardState) : Except Exn Unit :=
  if next.currentTerm < previous.currentTerm
      ∨ (next.currentTerm = 0 ∧ next.votedFor.isSome) then
    .error (.invalidArgument "invalid simulated Raft hard-state term")
  else if next.currentTerm = previous.currentTerm ∧ previous.votedFor.isSome
      ∧ next.votedFor ≠ previous.votedFor then
    .error (.invalidArgument "simulated Raft vote changed in one term")
  else .ok ()

/-- What the durable records of a node add up to. -/
structure Recovered where
  hardState : RaftHardState := {}
  log : List LogEntry := []
  applied : Nat := 0
  snapshot : Option RaftSnapshot := none

/-- The body of the loop of `handle_start` over the durable records. -/
def Recovered.read (r : Recovered) : Record → Except Exn Recovered
  | .hardState state => do
    validateRecoveredTransition r.hardState state
    return { r with hardState := state }
  | .log log => .ok { r with log := log }
  | .applied index =>
    if index < r.applied then
      .error (.invalidArgument "simulated applied index regressed")
    else .ok { r with applied := index }
  | .snapshot metadata state =>
    if r.snapshot.any fun s => metadata.lastIncludedIndex ≤ s.metadata.lastIncludedIndex then
      .error (.invalidArgument "simulated Raft snapshot regressed")
    else .ok { r with snapshot := some ⟨metadata, state, crc32c state⟩ }

def Recovered.readAll (r : Recovered) : List DurableRecord → Except Exn Recovered
  | [] => .ok r
  | record :: rest => do
    let r ← r.read record.record
    r.readAll rest

/-- The seed of the core of a node. -/
def SimulationConfig.nodeSeed (config : SimulationConfig) (self : NodeId) : Nat :=
  if config.mixNodeIdIntoSeed then
    config.seed ^^^ (self * 0x9e3779b97f4a7c15 % 18446744073709551616)
  else config.seed

/-- The constructor arguments `handle_start` builds from the records it has read. -/
def SimulationConfig.recovery (config : SimulationConfig) (self : NodeId) (peers : List NodeId)
    (r : Recovered) : Recovery where
  self := self
  peers := peers
  recovered := r.hardState
  seed := config.nodeSeed self
  timeouts := config.timeouts
  recoveredLog := r.log
  heartbeatInterval := config.heartbeatInterval
  recoveredApplied := r.applied
  maxPendingReads := config.maxPendingReads
  maxReadHistory := config.maxReadHistory
  recoveredSnapshot := r.snapshot

/-- The core `handle_start` builds from the durable records, not yet started. -/
def SimulationConfig.rebuild (config : SimulationConfig) (self : NodeId) (peers : List NodeId)
    (records : List DurableRecord) : Except Exn Core := do
  let r ← Recovered.readAll {} records
  Core.make (config.recovery self peers r)

def SimulationNode.handleStart (node : SimulationNode) (self : NodeId) (peers : List NodeId)
    (records : List DurableRecord) : Except Exn (SimulationNode × List NodeAction) :=
  if node.core.isSome ∨ self ≠ node.expected then
    .error (.invalidArgument "invalid Raft election start event")
  else do
    let core ← node.config.rebuild self peers records
    match core.start with
    | .error failure => .error failure.error
    | .ok (core, result) =>
      return ({ node with core := some core }, result.effects.filterMap Effect.action?)

/-! ## Running -/

/-- The input a peer message becomes. -/
def Input.ofMessage (sender : NodeId) : Message → Input
  | .requestVote request => .receiveRequestVote sender request
  | .requestVoteResponse response => .receiveRequestVoteResponse sender response
  | .appendEntries request => .receiveAppendEntries sender request
  | .appendEntriesResponse response => .receiveAppendEntriesResponse sender response
  | .installSnapshot request => .receiveInstallSnapshot sender request
  | .installSnapshotResponse response => .receiveInstallSnapshotResponse sender response

/-- The completion of the pending request with the given identifier: the log, the snapshot,
the hard state and the application are tried in this order. -/
def Core.completion? (c : Core) (requestId : Nat) : Option Input :=
  if let some pending := c.pendingLog.filter fun p => p.request.requestId = requestId then
    some (.raftLogPersisted ⟨requestId, pending.request.log⟩)
  else if let some pending := c.pendingSnapshot.filter fun p => p.request.requestId = requestId then
    some (.raftSnapshotPersisted ⟨requestId, pending.request.snapshot⟩)
  else if let some pending :=
      c.state.pendingHardState.filter fun p => p.request.requestId = requestId then
    some (.raftHardStatePersisted ⟨requestId, pending.request.state⟩)
  else if let some pending :=
      c.pendingApplication.filter fun p => p.request.requestId = requestId then
    some (.logEntryApplied requestId pending.request.entry.index)
  else none

def Turn.handleRunning (t : Turn) : NodeEvent → Except Exn Turn
  | .message sender message => t.call (.ofMessage sender message)
  | .timer timerId =>
    if t.core.heartbeatTimer = some timerId then t.call (.heartbeatDeadline timerId)
    else t.call (.electionDeadline timerId)
  | .persisted requestId =>
    match t.core.completion? requestId with
    | some input => t.call input
    | none => .error (.invalidArgument "unexpected simulated persistence completion")
  | .start _ _ _ => .error (.invalidArgument "duplicate Raft election start event")

/-- The loop of `step` over the queued events; returns those still queued. -/
def Turn.drain (t : Turn) : List NodeEvent → Except Exn (Turn × List NodeEvent)
  | [] => .ok (t, [])
  | event :: rest =>
    if t.core.waitingForPersistence then .ok (t, event :: rest)
    else do
      let t ← t.handleRunning event
      t.drain rest

/-- Propose the next configured command of a leader. -/
def Turn.propose (t : Turn) (config : SimulationConfig) (next : Nat) : Except Exn (Turn × Nat) :=
  match config.commandsOnLeadership[next]? with
  | some command =>
    if t.core.state.role = .leader ∧ t.core.waitingForPersistence = false then do
      let t ← t.call (.receiveClientCommand command)
      return (t, next + 1)
    else .ok (t, next)
  | none => .ok (t, next)

/-- Create the next configured snapshot once its index is the applied one. -/
def Turn.createSnapshot (t : Turn) (config : SimulationConfig) (next : Nat) :
    Except Exn (Turn × Nat) :=
  let s := t.core.state
  match config.snapshotsOnApply[next]? with
  | some request =>
    if t.core.waitingForPersistence = false
        ∧ request.appliedIndex = s.volatileState.lastApplied
        ∧ s.persistent.snapshot.all fun m => m.lastIncludedIndex < s.volatileState.lastApplied
    then do
      let t ← t.call (.createRaftSnapshot request)
      return (t, next + 1)
    else .ok (t, next)
  | none => .ok (t, next)

/-- `current_term_committed` of `SimulationNode::step`. -/
def currentTermCommitted (s : Figure2.State) : Except Exn Bool :=
  let commit := s.volatileState.commitIndex
  if commit = 0 then .ok false
  else
    match s.persistent.snapshot with
    | some metadata =>
      if commit = metadata.lastIncludedIndex then
        .ok (metadata.lastIncludedTerm == s.persistent.currentTerm)
      else (Figure2.entryAt s commit).map fun e => e.term == s.persistent.currentTerm
    | none => (Figure2.entryAt s commit).map fun e => e.term == s.persistent.currentTerm

/-- Issue the next configured read of a leader that has committed in its term. -/
def Turn.read (t : Turn) (config : SimulationConfig) (next : Nat) : Except Exn (Turn × Nat) := do
  let committed ← currentTermCommitted t.core.state
  match config.readsOnLeadership[next]? with
  | some request =>
    if t.core.state.role = .leader ∧ t.core.waitingForPersistence = false ∧ committed then do
      let t ← t.call (.readIndexRequest request)
      return (t, next + 1)
    else return (t, next)
  | none => return (t, next)

/-- What an event does to a node: the node after it, its actions and its calls. -/
structure NodeStep where
  node : SimulationNode
  actions : List NodeAction := []
  calls : List Call := []

/-- `SimulationNode::step` for an event the node does not queue. -/
def SimulationNode.run (node : SimulationNode) (core : Core) (event : NodeEvent) :
    Except Exn NodeStep := do
  let t ← Turn.handleRunning { core := core } event
  let (t, queued) ← t.drain node.queued
  let (t, nextLeaderCommand) ← t.propose node.config node.nextLeaderCommand
  let (t, nextSnapshot) ← t.createSnapshot node.config node.nextSnapshot
  let (t, nextReadRequest) ← t.read node.config node.nextReadRequest
  return {
    node := { node with
      core := some t.core
      queued := queued
      nextLeaderCommand := nextLeaderCommand
      nextSnapshot := nextSnapshot
      nextReadRequest := nextReadRequest }
    actions := t.actions
    calls := t.calls }

def NodeEvent.isPersisted : NodeEvent → Bool
  | .persisted _ => true
  | _ => false

def SimulationNode.step (node : SimulationNode) (event : NodeEvent) : Except Exn NodeStep :=
  match event with
  | .start self peers records => do
    let (node, actions) ← node.handleStart self peers records
    return { node := node, actions := actions }
  | event =>
    match node.core with
    | none => .error (.logicError "Raft election node has not started")
    | some core =>
      if core.waitingForPersistence ∧ event.isPersisted = false then
        .ok { node := { node with queued := node.queued ++ [event] } }
      else node.run core event

end KuraMetadata.Election
