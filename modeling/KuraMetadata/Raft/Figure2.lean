import KuraMetadata.Raft.Types
import KuraMetadata.Library.Fields

/-! # The executable Figure 2 specification

`figure2_spec.cpp`: one Raft server as a pure transition function. `step` takes a state and
an event and returns the new state, the rules that fired and the ordered effects, or throws.
A handler of the source mutates a `StepResult&`; here it maps a `StepResult` to the next one.

Hard-state durability is part of the specification: `gateOnHardState` cuts the effect list
after the first `PersistRaftHardState` and keeps the rest in the state until the matching
completion arrives, and `step` refuses every other event in between. -/

namespace KuraMetadata.Figure2

inductive RuleId where
  | observeHigherTerm
  | applyCommitted
  | followerElectionTimeout
  | requestVoteRejectStale
  | requestVoteGrant
  | requestVoteDeny
  | appendEntriesRejectStale
  | appendEntriesRejectLogMismatch
  | appendEntriesAccept
  | appendEntriesAdvanceCommit
  | candidateStartElection
  | candidateRestartElection
  | candidateWinElection
  | candidateAcceptAppendEntries
  | leaderInitialize
  | leaderAppendClient
  | leaderReplicate
  | leaderRecordReplication
  | leaderRetryReplication
  | leaderAdvanceCommit
  | leaderHeartbeat
  deriving DecidableEq, Repr

structure VolatileState where
  commitIndex : Nat := 0
  lastApplied : Nat := 0
  deriving DecidableEq, Repr

structure PeerProgress where
  nextIndex : Nat := 1
  matchIndex : Nat := 0
  deriving DecidableEq, Repr

structure LeaderState where
  progress : List (NodeId × PeerProgress) := []
  pendingClients : Finset Nat := ∅
  deriving DecidableEq

inductive Event where
  | electionTimeout
  | heartbeatTimeout
  | applyCommitted
  | observeTerm (term : Nat)
  | receiveRequestVote (sender : NodeId) (request : RequestVoteRequest)
  | receiveRequestVoteResponse (sender : NodeId) (response : RequestVoteResponse)
  | receiveAppendEntries (sender : NodeId) (request : AppendEntriesRequest)
  | receiveAppendEntriesResponse (sender : NodeId) (response : AppendEntriesResponse)
  | receiveClientCommand (command : CommandEnvelope)
  | raftHardStatePersisted (completion : PersistRaftHardState)
  deriving DecidableEq

/-- The effects of a step. `persistState` is `PersistState{{PersistentField::log}}`, the only
value of that type the specification builds. -/
inductive Effect where
  | persistRaftHardState (request : PersistRaftHardState)
  | persistState
  | sendRequestVote (dest : NodeId) (request : RequestVoteRequest)
  | sendRequestVoteResponse (dest : NodeId) (response : RequestVoteResponse)
  | sendAppendEntries (dest : NodeId) (request : AppendEntriesRequest)
  | sendAppendEntriesResponse (dest : NodeId) (response : AppendEntriesResponse)
  | resetElectionTimer
  | applyCommand (index : Nat) (command : CommandEnvelope)
  | completeClientCommand (index : Nat)
  deriving DecidableEq

structure PendingHardStatePersistence where
  request : PersistRaftHardState
  deferredEffects : List Effect
  deriving DecidableEq

structure State where
  node : NodeId
  peers : List NodeId
  role : RaftRole := .follower
  persistent : PersistentRaftState := {}
  volatileState : VolatileState := {}
  knownLeader : Option NodeId := none
  votesReceived : Finset NodeId := ∅
  leader : Option LeaderState := none
  nextHardStateRequestId : Nat := 1
  pendingHardState : Option PendingHardStatePersistence := none
  deriving DecidableEq

structure StepResult where
  state : State
  rules : List RuleId := []
  effects : List Effect := []
  deriving DecidableEq

/-! ## Reading the log -/

/-- The index of the snapshot the log follows, zero without one. -/
def base (s : State) : Nat :=
  match s.persistent.snapshot with
  | some metadata => metadata.lastIncludedIndex
  | none => 0

def lastIndex (s : State) : Nat :=
  match s.persistent.log.getLast? with
  | some entry => entry.index
  | none => base s

def lastTerm (s : State) : Nat :=
  match s.persistent.log.getLast? with
  | some entry => entry.term
  | none =>
    match s.persistent.snapshot with
    | some metadata => metadata.lastIncludedTerm
    | none => 0

/-- `log.at(index - base - 1)`; an index that is not above the base wraps around and is as
far out of range as one beyond the end. -/
def entryAt (s : State) (index : Nat) : Except Exn LogEntry :=
  if index ≤ base s then .error (.outOfRange "vector::at")
  else
    match s.persistent.log[index - base s - 1]? with
    | some entry => .ok entry
    | none => .error (.outOfRange "vector::at")

def termAt (s : State) (index : Nat) : Except Exn Nat :=
  if index = 0 then .ok 0
  else
    match s.persistent.snapshot with
    | some metadata =>
      if index = metadata.lastIncludedIndex then .ok metadata.lastIncludedTerm
      else if index ≤ metadata.lastIncludedIndex then
        .error (.outOfRange "Raft log index was compacted")
      else (entryAt s index).map LogEntry.term
    | none => (entryAt s index).map LogEntry.term

def majority (s : State) : Nat := (s.peers.length + 1) / 2 + 1

def ensurePeer (s : State) (peer : NodeId) : Except Exn Unit :=
  if peer ∈ s.peers then .ok ()
  else .error (.invalidArgument "RPC sender is not a voting peer")

def isLogAtLeastAsUpToDate (s : State) (candidateLastTerm : Nat)
    (candidateLastIndex : Nat) : Bool :=
  lastTerm s < candidateLastTerm
    || (candidateLastTerm == lastTerm s && lastIndex s ≤ candidateLastIndex)

/-! ## The representation invariant

`validate` collects the messages of the violated clauses; `step` throws the first one. -/

/-- The loop over `state.peers`, with the set of the peers already seen. -/
def peerViolations (node : NodeId) : List NodeId → List NodeId → List String
  | _, [] => []
  | seen, peer :: rest =>
    (if peer = node then ["peer list contains the local node"] else [])
      ++ (if peer ∈ seen then ["peer list contains a duplicate"] else [])
      ++ peerViolations node (peer :: seen) rest

/-- The loop over the log; it stops at the first violation. -/
def logViolations (currentTerm : Nat) : Nat → List LogEntry → List String
  | _, [] => []
  | expected, entry :: rest =>
    if entry.index ≠ expected then ["log indexes must be contiguous after the snapshot"]
    else if currentTerm < entry.term then ["log entry term exceeds currentTerm"]
    else logViolations currentTerm (expected + 1) rest

/-- The loop over the peers of the leader-only state. The bound `end + 1` of `nextIndex` is a
64-bit sum, which is zero after the last index. -/
def progressViolations (progress : List (NodeId × PeerProgress)) (last : Nat) :
    List NodeId → List String
  | [] => []
  | peer :: rest =>
    (match progress.lookup peer with
      | none => ["leader progress is missing a peer"]
      | some p =>
        (if p.nextIndex < 1 ∨ (last + 1) % (u64Max + 1) < p.nextIndex then
          ["peer nextIndex is outside the log"] else [])
        ++ (if last < p.matchIndex ∨ p.nextIndex ≤ p.matchIndex then
          ["peer matchIndex/nextIndex is invalid"] else []))
      ++ progressViolations progress last rest

def leaderViolations (s : State) (leader : LeaderState) : List String :=
  (if leader.progress.length ≠ s.peers.length then
    ["leader progress does not cover every peer"] else [])
    ++ progressViolations leader.progress (lastIndex s) s.peers
    ++ List.replicate
        (leader.pendingClients.filter fun i => i = 0 ∨ lastIndex s < i).card
        "pending client index is outside the log"

def snapshotViolations (s : State) : List String :=
  match s.persistent.snapshot with
  | none => []
  | some metadata =>
    (if metadata.lastIncludedIndex = 0 then ["snapshot index must be nonzero"] else [])
      ++ (if metadata.lastIncludedTerm = 0
            ∨ s.persistent.currentTerm < metadata.lastIncludedTerm then
          ["snapshot term must be nonzero and not exceed currentTerm"] else [])

def validate (s : State) : List String :=
  peerViolations s.node [] s.peers
    ++ snapshotViolations s
    ++ (if s.volatileState.commitIndex < base s ∨ s.volatileState.lastApplied < base s then
        ["commit/apply index precedes the snapshot"] else [])
    ++ logViolations s.persistent.currentTerm (base s + 1) s.persistent.log
    ++ (if lastIndex s < s.volatileState.commitIndex then
        ["commitIndex exceeds the last log index"] else [])
    ++ (if s.volatileState.commitIndex < s.volatileState.lastApplied then
        ["lastApplied exceeds commitIndex"] else [])
    ++ (if s.role = .leader ∧ s.leader = none then
        ["leader role lacks leader-only state"] else [])
    ++ (if s.role ≠ .leader ∧ s.leader ≠ none then
        ["non-leader retains leader-only state"] else [])
    ++ (if s.role ≠ .candidate ∧ s.votesReceived ≠ ∅ then
        ["non-candidate retains received votes"] else [])
    ++ (if s.nextHardStateRequestId = 0 then ["next hard-state request ID is zero"] else [])
    ++ (match s.pendingHardState with
        | some pending =>
          if pending.request.requestId = 0 then ["pending hard-state request ID is zero"] else []
        | none => [])
    ++ List.replicate
        (s.votesReceived.filter fun voter => voter ≠ s.node ∧ voter ∉ s.peers).card
        "candidate has a vote from a non-peer"
    ++ (match s.leader with
        | some leader => leaderViolations s leader
        | none => [])

def ensureValid (s : State) (when_ : String) : Except Exn Unit :=
  match validate s with
  | [] => .ok ()
  | violation :: _ => .error (.invalidArgument (when_ ++ ": " ++ violation))

/-! ## Building a result -/

namespace StepResult

def rule (r : StepResult) (id : RuleId) : StepResult := { r with rules := r.rules ++ [id] }

def emit (r : StepResult) (effect : Effect) : StepResult :=
  { r with effects := r.effects ++ [effect] }

end StepResult

def hardState (s : State) : RaftHardState :=
  ⟨s.persistent.currentTerm, s.persistent.votedFor⟩

def persistHardState (r : StepResult) : Except Exn StepResult :=
  if r.state.nextHardStateRequestId = 0 ∨ r.state.nextHardStateRequestId = u64Max then
    .error (.overflowError "Raft hard-state request ID exhausted")
  else
    .ok { r with
      state := { r.state with nextHardStateRequestId := r.state.nextHardStateRequestId + 1 }
      effects := r.effects ++
        [.persistRaftHardState ⟨r.state.nextHardStateRequestId, hardState r.state⟩] }

/-- The request of a hard-state write. -/
def Effect.hardStateWrite? : Effect → Option PersistRaftHardState
  | .persistRaftHardState request => some request
  | _ => none

def gateOnHardState (r : StepResult) : Except Exn StepResult :=
  match r.effects.splitFirst Effect.hardStateWrite? with
  | none => .ok r
  | some (before, request, deferred) =>
    if r.state.pendingHardState.isSome then
      .error (.logicError "Raft hard-state persistence is already pending")
    else
      .ok { r with
        state := { r.state with pendingHardState := some ⟨request, deferred⟩ }
        effects := before ++ [.persistRaftHardState request] }

/-! ## Replication requests -/

def appendRequest (s : State) (peer : NodeId) (readContext : Option Nat) :
    Except Exn AppendEntriesRequest :=
  match s.leader.bind fun leader => leader.progress.lookup peer with
  | none => .error (.outOfRange "map::at")
  | some progress => do
    let next := max progress.nextIndex (base s + 1)
    let previous := next - 1
    let entries :=
      if next ≤ lastIndex s then s.persistent.log.drop (next - base s - 1) else []
    let previousTerm ← termAt s previous
    return {
      term := s.persistent.currentTerm
      leader := s.node
      previousLogIndex := previous
      previousLogTerm := previousTerm
      entries := entries
      leaderCommit := s.volatileState.commitIndex
      readContext := readContext }

def sendAppend (r : StepResult) (peer : NodeId) (readContext : Option Nat) :
    Except Exn StepResult := do
  let request ← appendRequest r.state peer readContext
  return (r.rule .leaderReplicate).emit (.sendAppendEntries peer request)

/-- `for (const auto peer : peers) send_append(result, peer);` -/
def sendAppends (r : StepResult) : List NodeId → Except Exn StepResult
  | [] => .ok r
  | peer :: rest => do
    let r ← sendAppend r peer none
    sendAppends r rest

/-! ## Elections -/

def initializeLeader (r : StepResult) : Except Exn StepResult :=
  if lastIndex r.state = u64Max then .error (.overflowError "Raft log index exhausted")
  else
    let next := lastIndex r.state + 1
    let s := { r.state with
      role := .leader
      votesReceived := ∅
      knownLeader := some r.state.node
      leader := some {
        progress := r.state.peers.map fun peer => (peer, { nextIndex := next, matchIndex := 0 }) } }
    sendAppends
      (({ r with state := s }.rule .candidateWinElection).rule .leaderInitialize) s.peers

def startElection (r : StepResult) : Except Exn StepResult :=
  if r.state.persistent.currentTerm = u64Max then .error (.overflowError "Raft term exhausted")
  else do
    let s := { r.state with
      persistent := { r.state.persistent with
        currentTerm := r.state.persistent.currentTerm + 1
        votedFor := some r.state.node }
      role := .candidate
      knownLeader := none
      leader := none
      votesReceived := {r.state.node} }
    let r ← persistHardState ({ r with state := s }.rule .candidateStartElection)
    let requests := r.state.peers.map fun peer =>
      Effect.sendRequestVote peer {
        term := r.state.persistent.currentTerm
        candidate := r.state.node
        lastLogIndex := lastIndex r.state
        lastLogTerm := lastTerm r.state }
    let r := { r with effects := r.effects ++ .resetElectionTimer :: requests }
    if majority r.state = 1 then initializeLeader r else return r

def observeHigherTerm (r : StepResult) (observed : Nat) : Except Exn StepResult :=
  if r.state.persistent.currentTerm < observed then
    persistHardState ({ r with
      state := { r.state with
        persistent := { r.state.persistent with currentTerm := observed, votedFor := none }
        role := .follower
        knownLeader := none
        votesReceived := ∅
        leader := none } }.rule .observeHigherTerm)
  else .ok r

/-- Whether the receiver may still vote for the candidate in its current term. -/
def canVote (s : State) (candidate : NodeId) : Bool :=
  s.persistent.votedFor == none || s.persistent.votedFor == some candidate

/-- The answer to a `RequestVote` that is not stale. -/
def answerVote (r : StepResult) (sender : NodeId) (request : RequestVoteRequest) :
    Except Exn StepResult :=
  let s := r.state
  if canVote s request.candidate
      && isLogAtLeastAsUpToDate s request.lastLogTerm request.lastLogIndex then do
    let granted := { r with
      state := { s with
        persistent := { s.persistent with votedFor := some request.candidate } } }.rule
          .requestVoteGrant
    let r ←
      if s.persistent.votedFor ≠ some request.candidate then persistHardState granted
      else .ok granted
    return (r.emit .resetElectionTimer).emit
      (.sendRequestVoteResponse sender ⟨r.state.persistent.currentTerm, true⟩)
  else
    .ok ((r.rule .requestVoteDeny).emit
      (.sendRequestVoteResponse sender ⟨s.persistent.currentTerm, false⟩))

def handleRequestVote (r : StepResult) (sender : NodeId) (request : RequestVoteRequest) :
    Except Exn StepResult := do
  ensurePeer r.state sender
  if request.candidate ≠ sender then
    .error (.invalidArgument "RequestVote sender does not match candidate")
  else
    let r ← observeHigherTerm r request.term
    if request.term < r.state.persistent.currentTerm then
      return (r.rule .requestVoteRejectStale).emit
        (.sendRequestVoteResponse sender ⟨r.state.persistent.currentTerm, false⟩)
    else answerVote r sender request

/-- Record a granted vote; a majority makes the candidate leader. -/
def recordVote (r : StepResult) (sender : NodeId) : Except Exn StepResult :=
  let s := { r.state with votesReceived := insert sender r.state.votesReceived }
  if majority s ≤ s.votesReceived.card then initializeLeader { r with state := s }
  else .ok { r with state := s }

def handleRequestVoteResponse (r : StepResult) (sender : NodeId)
    (response : RequestVoteResponse) : Except Exn StepResult := do
  ensurePeer r.state sender
  let r ← observeHigherTerm r response.term
  if r.state.role ≠ .candidate ∨ response.term ≠ r.state.persistent.currentTerm
      ∨ response.granted = false then
    return r
  else recordVote r sender

/-! ## Log replication -/

/-- What the scan of the incoming entries against the local log finds. -/
inductive Scan where
  /-- Every incoming entry is already present. -/
  | present
  /-- The scan ran off the end of the local log; the given entries are new. -/
  | extend (new : List LogEntry)
  /-- The entry at `index` has another term; the given entries replace the suffix from it. -/
  | replace (index : Nat) (new : List LogEntry)
  /-- The conflict lies in the committed prefix. -/
  | conflict

/-- The `while (incoming < entries.size())` loop of `handle_append_entries`. -/
def scanEntries (s : State) : List LogEntry → Except Exn Scan
  | [] => .ok .present
  | entry :: rest =>
    if lastIndex s < entry.index then .ok (.extend (entry :: rest))
    else do
      let term ← termAt s entry.index
      if term ≠ entry.term then
        if entry.index ≤ s.volatileState.commitIndex then return .conflict
        else return .replace entry.index (entry :: rest)
      else scanEntries s rest

/-- The log after the scan, and whether it changed. -/
def mergedLog (s : State) : Scan → Option (List LogEntry × Bool)
  | .present => some (s.persistent.log, false)
  | .extend new => some (s.persistent.log ++ new, true)
  | .replace index new => some (s.persistent.log.take (index - base s - 1) ++ new, true)
  | .conflict => none

/-- Whether the entries carry the indexes `expected`, `expected + 1`, and so on. -/
def contiguousFrom : Nat → List LogEntry → Bool
  | _, [] => true
  | expected, entry :: rest => entry.index == expected && contiguousFrom (expected + 1) rest

/-- The log-mismatch answer of `handle_append_entries`. -/
def rejectAppend (r : StepResult) (sender : NodeId) (request : AppendEntriesRequest) :
    StepResult :=
  (r.rule .appendEntriesRejectLogMismatch).emit
    (.sendAppendEntriesResponse sender
      ⟨r.state.persistent.currentTerm, false, 0, request.readContext⟩)

/-- Whether the previous entry of the request is in the local log. -/
def matchesPrevious (s : State) (request : AppendEntriesRequest) : Except Exn Bool :=
  if base s ≤ request.previousLogIndex ∧ request.previousLogIndex ≤ lastIndex s then do
    let term ← termAt s request.previousLogIndex
    return term == request.previousLogTerm
  else .ok false

/-- The follower's commit index after an accepted request. -/
def boundedCommit (commit : Nat) (request : AppendEntriesRequest) : Nat :=
  if commit < request.leaderCommit then
    let bounded :=
      min request.leaderCommit (request.previousLogIndex + request.entries.length)
    if commit < bounded then bounded else commit
  else commit

/-- The tail of `handle_append_entries`, from the accepted scan on. -/
def acceptAppend (r : StepResult) (sender : NodeId) (request : AppendEntriesRequest)
    (log : List LogEntry) (changed : Bool) : StepResult :=
  let commit := boundedCommit r.state.volatileState.commitIndex request
  let advanced := r.state.volatileState.commitIndex < commit
  { r with
    state := { r.state with
      persistent := { r.state.persistent with log := log }
      volatileState := { r.state.volatileState with commitIndex := commit } }
    rules := r.rules ++ [.appendEntriesAccept]
      ++ (if advanced then [.appendEntriesAdvanceCommit] else [])
    effects := r.effects ++ (if changed then [.persistState] else [])
      ++ [.sendAppendEntriesResponse sender
          ⟨r.state.persistent.currentTerm, true,
            request.previousLogIndex + request.entries.length, request.readContext⟩] }

/-- The receiver's side of an `AppendEntries` of the current term. -/
def receiveAppend (r : StepResult) (sender : NodeId) (request : AppendEntriesRequest) :
    Except Exn StepResult := do
  let matched ← matchesPrevious r.state request
  if matched = false then return rejectAppend r sender request
  else if contiguousFrom (request.previousLogIndex + 1) request.entries = false then
    .error (.invalidArgument "AppendEntries entries are not contiguous")
  else
    let scan ← scanEntries r.state request.entries
    match mergedLog r.state scan with
    | none => return rejectAppend r sender request
    | some (log, changed) => return acceptAppend r sender request log changed

/-- Become a follower of the sender and restart the election timer. -/
def followLeader (r : StepResult) (sender : NodeId) : StepResult :=
  { r with
    state := { r.state with
      role := .follower
      leader := none
      votesReceived := ∅
      knownLeader := some sender } }.emit .resetElectionTimer

def handleAppendEntries (r : StepResult) (sender : NodeId) (request : AppendEntriesRequest) :
    Except Exn StepResult := do
  ensurePeer r.state sender
  if request.leader ≠ sender then
    .error (.invalidArgument "AppendEntries sender does not match leader")
  else
    let wasCandidate := r.state.role == .candidate
    let r ← observeHigherTerm r request.term
    if request.term < r.state.persistent.currentTerm then
      return (r.rule .appendEntriesRejectStale).emit
        (.sendAppendEntriesResponse sender
          ⟨r.state.persistent.currentTerm, false, 0, request.readContext⟩)
    else
      let r := if wasCandidate then r.rule .candidateAcceptAppendEntries else r
      receiveAppend (followLeader r sender) sender request

/-- The replicas of an index: the leader itself and every peer whose `matchIndex` reaches it. -/
def replicated (leader : LeaderState) (candidate : Nat) : Nat :=
  1 + (leader.progress.filter fun p => candidate ≤ p.2.matchIndex).length

/-- The loop of `advance_leader_commit`: `candidate` runs from `commitIndex + n` down. -/
def commitCandidate (s : State) (leader : LeaderState) : Nat → Except Exn (Option Nat)
  | 0 => .ok none
  | n + 1 => do
    let candidate := s.volatileState.commitIndex + (n + 1)
    let term ← termAt s candidate
    if term = s.persistent.currentTerm ∧ majority s ≤ replicated leader candidate then
      return some candidate
    else commitCandidate s leader n

def advanceLeaderCommit (r : StepResult) : Except Exn StepResult :=
  match r.state.leader with
  | none => .error (.logicError "bad optional access")
  | some leader => do
    let found ← commitCandidate r.state leader
      (lastIndex r.state - r.state.volatileState.commitIndex)
    match found with
    | none => return r
    | some candidate =>
      return { r with
        state := { r.state with
          volatileState := { r.state.volatileState with commitIndex := candidate } } }.rule
            .leaderAdvanceCommit

/-- Overwrite the progress of a peer that is in the map. -/
def setProgress (progress : List (NodeId × PeerProgress)) (peer : NodeId) (p : PeerProgress) :
    List (NodeId × PeerProgress) :=
  progress.map fun q => if q.1 = peer then (peer, p) else q

/-- A successful response of the current term. -/
def recordReplication (r : StepResult) (leader : LeaderState) (sender : NodeId)
    (p : PeerProgress) (response : AppendEntriesResponse) : Except Exn StepResult :=
  if lastIndex r.state < response.matchedIndex then
    .error (.invalidArgument "matched index exceeds leader log")
  else
    let matched := max p.matchIndex response.matchedIndex
    let leader := { leader with
      progress := setProgress leader.progress sender ⟨matched + 1, matched⟩ }
    advanceLeaderCommit
      ({ r with state := { r.state with leader := some leader } }.rule .leaderRecordReplication)

/-- A failed response of the current term: walk `nextIndex` back and send again, with the
read context the response carries. -/
def retryReplication (r : StepResult) (leader : LeaderState) (sender : NodeId)
    (p : PeerProgress) (response : AppendEntriesResponse) : Except Exn StepResult :=
  let next := max (p.matchIndex + 1) (max 1 (p.nextIndex - 1))
  let leader := { leader with
    progress := setProgress leader.progress sender ⟨next, p.matchIndex⟩ }
  sendAppend
    ({ r with state := { r.state with leader := some leader } }.rule .leaderRetryReplication)
    sender response.readContext

def handleAppendEntriesResponse (r : StepResult) (sender : NodeId)
    (response : AppendEntriesResponse) : Except Exn StepResult := do
  ensurePeer r.state sender
  let r ← observeHigherTerm r response.term
  if r.state.role ≠ .leader ∨ response.term ≠ r.state.persistent.currentTerm then return r
  else
    match r.state.leader with
    | none => .error (.logicError "bad optional access")
    | some leader =>
      match leader.progress.lookup sender with
      | none => .error (.invalidArgument "AppendEntries response from non-peer")
      | some p =>
        if response.succeeded then recordReplication r leader sender p response
        else retryReplication r leader sender p response

/-! ## Application, clients and timers -/

def handleApply (r : StepResult) : Except Exn StepResult :=
  let s := r.state
  if s.volatileState.commitIndex ≤ s.volatileState.lastApplied then .ok r
  else do
    let index := s.volatileState.lastApplied + 1
    let entry ← entryAt s index
    let s := { s with volatileState := { s.volatileState with lastApplied := index } }
    let r := ({ r with state := s }.rule .applyCommitted).emit (.applyCommand index entry.command)
    match s.leader with
    | some leader =>
      if index ∈ leader.pendingClients then
        return { r with
          state := { s with
            leader := some { leader with pendingClients := leader.pendingClients.erase index } }
          }.emit (.completeClientCommand index)
      else return r
    | none => return r

def handleClient (r : StepResult) (command : CommandEnvelope) : Except Exn StepResult :=
  let s := r.state
  if s.role ≠ .leader then .ok r
  else if lastIndex s = u64Max then .error (.overflowError "Raft log index exhausted")
  else
    match s.leader with
    | none => .error (.logicError "bad optional access")
    | some leader => do
      let index := lastIndex s + 1
      let entry : LogEntry := ⟨s.persistent.currentTerm, index, command⟩
      let s := { s with
        persistent := { s.persistent with log := s.persistent.log ++ [entry] }
        leader := some { leader with pendingClients := insert index leader.pendingClients } }
      let r ← sendAppends
        (({ r with state := s }.rule .leaderAppendClient).emit .persistState) s.peers
      advanceLeaderCommit r

def handleTimeout (r : StepResult) : Except Exn StepResult :=
  match r.state.role with
  | .leader => sendAppends (r.rule .leaderHeartbeat) r.state.peers
  | .follower => startElection (r.rule .followerElectionTimeout)
  | .candidate => startElection (r.rule .candidateRestartElection)
  | .learner => .ok r

/-! ## The transition function -/

/-- The `std::visit` of `step`: the event's handler, before the durability gate. -/
def dispatch (r : StepResult) : Event → Except Exn StepResult
  | .electionTimeout => if r.state.role ≠ .leader then handleTimeout r else .ok r
  | .heartbeatTimeout => if r.state.role = .leader then handleTimeout r else .ok r
  | .applyCommitted => handleApply r
  | .observeTerm term => observeHigherTerm r term
  | .receiveRequestVote sender request => handleRequestVote r sender request
  | .receiveRequestVoteResponse sender response => handleRequestVoteResponse r sender response
  | .receiveAppendEntries sender request => handleAppendEntries r sender request
  | .receiveAppendEntriesResponse sender response =>
    handleAppendEntriesResponse r sender response
  | .receiveClientCommand command => handleClient r command
  | .raftHardStatePersisted completion =>
    match r.state.pendingHardState with
    | none => .error (.logicError "bad optional access")
    | some pending =>
      if completion = pending.request then
        .ok { r with
          state := { r.state with pendingHardState := none }
          effects := pending.deferredEffects }
      else
        .error (.invalidArgument "Raft hard-state completion does not match pending request")

def Event.isCompletion : Event → Bool
  | .raftHardStatePersisted _ => true
  | _ => false

def step (s : State) (event : Event) : Except Exn StepResult := do
  ensureValid s "invalid pre-state"
  if s.pendingHardState.isSome ∧ event.isCompletion = false then
    .error (.logicError "Raft core input is blocked on hard-state persistence")
  else if s.pendingHardState.isNone ∧ event.isCompletion then
    .error (.invalidArgument "unexpected Raft hard-state persistence completion")
  else
    let r ← dispatch { state := s } event
    let r ← gateOnHardState r
    ensureValid r.state "invalid post-state"
    return r

end KuraMetadata.Figure2
