import KuraMetadata.Raft.SimulationNode

/-! # A cluster of simulated nodes

The simulator of `raft_simulation.cpp` as a transition system. A run chooses freely what
happens next: a message that was sent is delivered, at any time and any number of times, or
never; a timer fires; an outstanding disk request completes; a node crashes, which loses
everything but its completed durable records, or restarts from them. This covers every choice
of the simulator's controls (delays, drops, duplicates, partitions, the scheduling seed), so
time and the controls themselves are not part of the state.

An exception out of a node ends a simulation (`SimulationFailure`); the transition function
returns it. -/

namespace KuraMetadata.Election

structure Envelope where
  source : NodeId
  dest : NodeId
  message : Message
  deriving DecidableEq

/-- A fixed cluster of odd size: its nodes and the configuration of each. The simulator
rejects duplicate nodes and the core rejects an even or too small cluster. -/
structure Topology where
  nodes : List NodeId
  config : NodeId → SimulationConfig
  nodup : nodes.Nodup
  odd : nodes.length % 2 = 1
  three_le : 3 ≤ nodes.length

def Topology.peers (τ : Topology) (n : NodeId) : List NodeId := τ.nodes.filter fun m => m ≠ n

/-- A node of the simulator. `adapter` is `none` while the node is down, and `outstanding`
holds the disk requests of the current generation that have not completed. -/
structure Host where
  adapter : Option SimulationNode
  durable : List DurableRecord := []
  outstanding : List DurableRecord := []

structure Cluster where
  hosts : NodeId → Host
  network : List Envelope := []

def Cluster.init (τ : Topology) : Cluster where
  hosts n := { adapter := some { expected := n, config := τ.config n } }

def Cluster.setHost (s : Cluster) (n : NodeId) (host : Host) : Cluster :=
  { s with hosts := fun m => if m = n then host else s.hosts m }

/-- The inputs a client or operator hands to the core of a running node. -/
inductive ClientInput where
  | command (envelope : CommandEnvelope)
  | read (requestId : RequestId)
  | cancelRead (requestId : RequestId)
  | timeoutRead (requestId : RequestId)
  | createSnapshot (request : CreateRaftSnapshot)
  deriving DecidableEq

def ClientInput.input : ClientInput → Input
  | .command envelope => .receiveClientCommand envelope
  | .read requestId => .readIndexRequest requestId
  | .cancelRead requestId => .cancelReadIndex requestId
  | .timeoutRead requestId => .timeoutReadIndex requestId
  | .createSnapshot request => .createRaftSnapshot request

inductive Action where
  | start (n : NodeId)
  | deliver (envelope : Envelope)
  | timer (n : NodeId) (timerId : Nat)
  | persisted (n : NodeId) (requestId : Nat)
  | submit (n : NodeId) (input : ClientInput)
  | crash (n : NodeId)
  | restart (n : NodeId)
  deriving DecidableEq

/-- The body of the loop of `process_actions`. -/
def Cluster.processAction (τ : Topology) (s : Cluster) (origin : NodeId) :
    NodeAction → Except Exn Cluster
  | .send dest message =>
    if dest ∈ τ.nodes then
      .ok { s with network := s.network ++ [⟨origin, dest, message⟩] }
    else .error (.invalidArgument "node is not in the topology")
  | .persist record =>
    let host := s.hosts origin
    if record.requestId ∈ host.outstanding.map DurableRecord.requestId then
      .error (.logicError "duplicate outstanding persistence request id")
    else .ok (s.setHost origin { host with outstanding := host.outstanding ++ [record] })
  | .setTimer _ _ => .ok s
  | .cancelTimer _ => .ok s

def Cluster.processActions (τ : Topology) (s : Cluster) (origin : NodeId) :
    List NodeAction → Except Exn Cluster
  | [] => .ok s
  | action :: rest => do
    let s ← s.processAction τ origin action
    s.processActions τ origin rest

/-- Put a node back after an event and carry out its actions. -/
def Cluster.finish (τ : Topology) (s : Cluster) (n : NodeId) (r : NodeStep) :
    Except Exn (Cluster × List Call) := do
  let s ← (s.setHost n { s.hosts n with adapter := some r.node }).processActions τ n r.actions
  return (s, r.calls)

/-- Hand an event to a node; a node that is down ignores it. -/
def Cluster.deliverEvent (τ : Topology) (s : Cluster) (n : NodeId) (event : NodeEvent) :
    Except Exn (Cluster × List Call) :=
  match (s.hosts n).adapter with
  | none => .ok (s, [])
  | some node => do
    let r ← node.step event
    s.finish τ n r

/-- A client input goes straight to the core of a node that is not waiting. -/
def SimulationNode.submit (node : SimulationNode) (input : ClientInput) : Except Exn NodeStep :=
  match node.core with
  | none => .error (.logicError "Raft election node has not started")
  | some core =>
    if core.waitingForPersistence then
      .error (.logicError "the node is waiting for persistence")
    else do
      let t ← Turn.call { core := core } input.input
      return { node := { node with core := some t.core }, actions := t.actions, calls := t.calls }

/-- One step of the cluster, and the calls of the acting node into its core. -/
def Cluster.step (τ : Topology) (s : Cluster) : Action → Except Exn (Cluster × List Call)
  | .start n =>
    if n ∈ τ.nodes then
      s.deliverEvent τ n (.start n (τ.peers n) (s.hosts n).durable)
    else .error (.invalidArgument "node is not in the topology")
  | .deliver envelope =>
    if envelope ∈ s.network then
      s.deliverEvent τ envelope.dest (.message envelope.source envelope.message)
    else .error (.invalidArgument "event is not pending")
  | .timer n timerId => s.deliverEvent τ n (.timer timerId)
  | .persisted n requestId =>
    let host := s.hosts n
    match host.outstanding.find? fun r => r.requestId = requestId with
    | none => .error (.invalidArgument "event is not pending")
    | some record =>
      (s.setHost n { host with
        durable := host.durable ++ [record]
        outstanding := host.outstanding.erase record }).deliverEvent τ n (.persisted requestId)
  | .submit n input =>
    match (s.hosts n).adapter with
    | none => .ok (s, [])
    | some node => do
      let r ← node.submit input
      s.finish τ n r
  | .crash n =>
    if (s.hosts n).adapter.isNone then .error (.logicError "node is already crashed")
    else .ok (s.setHost n { s.hosts n with adapter := none, outstanding := [] }, [])
  | .restart n =>
    if (s.hosts n).adapter.isSome then .error (.logicError "node is already running")
    else
      .ok (s.setHost n { s.hosts n with
        adapter := some { expected := n, config := τ.config n } }, [])

/-- The node an action happens at. -/
def Action.node : Action → NodeId
  | .start n => n
  | .deliver envelope => envelope.dest
  | .timer n _ => n
  | .persisted n _ => n
  | .submit n _ => n
  | .crash n => n
  | .restart n => n

/-! ## Runs -/

/-- One step of a run: what happened, and the calls it made. -/
structure Moment where
  action : Action
  pre : Cluster
  calls : List Call
  post : Cluster

/-- The steps of a run from the initial cluster to `s`, oldest first. -/
inductive Run (τ : Topology) : List Moment → Cluster → Prop where
  | init : Run τ [] (Cluster.init τ)
  | step {moments : List Moment} {s s' : Cluster} {action : Action} {calls : List Call}
      (run : Run τ moments s) (h : s.step τ action = .ok (s', calls)) :
      Run τ (moments ++ [⟨action, s, calls, s'⟩]) s'

/-- Carry out a list of actions. -/
def Cluster.exec (τ : Topology) (moments : List Moment) (s : Cluster) :
    List Action → Option (List Moment × Cluster)
  | [] => some (moments, s)
  | action :: rest =>
    match s.step τ action with
    | .error _ => none
    | .ok (s', calls) => s'.exec τ (moments ++ [⟨action, s, calls, s'⟩]) rest

/-! ## Scripted runs

A script is a list of cues, each an action or the delivery of the `k`-th message sent so far.
Playing a script from the initial cluster gives a run (`Run.of_play`), so a run with a property
that can be evaluated exists as soon as a script shows it. -/

inductive Cue where
  | act (action : Action)
  | deliver (k : Nat)

def Cue.action? (s : Cluster) : Cue → Option Action
  | .act action => some action
  | .deliver k => s.network[k]?.map .deliver

/-- Play a script. -/
def Cluster.play (τ : Topology) (moments : List Moment) (s : Cluster) :
    List Cue → Option (List Moment × Cluster)
  | [] => some (moments, s)
  | cue :: rest =>
    match cue.action? s with
    | none => none
    | some action =>
      match s.exec τ moments [action] with
      | none => none
      | some (moments, s) => s.play τ moments rest

section

variable {τ : Topology} {moments moments' : List Moment} {s s' : Cluster}

theorem Run.exec (run : Run τ moments s) {actions : List Action}
    (h : s.exec τ moments actions = some (moments', s')) : Run τ moments' s' := by
  induction actions generalizing moments s with
  | nil =>
    cases h
    exact run
  | cons action rest ih =>
    simp only [Cluster.exec] at h
    split at h
    case h_1 => cases h
    case h_2 hs => exact ih (run.step hs) h

theorem Run.play (run : Run τ moments s) {script : List Cue}
    (h : s.play τ moments script = some (moments', s')) : Run τ moments' s' := by
  induction script generalizing moments s with
  | nil =>
    cases h
    exact run
  | cons cue rest ih =>
    simp only [Cluster.play] at h
    split at h
    case h_1 => cases h
    case h_2 action _ =>
      split at h
      case h_1 => cases h
      case h_2 hx => exact ih (run.exec hx) h

/-- A script that ends in a cluster with the property `P` gives a run that does. -/
theorem Run.of_play {script : List Cue} {P : List Moment → Cluster → Bool}
    (h : ((Cluster.init τ).play τ [] script).any (fun r => P r.1 r.2) = true) :
    ∃ moments s, Run τ moments s ∧ P moments s = true := by
  cases hr : (Cluster.init τ).play τ [] script with
  | none => simp [hr] at h
  | some r => exact ⟨r.1, r.2, Run.init.play hr, by simpa [hr] using h⟩

end

/-! ## Two runs -/

def Cue.start (n : NodeId) : Cue := .act (.start n)
def Cue.timer (n : NodeId) (timerId : Nat) : Cue := .act (.timer n timerId)
def Cue.persisted (n : NodeId) (requestId : Nat) : Cue := .act (.persisted n requestId)
def Cue.submit (n : NodeId) (input : ClientInput) : Cue := .act (.submit n input)

/-- Three nodes with the default configuration. -/
def trio : Topology where
  nodes := [1, 2, 3]
  config _ := {}
  nodup := by decide
  odd := by decide
  three_le := by decide

def quintet : Topology where
  nodes := [1, 2, 3, 4, 5]
  config _ := {}
  nodup := by decide
  odd := by decide
  three_le := by decide

/-- The client command with the given sequence number. -/
def clientCommand (sequence : Nat) : CommandEnvelope := ⟨⟨1, sequence⟩, 0, []⟩

/-- Node 1 leads term 1 of the trio and commits one command, with the help of node 2. -/
def replicated : List Cue :=
  [.start 1, .start 2, .start 3,
    -- The vote of node 2 elects node 1.
    .timer 1 1, .persisted 1 1, .deliver 0, .persisted 2 1, .persisted 2 2, .deliver 2,
    .submit 1 (.command (clientCommand 1)), .persisted 1 logRequestBase,
    .deliver 5, .persisted 2 logRequestBase, .deliver 7]

/-- Both nodes apply the command; then node 2 leads term 2 with the vote of node 3. -/
def handedOver : List Cue :=
  replicated ++ [.persisted 1 applicationRequestBase,
    .timer 1 3, .deliver 8, .persisted 2 applicationRequestBase,
    .timer 2 4, .persisted 2 3, .deliver 12, .persisted 3 1, .persisted 3 2, .deliver 13]

/-- Node 1 leads term 1 of the quintet and node 2 acknowledges its entry; then node 3 leads
term 2 with the votes of 4 and 5 and replaces the entry at node 2. Node 1 hears of none of
this. -/
def overtaken : List Cue :=
  [.start 1, .start 2, .start 3, .start 4, .start 5,
    .timer 1 1, .persisted 1 1, .deliver 0, .persisted 2 1, .persisted 2 2,
    .deliver 1, .persisted 3 1, .persisted 3 2, .deliver 4, .deliver 5,
    .submit 1 (.command (clientCommand 1)), .persisted 1 logRequestBase,
    .deliver 10, .persisted 2 logRequestBase, .deliver 14,
    .timer 3 2, .persisted 3 3, .deliver 17, .persisted 4 1, .persisted 4 2,
    .deliver 18, .persisted 5 1, .persisted 5 2, .deliver 19, .deliver 20,
    .submit 3 (.command (clientCommand 2)), .persisted 3 logRequestBase,
    .deliver 26, .persisted 2 3, .persisted 2 (logRequestBase + 1)]

end KuraMetadata.Election
