import KuraMetadata.Raft.Figure2.Gate
import KuraMetadata.Raft.Core.Steps

/-! # A step of the core as a sequence of moves

An accepted input makes the core go through a few elementary moves: a step of the
specification, the start of an application or of a snapshot, a completion, and changes of
timers and reads that no safety property looks at. `Core.step_moves` takes a step apart; an
invariant of the core is then proved move by move (`Moves.induction`). -/

namespace KuraMetadata.Election

open Election.Core List
open Figure2 (base Contiguous Held)

variable {input : Input} {event : Figure2.Event}

/-! ## Guards -/

/-- Nothing but the hard state is outstanding. -/
structure Core.Unblocked (c : Core) : Prop where
  log : c.pendingLog = none
  snapshot : c.pendingSnapshot = none
  restore : c.pendingSnapshotRestore = none

/-- A hard-state or log write is outstanding. -/
def Core.writing (c : Core) : Bool := c.state.pendingHardState.isSome || c.pendingLog.isSome

/-- The input completes an application or a snapshot while a write is outstanding and
committed entries remain to be applied after it. -/
def Core.appliesEarly (c : Core) : Input → Bool
  | .logEntryApplied _ index => c.writing && index < c.state.volatileState.commitIndex
  | .raftSnapshotPersisted _ =>
    c.writing && c.state.volatileState.lastApplied < c.state.volatileState.commitIndex
  | .raftSnapshotRestored _ index => c.writing && index < c.state.volatileState.commitIndex
  | _ => false

/-- The input is a snapshot message that arrives while a hard-state write is outstanding. -/
def Core.installsEarly (c : Core) : Input → Bool
  | .receiveInstallSnapshot _ _ => c.state.pendingHardState.isSome
  | _ => false

/-- The order in which a core waits for its disk. -/
structure Core.Orderly (c : Core) : Prop where
  peers : c.state.peers ≠ []
  contiguous : Contiguous (base c.state + 1) c.state.persistent.log
  held : Held c.state
  /-- A snapshot of a later term waits for the write of that term, and nothing else does. -/
  install : ∀ x, c.installAfterHardState = some x →
    ∃ p, c.state.pendingHardState = some p ∧ p.deferredEffects = []
  /-- While the log is being written nothing else is. -/
  writing : ∀ p, c.pendingLog = some p → c.state.pendingHardState = none ∧
    c.pendingSnapshot = none ∧ c.pendingSnapshotRestore = none
  exclusive : c.pendingSnapshot = none ∨ c.pendingSnapshotRestore = none

/-- The events of the specification an input can turn into, completions apart. -/
inductive Input.Causes : Input → Figure2.Event → Prop where
  | electionDeadline (timerId : Nat) : Causes (.electionDeadline timerId) .electionTimeout
  | heartbeatDeadline (timerId : Nat) : Causes (.heartbeatDeadline timerId) .heartbeatTimeout
  | readIndexRequest (requestId : RequestId) :
      Causes (.readIndexRequest requestId) .heartbeatTimeout
  | requestVote (sender : NodeId) (request : RequestVoteRequest) :
      Causes (.receiveRequestVote sender request) (.receiveRequestVote sender request)
  | requestVoteResponse (sender : NodeId) (response : RequestVoteResponse) :
      Causes (.receiveRequestVoteResponse sender response)
        (.receiveRequestVoteResponse sender response)
  | appendEntries (sender : NodeId) (request : AppendEntriesRequest)
      (h : validateAppendRequest request = .ok ()) :
      Causes (.receiveAppendEntries sender request) (.receiveAppendEntries sender request)
  | appendEntriesResponse (sender : NodeId) (response : AppendEntriesResponse) :
      Causes (.receiveAppendEntriesResponse sender response)
        (.receiveAppendEntriesResponse sender response)
  | clientCommand (command : CommandEnvelope) :
      Causes (.receiveClientCommand command) (.receiveClientCommand command)
  | installTerm (sender : NodeId) (response : InstallSnapshotResponse) :
      Causes (.receiveInstallSnapshotResponse sender response) (.observeTerm response.term)
  | installed (sender : NodeId) (response : InstallSnapshotResponse)
      (h : response.succeeded = true) :
      Causes (.receiveInstallSnapshotResponse sender response)
        (.receiveAppendEntriesResponse sender (syntheticResponse response))
  | resume (sender : NodeId) (response : InstallSnapshotResponse) :
      Causes (.receiveInstallSnapshotResponse sender response) .heartbeatTimeout

theorem Input.Causes.ne_apply (h : input.Causes event) : event ≠ .applyCommitted := by
  cases h <;> simp

theorem Input.Causes.not_completion (h : input.Causes event) : event.isCompletion = false := by
  cases h <;> rfl

/-- The snapshot message a step works on: the input, or the one that waited for the hard
state. -/
def Incoming (origin : Core) (input : Input) (sender : NodeId)
    (request : InstallSnapshotRequest) : Prop :=
  input = .receiveInstallSnapshot sender request ∨
    ((∃ completion, input = .raftHardStatePersisted completion) ∧
      origin.installAfterHardState = some (sender, request))

/-- Effects that only concern timers, roles, reads and answers to clients. -/
def Effect.minor : Effect → Bool
  | .readIndexResponse _ _ => true
  | .completeClientCommand _ => true
  | .raftSnapshotRejected _ => true
  | effect => effect.bookkeeping

/-- Attach the context of a read, if there is one. -/
def withContext : Option Nat → Effect → Effect
  | none, effect => effect
  | some context, effect => attachContext context effect

@[simp]
theorem withContext_none : withContext none = id := by
  funext e
  rfl

/-! ## Moves -/

/-- An elementary move, with the effects it emits and the records it finds on disk. -/
inductive Move (origin : Core) (input : Input) (c : Core) :
    Core → List Effect → List Record → Prop where
  | tidy {c' : Core} {effects : List Effect} (h : c.Alike c')
      (he : ∀ e ∈ effects, e.minor = true) : Move origin input c c' effects []
  /-- A step of the specification other than a completion. -/
  | event {event : Figure2.Event} {result : Figure2.StepResult} {c₁ : Core}
      {visible : List Figure2.Effect} {effects : List Effect} {context : Option Nat}
      (hu : c.Unblocked) (hi : input.Causes event)
      (hstep : Figure2.step c.state event = .ok result)
      (ht : Translated c result c.state.role c₁ visible effects) :
      Move origin input c c₁ (effects.map (withContext context)) []
  /-- A snapshot of a later term: its term is written first. -/
  | defer {sender : NodeId} {request : InstallSnapshotRequest} {result : Figure2.StepResult}
      {c₁ : Core} {visible : List Figure2.Effect} {effects : List Effect} (hu : c.Unblocked)
      (hi : Incoming origin input sender request) (hp : sender ∈ c.state.peers)
      (hl : request.leader = sender) (hlt : c.state.persistent.currentTerm < request.term)
      (hstep : Figure2.step c.state (.observeTerm request.term) = .ok result)
      (ht : Translated { c with installAfterHardState := some (sender, request) } result
        c.state.role c₁ visible effects) :
      Move origin input c c₁ effects []
  /-- The completion of a hard-state write. A snapshot that waited for it no longer does. -/
  | release {completion : PersistRaftHardState} {result : Figure2.StepResult} {c₁ : Core}
      {visible : List Figure2.Effect} {effects : List Effect} (hu : c.Unblocked)
      (hi : input = .raftHardStatePersisted completion)
      (hstep : Figure2.step c.state (.raftHardStatePersisted completion) = .ok result)
      (ht : Translated c result c.state.role c₁ visible effects) :
      Move origin input c
        { c₁ with installAfterHardState :=
            if c₁.state.pendingHardState.isSome then c₁.installAfterHardState else none }
        effects [.hardState completion.state]
  /-- An answer to a snapshot message that changes nothing. -/
  | respond {sender : NodeId} {request : InstallSnapshotRequest}
      {response : InstallSnapshotResponse} (hu : c.Unblocked)
      (hi : Incoming origin input sender request)
      (hh : c.state.pendingHardState = none ∨ origin.installsEarly input = true)
      (ht : response.term = c.state.persistent.currentTerm)
      (hs : response.succeeded = true → request.term = c.state.persistent.currentTerm ∧
        ∃ d, c.durableSnapshot = some d ∧ request.metadata = d.metadata ∧
          response.lastIncludedIndex = d.metadata.lastIncludedIndex) :
      Move origin input c c [.sendInstallSnapshotResponse sender response] []
  /-- The receiver of a snapshot follows its sender. -/
  | follow {sender : NodeId} {request : InstallSnapshotRequest} {c₁ : Core}
      {visible : List Figure2.Effect} {effects : List Effect} (hu : c.Unblocked)
      (hi : Incoming origin input sender request)
      (hh : c.state.pendingHardState = none ∨ origin.installsEarly input = true)
      (hp : sender ∈ c.state.peers) (hl : request.leader = sender)
      (ht : request.term = c.state.persistent.currentTerm)
      (htr : Translated c ⟨Figure2.following c.state sender, [], [.resetElectionTimer]⟩
        c.state.role c₁ visible effects) :
      Move origin input c c₁ effects []
  | publishReceived {sender : NodeId} {request : InstallSnapshotRequest} (hu : c.Unblocked)
      (hi : Incoming origin input sender request)
      (hh : c.state.pendingHardState = none ∨ origin.installsEarly input = true)
      (hl : request.leader = sender) (hf : c.state.role = .follower)
      (ht : request.term = c.state.persistent.currentTerm)
      (hshape : c.validShape request = true)
      (hmember : c.validMembership request.metadata.membership = true)
      (hd : ∀ d, c.durableSnapshot = some d →
        d.metadata.lastIncludedIndex < request.metadata.lastIncludedIndex)
      (ha : c.state.volatileState.lastApplied < request.metadata.lastIncludedIndex) :
      Move origin input c
        (c.publishing ⟨request.metadata, request.chunk, request.stateChecksum⟩
          (some (sender, {
            term := c.state.persistent.currentTerm
            transferId := request.transferId
            succeeded := true
            lastIncludedIndex := request.metadata.lastIncludedIndex
            readContext := request.readContext })) false)
        [.persistRaftSnapshot ⟨c.nextSnapshotRequestId,
          ⟨request.metadata, request.chunk, request.stateChecksum⟩⟩] []
  | publishLocal {request : CreateRaftSnapshot} {snapshot : RaftSnapshot} (hu : c.Unblocked)
      (hi : input = .createRaftSnapshot request) (ho : c.state = origin.state)
      (h0 : request.appliedIndex ≠ 0)
      (ha : request.appliedIndex = c.state.volatileState.lastApplied)
      (hd : ∀ d, c.durableSnapshot = some d → d.metadata.lastIncludedIndex < request.appliedIndex)
      (hindex : snapshot.metadata.lastIncludedIndex = request.appliedIndex)
      (hterm : snapshotTerm c.state request.appliedIndex =
        .ok snapshot.metadata.lastIncludedTerm) :
      Move origin input c (c.publishing snapshot none true)
        [.persistRaftSnapshot ⟨c.nextSnapshotRequestId, snapshot⟩] []
  | persistedLocal {completion : PersistRaftSnapshot} {pending : PendingSnapshotPersistence}
      {snapshot : RaftSnapshot} (hi : input = .raftSnapshotPersisted completion)
      (hp : c.pendingSnapshot = some pending)
      (hid : completion.requestId = pending.request.requestId)
      (hl : pending.localCreation = true)
      (hm : snapshot.metadata = pending.request.snapshot.metadata)
      (hs : snapshot.state = pending.request.snapshot.state) :
      Move origin input c (({ c with pendingSnapshot := none } : Core).compactTo snapshot)
        [.truncateRaftLogPrefix snapshot.metadata.lastIncludedIndex,
          .raftSnapshotCreated snapshot.metadata.lastIncludedIndex]
        [.snapshot snapshot.metadata snapshot.state]
  | persistedReceived {completion : PersistRaftSnapshot} {pending : PendingSnapshotPersistence}
      {snapshot : RaftSnapshot} {replyTo : NodeId} {response : InstallSnapshotResponse}
      (hi : input = .raftSnapshotPersisted completion) (hp : c.pendingSnapshot = some pending)
      (hid : completion.requestId = pending.request.requestId)
      (hl : pending.localCreation = false)
      (hm : snapshot.metadata = pending.request.snapshot.metadata)
      (hs : snapshot.state = pending.request.snapshot.state)
      (hr : pending.reply = some (replyTo, response)) :
      Move origin input c
        { c with
          pendingSnapshot := none
          pendingSnapshotRestore := some ⟨completion.requestId, snapshot, replyTo, response⟩ }
        [.restoreStateMachineSnapshot completion.requestId snapshot]
        [.snapshot snapshot.metadata snapshot.state]
  | restored {requestId index : Nat} {pending : PendingSnapshotRestore}
      (hi : input = .raftSnapshotRestored requestId index)
      (hp : c.pendingSnapshotRestore = some pending) (hid : requestId = pending.requestId)
      (hx : index = pending.snapshot.metadata.lastIncludedIndex) :
      Move origin input c
        (({ c with pendingSnapshotRestore := none } : Core).compactTo pending.snapshot)
        [.truncateRaftLogPrefix pending.snapshot.metadata.lastIncludedIndex,
          .sendInstallSnapshotResponse pending.replyTo pending.response] []
  | applied {requestId index : Nat} {pending : PendingApplication}
      {leader : Option Figure2.LeaderState} (hi : input = .logEntryApplied requestId index)
      (hsnap : c.pendingSnapshot = none) (hrest : c.pendingSnapshotRestore = none)
      (hp : c.pendingApplication = some pending) (hid : pending.request.requestId = requestId)
      (hx : pending.request.entry.index = index)
      (hl : ClientAnswered c.state.leader leader index) :
      Move origin input c
        { c with state := appliedState c.state index leader, pendingApplication := none } []
        [.applied index]
  | applyFailed {requestId index : Nat} {pending : PendingApplication}
      (hi : input = .logEntryApplyFailed requestId index)
      (hp : c.pendingApplication = some pending) :
      Move origin input c { c with pendingApplication := some { pending with blocked := true } }
        [.applicationBackpressured index] []
  | retry {pending : PendingApplication} (hi : input = .retryApplication)
      (hp : c.pendingApplication = some pending) :
      Move origin input c
        { c with
          nextApplicationRequestId := c.nextApplicationRequestId + 1
          pendingApplication := some { request :=
            { pending.request with requestId := c.nextApplicationRequestId } } }
        [.applyLogEntry { pending.request with requestId := c.nextApplicationRequestId }] []
  | logPersisted {pending : PendingLogPersistence} {c₁ : Core} {effects : List Effect}
      (hi : input = .raftLogPersisted pending.request) (hp : c.pendingLog = some pending)
      (hs : ({ c with pendingLog := none } : Core).Alike c₁)
      (he : Replaced { c with pendingLog := none } pending.deferredEffects effects) :
      Move origin input c c₁ effects [.log pending.request.log]
  /-- The next committed entry goes to the state machine; the core looks at outstanding writes
  except after the completion of an application or a snapshot. -/
  | schedule {entry : LogEntry}
      (hg : (c.pendingLog = none ∧ c.state.pendingHardState = none) ∨
        origin.appliesEarly input = true)
      (hn : c.pendingApplication = none)
      (hlt : c.state.volatileState.lastApplied < c.state.volatileState.commitIndex)
      (he : Figure2.entryAt c.state (c.state.volatileState.lastApplied + 1) = .ok entry) :
      Move origin input c
        { c with
          nextApplicationRequestId := c.nextApplicationRequestId + 1
          pendingApplication := some { request := ⟨c.nextApplicationRequestId, entry⟩ } }
        [.applyLogEntry ⟨c.nextApplicationRequestId, entry⟩] []

/-- A sequence of moves, all their effects and all their records. -/
inductive Moves (origin : Core) (input : Input) (c : Core) :
    Core → List Effect → List Record → Prop where
  | refl : Moves origin input c c [] []
  | tail {c₁ c₂ : Core} {effects effects' : List Effect} {records records' : List Record}
      (h : Moves origin input c c₁ effects records)
      (hm : Move origin input c₁ c₂ effects' records') :
      Moves origin input c c₂ (effects ++ effects') (records ++ records')

section

variable {origin c c₁ c₂ : Core} {effects effects' : List Effect} {records records' : List Record}
variable {r r' : StepResult} {sender : NodeId} {P : Core → Prop} {result : Figure2.StepResult}
variable {previous : RaftRole} {request : InstallSnapshotRequest}

theorem Moves.single (h : Move origin input c c₁ effects records) :
    Moves origin input c c₁ effects records := by
  simpa using Moves.refl.tail h

theorem Moves.trans (h : Moves origin input c c₁ effects records)
    (h' : Moves origin input c₁ c₂ effects' records') :
    Moves origin input c c₂ (effects ++ effects') (records ++ records') := by
  induction h' with
  | refl => simpa using h
  | tail _ hm ih =>
    rw [← append_assoc, ← append_assoc]
    exact ih.tail hm

theorem Moves.quiet (h : Moves origin input c c₁ effects records)
    (h' : Moves origin input c₁ c₂ effects' []) :
    Moves origin input c c₂ (effects ++ effects') records := by
  simpa using h.trans h'

theorem Moves.of_alike (h : c.Alike c₁) (hm : Moves origin input c₁ c₂ effects records) :
    Moves origin input c c₂ effects records :=
  (Moves.single (@Move.tidy origin input c c₁ [] h (by simp))).trans hm

/-- An invariant that every move keeps is kept by a sequence of moves. -/
theorem Moves.induction
    (hmove : ∀ {c c' effects records}, P c → Move origin input c c' effects records → P c')
    (h : Moves origin input c c₁ effects records) (hc : P c) : P c₁ := by
  induction h with
  | refl => exact hc
  | tail _ hm ih => exact hmove ih hm

/-- What holds of the effects of every move from a core with the invariant holds of all
effects. -/
theorem Moves.forall_effects {Q : Effect → Prop}
    (hmove : ∀ {c c' effects records}, P c → Move origin input c c' effects records →
      P c' ∧ ∀ e ∈ effects, Q e)
    (h : Moves origin input c c₁ effects records) (hc : P c) :
    P c₁ ∧ ∀ e ∈ effects, Q e := by
  induction h with
  | refl => exact ⟨hc, by simp⟩
  | tail _ hm ih =>
    obtain ⟨h₁, hQ⟩ := ih
    obtain ⟨h₂, hQ'⟩ := hmove h₁ hm
    refine ⟨h₂, fun e he => ?_⟩
    exact (mem_append.mp he).elim (hQ e) (hQ' e)

theorem Scheduled.moves (h : Scheduled c r c₁ r') (origin : Core) (input : Input)
    (hg : c.state.volatileState.lastApplied < c.state.volatileState.commitIndex →
      (c.pendingLog = none ∧ c.state.pendingHardState = none) ∨ origin.appliesEarly input = true) :
    ∃ more, Moves origin input c c₁ more [] ∧ r'.effects = r.effects ++ more ∧
      ∀ context, more.map (withContext context) = more := by
  cases h with
  | idle => exact ⟨[], .refl, by simp, by simp⟩
  | apply hn hlt he =>
    refine ⟨_, .single (.schedule (hg hlt) hn hlt he), rfl, ?_⟩
    rintro (_ | context) <;> rfl

theorem Translated.unblocked
    {visible : List Figure2.Effect} (ht : Translated c result previous c₁ visible effects)
    (hu : c.Unblocked) (hp : .persistState ∉ result.effects) : c₁.Unblocked := by
  refine ⟨?_, ht.same.pendingSnapshot.trans hu.snapshot,
    ht.same.pendingSnapshotRestore.trans hu.restore⟩
  cases ht.gate with
  | through _ hl => exact hl.trans hu.log
  | cut he => exact absurd (by simp [he]) hp

theorem Scheduled.unblocked (h : Scheduled c r c₁ r') (hu : c.Unblocked) : c₁.Unblocked := by
  cases h with
  | idle => exact hu
  | apply => exact ⟨hu.log, hu.snapshot, hu.restore⟩

theorem Core.Alike.unblocked (h : c.Alike c₁) (hu : c.Unblocked) : c₁.Unblocked :=
  ⟨h.pendingLog.trans hu.log, h.pendingSnapshot.trans hu.snapshot,
    h.pendingSnapshotRestore.trans hu.restore⟩

/-- The translation of a result, as the move that stands for it and at most one more. -/
theorem Core.translate_moves (origin : Core) (input : Input)
    (h : c.translate result previous = .ok (c₂, r)) :
    ∃ c₁ visible effects more, Translated c result previous c₁ visible effects ∧
      Moves origin input c₁ c₂ more [] ∧ r.effects = effects ++ more ∧
      (∀ context, more.map (withContext context) = more) ∧
      c₂.state = result.state ∧
      (.persistState ∉ result.effects → c.Unblocked → c₂.Unblocked) := by
  obtain ⟨c₁, visible, effects, ht, hcase⟩ := translate_eq_ok h
  rcases hcase with ⟨hhs, hlog, hs⟩ | ⟨_, rfl, rfl⟩
  · obtain ⟨more, hm, he, hmap⟩ := hs.moves origin input fun _ => .inl ⟨hlog, hhs⟩
    refine ⟨c₁, visible, effects, more, ht, hm, he, hmap, ?_, fun hp hu =>
      hs.unblocked (ht.unblocked hu hp)⟩
    cases hs <;> exact ht.same.state
  · exact ⟨c₂, visible, effects, [], ht, .refl, by simp, by simp, ht.same.state,
      fun hp hu => ht.unblocked hu hp⟩

theorem Core.transition_moves (origin : Core) (hu : c.Unblocked)
    (hi : input.Causes event) (context : Option Nat) (h : c.transition event = .ok (c₁, r)) :
    Moves origin input c c₁ (r.effects.map (withContext context)) [] ∧
      ∃ result, Figure2.step c.state event = .ok result ∧
        (.persistState ∉ result.effects → c₁.Unblocked) := by
  obtain ⟨result, hstep, htr⟩ := transition_eq_ok h
  obtain ⟨c₀, visible, effects, more, ht, hm, he, hmap, _, hun⟩ :=
    translate_moves origin input htr
  refine ⟨?_, result, hstep, fun hp => hun hp hu⟩
  rw [he, map_append, hmap]
  exact (Moves.single (.event hu hi hstep ht)).trans hm

/-! ## Methods as moves -/

theorem Core.completeReadyReads_moves (origin : Core) (input : Input) (c : Core) (r : StepResult) :
    ∃ answers, Moves origin input c (c.completeReadyReads r).1 answers [] ∧
      (c.completeReadyReads r).2.effects = r.effects ++ answers := by
  refine ⟨_, .single (.tidy (c.completeReadyReads_alike r) ?_), rfl⟩
  intro e he
  obtain ⟨p, _, rfl⟩ := mem_map.mp he
  rfl

theorem Core.acknowledgeRead_moves (origin : Core) (input : Input) (c : Core)
    (sender : NodeId) (response : AppendEntriesResponse) (r : StepResult) :
    ∃ answers, Moves origin input c (c.acknowledgeRead sender response r).1 answers [] ∧
      (c.acknowledgeRead sender response r).2.effects = r.effects ++ answers := by
  unfold acknowledgeRead
  split
  case isTrue => exact ⟨[], .refl, by simp⟩
  case isFalse =>
    split
    case h_1 => exact ⟨[], .refl, by simp⟩
    case h_2 context _ =>
      split
      case isTrue =>
        obtain ⟨answers, hm, he⟩ := completeReadyReads_moves origin input
          { c with
            pendingReads := c.pendingReads.map fun p =>
              if p.1 = context then
                (p.1, p.2.acknowledge sender (Figure2.majority c.state))
              else p } r
        have hsame : c.Alike { c with
            pendingReads := c.pendingReads.map fun p =>
              if p.1 = context then
                (p.1, p.2.acknowledge sender (Figure2.majority c.state))
              else p } := by
          constructor <;> rfl
        exact ⟨answers, hm.of_alike hsame, he⟩
      case isFalse => exact ⟨[], .refl, by simp⟩

/-- The reads that became ready and the application after a completion. -/
theorem Core.scheduleReads_moves (origin : Core) (input : Input)
    (hs : Scheduled (c.completeReadyReads r).1 (c.completeReadyReads r).2 c₁ r')
    (hg : c.state.volatileState.lastApplied < c.state.volatileState.commitIndex →
      (c.pendingLog = none ∧ c.state.pendingHardState = none) ∨ origin.appliesEarly input = true) :
    ∃ more, Moves origin input c c₁ more [] ∧ r'.effects = r.effects ++ more := by
  have hsame := c.completeReadyReads_alike r
  obtain ⟨answers, hm, he⟩ := completeReadyReads_moves origin input c r
  obtain ⟨more, hm', he', _⟩ := hs.moves origin input
    (by rw [hsame.state, hsame.pendingLog]; exact hg)
  exact ⟨answers ++ more, hm.trans hm', by rw [he', he, append_assoc]⟩

theorem Core.Accepted_moves (hu : c.Unblocked) (hi : Incoming origin input sender request)
    (hh : c.state.pendingHardState = none ∨ origin.installsEarly input = true)
    (hl : request.leader = sender) (hf : c.state.role = .follower)
    (ht : request.term = c.state.persistent.currentTerm) (h : Accepted c sender request r c₁ r') :
    ∃ more, Moves origin input c c₁ more [] ∧ r'.effects = r.effects ++ more := by
  cases h with
  | answer hterm _ hs => exact ⟨_, .single (.respond hu hi hh hterm fun h => ⟨ht, hs h⟩), rfl⟩
  | publish hshape hmember hd ha =>
    exact ⟨_, .single (.publishReceived hu hi hh hl hf ht hshape hmember hd ha), rfl⟩

theorem Core.receiveSnapshot_moves (hu : c.Unblocked) (hi : Incoming origin input sender request)
    (hh : c.state.pendingHardState = none ∨ origin.installsEarly input = true)
    (h : c.receiveSnapshot sender request = .ok (c₁, r)) :
    Moves origin input c c₁ r.effects [] := by
  obtain ⟨hp, hl, hr⟩ := receiveSnapshot_eq_ok h
  cases hr with
  | refuse => exact .single (.respond hu hi hh rfl (by simp))
  | later hlt ht =>
    obtain ⟨result, hstep, htr⟩ := transition_eq_ok ht
    obtain ⟨c₀, visible, effects, more, ht, hm, he, _⟩ := translate_moves origin input htr
    rw [he]
    exact (Moves.single (.defer hu hi hp hl hlt hstep ht)).trans hm
  | @current c₀ _ r₀ _ hterm _ htr ha =>
    obtain ⟨c₂, visible, effects, more, ht, hm, he, _, hstate, hun⟩ :=
      translate_moves origin input htr
    obtain ⟨more', hm', he'⟩ := Core.Accepted_moves (hun (by simp) hu) hi
      (by rw [hstate]; exact hh) hl (by rw [hstate]; rfl) (by rw [hstate]; exact hterm) ha
    rw [he', he]
    exact ((Moves.single (.follow hu hi hh hp hl hterm ht)).trans hm).trans hm'

theorem Core.receiveSnapshotResponse_moves {response : InstallSnapshotResponse}
    (hp : c.state.peers ≠ []) (hu : c.Unblocked)
    (hi : input = .receiveInstallSnapshotResponse sender response)
    (h : c.receiveSnapshotResponse sender response = .ok (c₁, r)) :
    Moves origin input c c₁ r.effects [] := by
  subst hi
  obtain ⟨_, hr⟩ := receiveSnapshotResponse_eq_ok h
  cases hr with
  | ignore => exact .refl
  | later _ ht =>
    simpa using (transition_moves origin hu (.installTerm sender response) none ht).1
  | @resume c₂ _ r₂ r₃ _ _ hs ht₁ ht₃ =>
    have hsame : c.Alike { c with
        snapshotTransfers := c.snapshotTransfers.filter fun t => t.1 ≠ sender } := by
      constructor <;> rfl
    obtain ⟨hm₁, result, hstep, hun⟩ := transition_moves origin (hsame.unblocked hu)
      (.installed sender response hs) none ht₁
    obtain ⟨answers, hm₂, he₂⟩ := acknowledgeRead_moves origin
      (.receiveInstallSnapshotResponse sender response) c₂ sender
      (syntheticResponse response) r₂
    obtain ⟨hsame₂, _⟩ := c₂.acknowledgeRead_spec sender (syntheticResponse response) r₂
    have hu₂ := hsame₂.unblocked (hun (Figure2.step_response_effects hp hstep))
    obtain ⟨hm₃, _⟩ := transition_moves origin hu₂ (.resume sender response) none ht₃
    rw [withContext_none, map_id] at hm₁ hm₃
    show Moves _ _ _ _ (_ ++ _) []
    rw [he₂]
    exact ((hm₁.of_alike hsame).trans hm₂).trans hm₃

/-- Forgetting a waiting snapshot commutes with the moves that only schedule. -/
theorem Scheduled.forget (h : Scheduled c r c₁ r') (x : Option (NodeId × InstallSnapshotRequest)) :
    Scheduled { c with installAfterHardState := x } r
      { c₁ with installAfterHardState := x } r' := by
  cases h with
  | idle h => exact .idle h
  | apply hn hlt he => exact .apply hn hlt he

theorem Core.raftHardStatePersisted_moves {completion : PersistRaftHardState} (ho : c.Orderly)
    (hu : c.Unblocked) (h : c.raftHardStatePersisted completion = .ok (c₁, r)) :
    Moves c (.raftHardStatePersisted completion) c c₁ r.effects
      [.hardState completion.state] := by
  obtain ⟨c₂, r₂, ht, hcase⟩ := raftHardStatePersisted_eq_ok h
  obtain ⟨result, hstep, htr⟩ := transition_eq_ok ht
  obtain ⟨c₀, visible, effects, htrans, hsched⟩ := translate_eq_ok htr
  have hstate : c₂.state = c₀.state ∧ c₂.installAfterHardState = c₀.installAfterHardState := by
    rcases hsched with ⟨_, _, hs⟩ | ⟨_, rfl, _⟩
    · cases hs <;> exact ⟨rfl, rfl⟩
    · exact ⟨rfl, rfl⟩
  have hwait : c₂.installAfterHardState = c.installAfterHardState :=
    hstate.2.trans htrans.same.installAfterHardState
  -- The release, and the application that may follow it.
  have hmoves : Moves c (.raftHardStatePersisted completion) c
      { c₂ with installAfterHardState :=
          if c₀.state.pendingHardState.isSome then c₀.installAfterHardState else none }
      r₂.effects [.hardState completion.state] := by
    have hrel : Moves c (.raftHardStatePersisted completion) c _ effects
        [.hardState completion.state] :=
      .single (.release hu rfl hstep htrans)
    rcases hsched with ⟨hhs, hlog, hs⟩ | ⟨_, rfl, rfl⟩
    · obtain ⟨more, hm, he, _⟩ := (hs.forget (if c₀.state.pendingHardState.isSome then
        c₀.installAfterHardState else none)).moves c (.raftHardStatePersisted completion)
        fun _ => .inl ⟨hlog, hhs⟩
      rw [he]
      exact hrel.quiet hm
    · exact hrel
  rw [← hstate.1, ← hstate.2] at hmoves
  rcases hcase with ⟨hnone, rfl, rfl⟩ | ⟨sender, request, r₃, hsome, hnone, hrec, rfl⟩
  · have hx : (if c₁.state.pendingHardState.isSome then c₁.installAfterHardState else none) =
        c₁.installAfterHardState := by
      rcases hnone with hnone | hsome
      · rw [hnone, ite_self]
      · rw [if_pos hsome]
    rw [hx] at hmoves
    exact hmoves
  · rw [hnone] at hmoves
    refine hmoves.quiet (receiveSnapshot_moves ?_ (.inr ⟨⟨_, rfl⟩, hwait ▸ hsome⟩)
      (.inl hnone) hrec)
    -- Nothing waited behind the write but the snapshot, so the log is not being written.
    obtain ⟨p, hpend, hdef⟩ := ho.install (sender, request) (hwait ▸ hsome)
    have hresult := (Figure2.step_completed_effects ho.peers hpend
      (by simp [hdef, Figure2.Ungated]) hstep).1
    have hu₀ := htrans.unblocked hu (by simp [hresult, hdef])
    have hu₂ : c₂.Unblocked := by
      rcases hsched with ⟨_, _, hs⟩ | ⟨_, rfl, _⟩
      · exact hs.unblocked hu₀
      · exact hu₀
    exact ⟨hu₂.log, hu₂.snapshot, hu₂.restore⟩

/-- An input that passes the gates of `Core::step`. -/
theorem Core.stepUnblocked_moves (hun : input.isUnblocked = true) (ho : c.Orderly)
    (hu : c.Unblocked) (h : c.stepUnblocked input = .ok (c₁, r)) :
    Moves c input c c₁ r.effects input.records := by
  have key : ∀ {event c₀}, c.Alike c₀ → input.Causes event → c₀.transition event = .ok (c₁, r) →
      Moves c input c c₁ r.effects [] := by
    intro event c₀ hsame hi ht
    have := (transition_moves c (hsame.unblocked hu) hi none ht).1
    rw [withContext_none, map_id] at this
    exact this.of_alike hsame
  have hrefl : c.Alike c := (.refl c)
  have hread : ∀ requestId reason, (c₁, r) = c.abandonRead requestId reason →
      Moves c input c c₁ r.effects [] := by
    intro requestId reason he
    obtain ⟨hsame, heff⟩ := c.abandonRead_spec requestId reason
    rw [← he] at hsame heff
    refine .single (.tidy hsame fun e hmem => ?_)
    have := heff e hmem
    cases e <;> first | rfl | cases this
  cases input with
  | raftHardStatePersisted completion => exact raftHardStatePersisted_moves ho hu h
  | createRaftSnapshot request =>
    rcases beginSnapshot_eq_ok h with ⟨rfl, _, rfl⟩ |
      ⟨snapshot, h0, ha, hd, hindex, hterm, _, _, rfl, rfl⟩
    · exact .single (.tidy hrefl (by simp [Effect.minor]))
    · exact .single (.publishLocal hu rfl rfl h0 ha hd hindex hterm)
  | receiveInstallSnapshot sender request =>
    refine receiveSnapshot_moves hu (.inl rfl) ?_ h
    cases hh : c.state.pendingHardState with
    | none => exact .inl rfl
    | some => exact .inr (by simp [installsEarly, hh])
  | receiveInstallSnapshotResponse sender response =>
    exact receiveSnapshotResponse_moves ho.peers hu rfl h
  | readIndexRequest requestId =>
    rcases beginRead_eq_ok h with ⟨reason, _, he⟩ | ⟨_, _, _, _, _, _, r₁, ht, rfl⟩
    · cases he
      exact .single (.tidy (by constructor <;> rfl) (by simp [Effect.minor, Effect.bookkeeping]))
    · have hsame : c.Alike (c.registerRead requestId) := by constructor <;> rfl
      exact (transition_moves c (hsame.unblocked hu) (.readIndexRequest requestId)
        (some c.nextReadContext) ht).1.of_alike hsame
  | cancelReadIndex requestId => exact hread requestId .cancelled (Except.ok.inj h).symm
  | timeoutReadIndex requestId => exact hread requestId .timedOut (Except.ok.inj h).symm
  | receiveAppendEntries sender request =>
    obtain ⟨_, hv, ht⟩ := Except.bind_eq_ok.mp h
    exact key hrefl (.appendEntries sender request (lift_eq_ok.mp hv)) ht
  | receiveAppendEntriesResponse sender response =>
    obtain ⟨⟨c₂, r₂⟩, ht, h⟩ := Except.bind_eq_ok.mp h
    have hm := (transition_moves c hu (.appendEntriesResponse sender response) none ht).1
    rw [withContext_none, map_id] at hm
    obtain ⟨answers, hm', he⟩ := acknowledgeRead_moves c
      (.receiveAppendEntriesResponse sender response) c₂ sender response r₂
    rw [Except.pure_eq_ok.mp h] at hm' he
    rw [he]
    exact hm.trans hm'
  | electionDeadline timerId =>
    simp only [stepUnblocked, Core.electionDeadline] at h
    split at h
    · cases h
      exact .refl
    · exact key (by constructor <;> rfl) (.electionDeadline timerId) h
  | heartbeatDeadline timerId =>
    rcases heartbeatDeadline_eq_ok h with ⟨rfl, rfl⟩ | ⟨c₂, r₂, e, ht, hsame, he, rfl⟩
    · exact .refl
    · have hm := (transition_moves c (by exact ⟨hu.log, hu.snapshot, hu.restore⟩)
        (.heartbeatDeadline timerId) none ht).1
      rw [withContext_none, map_id] at hm
      refine (hm.of_alike (by constructor <;> rfl)).tail (.tidy hsame ?_)
      intro e' he'
      rw [mem_singleton.mp he']
      cases e <;> first | rfl | cases he
  | receiveRequestVote sender request => exact key hrefl (.requestVote sender request) h
  | receiveRequestVoteResponse sender response =>
    exact key hrefl (.requestVoteResponse sender response) h
  | receiveClientCommand command => exact key hrefl (.clientCommand command) h
  | _ =>
    cases h
    first | exact .refl | cases hun

/-! ## Every step -/

/-- After a completion that changed neither outstanding write: nothing is outstanding, or the
completion came early. -/
theorem Core.early_or_idle (c : Core) (hl : c₁.pendingLog = c.pendingLog)
    (hh : c₁.state.pendingHardState = c.state.pendingHardState) :
    (c₁.pendingLog = none ∧ c₁.state.pendingHardState = none) ∨ c.writing = true := by
  rw [hl, hh, writing]
  cases c.pendingLog <;> cases c.state.pendingHardState <;> simp

/-- **A step is a sequence of moves.** -/
theorem Core.step_moves (ho : c.Orderly) (h : c.step input = .ok (c₁, r)) :
    Moves c input c c₁ r.effects input.records := by
  obtain ⟨_, hd⟩ := Core.step_eq_ok h
  cases hd with
  | @snapshotPersisted completion _ _ h =>
    obtain ⟨c₂, r₂, hinst, hsched⟩ := afterSnapshot_eq_ok h
    obtain ⟨p, snapshot, hpend, hid, hmeta, hstate, _, hcm, hcs, hcase⟩ :=
      installPersistedSnapshot_eq_ok hinst
    rcases hcase with ⟨hloc, rfl, rfl⟩ | ⟨hloc, replyTo, response, hreply, rfl, rfl⟩
    · obtain ⟨more, hm, he⟩ := scheduleReads_moves c
        (.raftSnapshotPersisted completion) hsched (fun hlt => by
        refine (early_or_idle c rfl rfl).imp id fun hwr => ?_
        simp only [compactTo] at hlt
        simp only [appliesEarly, hwr, Bool.true_and, decide_eq_true_eq]
        omega)
      rw [he]
      rw [Input.records, hcm, hcs]
      exact (Moves.single (.persistedLocal rfl hpend hid hloc hmeta hstate)).quiet hm
    · obtain ⟨more, hm, he⟩ := scheduleReads_moves c
        (.raftSnapshotPersisted completion) hsched (fun hlt => by
        refine (early_or_idle c rfl rfl).imp id fun hwr => ?_
        simpa [appliesEarly, hwr] using hlt)
      rw [he]
      rw [Input.records, hcm, hcs]
      exact (Moves.single (.persistedReceived rfl hpend hid hloc hmeta hstate hreply)).quiet hm
  | @snapshotRestored requestId index _ _ h =>
    obtain ⟨c₂, r₂, hinst, hsched⟩ := afterSnapshot_eq_ok h
    obtain ⟨p, hpend, hid, hx, rfl, rfl⟩ := completeSnapshotRestore_eq_ok hinst
    obtain ⟨more, hm, he⟩ := scheduleReads_moves c
      (.raftSnapshotRestored requestId index) hsched (fun hlt => by
      refine (early_or_idle c rfl rfl).imp id fun hwr => ?_
      simp only [compactTo] at hlt
      simp only [appliesEarly, hwr, Bool.true_and, decide_eq_true_eq]
      omega)
    rw [he]
    exact (Moves.single (.restored rfl hpend hid hx)).trans hm
  | @applied requestId index _ _ hs hr h =>
    obtain ⟨p, leader, completed, hpend, _, hid, hx, hl, hcompl, hsched⟩ :=
      logEntryApplied_eq_ok h
    obtain ⟨more, hm, he⟩ := scheduleReads_moves c
      (.logEntryApplied requestId index) hsched (fun hlt => by
      refine (early_or_idle c rfl rfl).imp id fun hwr => ?_
      simpa [appliesEarly, hwr, appliedState] using hlt)
    have hanswer : ∀ e ∈ completed, e.minor = true := by
      intro e hmem
      rw [hcompl e hmem]
      rfl
    rw [he]
    -- the answers to clients change nothing, so they are a move of their own
    refine Moves.quiet (?_ : Moves _ _ _ _ completed [.applied index]) hm
    simpa using (Moves.single (.applied rfl hs hr hpend hid hx hl)).tail
      (.tidy (.refl _) hanswer)
  | applyFailed hs hr h =>
    simp only [logEntryApplyFailed] at h
    split at h
    case isTrue => cases h
    case isFalse hmatch =>
      cases hpend : c.pendingApplication with
      | none => simp [matchesApplication, hpend] at hmatch
      | some pending =>
        rw [hpend] at h
        cases h
        exact .single (.applyFailed rfl hpend)
  | retry hs hr h =>
    simp only [retryApplication] at h
    split at h
    case h_1 request hpend =>
      obtain ⟨_, h⟩ := Except.ite_error_eq_ok.mp h
      cases h
      exact .single (.retry rfl hpend)
    case h_2 => cases h
  | logPersisted hs hr h =>
    obtain ⟨pending, c₂, effects, hpend, rfl, hsame, hrepl, hsched⟩ :=
      raftLogPersisted_eq_ok h
    obtain ⟨more, hm, he, _⟩ := hsched.moves c (.raftLogPersisted pending.request) fun _ =>
      .inl ⟨hsame.pendingLog, hsame.state ▸ (ho.writing pending hpend).1⟩
    rw [he]
    exact (Moves.single (.logPersisted rfl hpend hsame hrepl)).quiet hm
  | unblocked hi hs hr hl h => exact stepUnblocked_moves hi ho ⟨hl, hs, hr⟩ h

end

end KuraMetadata.Election
