import KuraMetadata.Raft.Core.Translate
import Mathlib.Data.List.TakeWhile

/-! # What the other methods of the core do

One lemma for each method behind `Core::step`, saying how it can return. Together with
`Core.translate_eq_ok` they are all later proofs look at; `Core.step_eq_ok` reads off the
dispatch which method an input reaches and what must be idle for it. -/

namespace KuraMetadata.Election

open Election.Core List Option Except
open Figure2 (RuleId WellFormed)

variable {c c' : Core} {r : StepResult} {sender : NodeId}
variable {request : InstallSnapshotRequest} {requestId index : Nat}

/-! ## Reads -/

/-- Effects that answer or fail a read. -/
def Effect.readAnswer : Effect → Bool
  | .readIndexResponse _ _ => true
  | .readIndexRejected _ _ => true
  | _ => false

/-- The reasons for which an accepted read is rejected later. -/
def terminalReasons : List ReadIndexFailure := [.cancelled, .timedOut, .leadershipLost]

theorem Core.completeReadyReads_alike (c : Core) (r : StepResult) :
    c.Alike (c.completeReadyReads r).1 := by
  constructor <;> rfl

theorem Core.mem_completeReadyReads {e : Effect} (h : e ∈ (c.completeReadyReads r).2.effects) :
    e ∈ r.effects ∨ ∃ p ∈ c.pendingReads, p.2.ready c.state.volatileState.lastApplied = true ∧
        e = .readIndexResponse p.2.request p.2.readIndex := by
  simp only [completeReadyReads, mem_append, List.mem_map, mem_filter] at h
  rcases h with h | ⟨p, ⟨hp, hready⟩, rfl⟩
  · exact .inl h
  · exact .inr ⟨p, hp, hready, rfl⟩

theorem Core.subset_completeReadyReads (c : Core) (r : StepResult) :
    r.effects ⊆ (c.completeReadyReads r).2.effects := by
  simp [completeReadyReads]

theorem Core.acknowledgeRead_spec (c : Core) (sender : NodeId) (response : AppendEntriesResponse)
    (r : StepResult) :
    c.Alike (c.acknowledgeRead sender response r).1 ∧
      r.effects ⊆ (c.acknowledgeRead sender response r).2.effects ∧
      ∀ e ∈ (c.acknowledgeRead sender response r).2.effects,
        e ∈ r.effects ∨ e.readAnswer = true := by
  unfold acknowledgeRead
  split
  · exact ⟨.refl c, fun _ h => h, fun _ h => .inl h⟩
  · split
    · exact ⟨.refl c, fun _ h => h, fun _ h => .inl h⟩
    · split
      · refine ⟨Core.Alike.trans (by constructor <;> rfl) (completeReadyReads_alike _ _),
          subset_completeReadyReads _ _, fun e he => ?_⟩
        rcases mem_completeReadyReads he with h | ⟨_, _, _, rfl⟩
        · exact .inl h
        · exact .inr rfl
      · exact ⟨.refl c, fun _ h => h, fun _ h => .inl h⟩

theorem Core.abandonRead_spec (c : Core) (requestId : RequestId) (reason : ReadIndexFailure) :
    c.Alike (c.abandonRead requestId reason).1 ∧
      ∀ e ∈ (c.abandonRead requestId reason).2.effects, e.bookkeeping = true := by
  unfold abandonRead
  split
  · exact ⟨.refl c, by simp⟩
  · refine ⟨by constructor <;> rfl, fun e he => ?_⟩
    rw [mem_singleton.mp he]
    rfl

/-- `begin_read`: the read is rejected, or registered and broadcast. -/
theorem Core.beginRead_eq_ok {requestId : RequestId} (h : c.beginRead requestId = .ok (c', r)) :
    (∃ reason, reason ∉ terminalReasons ∧ (c', r) = c.rejectRead requestId reason) ∨
      (c.state.role = .leader ∧ requestId ∉ c.usedReadRequests ∧
        c.state.volatileState.commitIndex ≠ 0 ∧
        commitTerm c.state = .ok c.state.persistent.currentTerm ∧
        c.pendingReads.length < c.maxPendingReads ∧
        c.usedReadRequests.card < c.maxReadHistory ∧
        ∃ r₁, (c.registerRead requestId).transition .heartbeatTimeout = .ok (c', r₁) ∧
          r = { r₁ with effects := r₁.effects.map (attachContext c.nextReadContext) }) := by
  unfold beginRead at h
  obtain ⟨_, h⟩ := ite_error_eq_ok.mp h
  split at h
  case isTrue => exact .inl ⟨_, by decide, (Except.ok.inj h).symm⟩
  case isFalse hrole =>
    split at h
    case isTrue => exact .inl ⟨_, by decide, (Except.ok.inj h).symm⟩
    case isFalse hused =>
      obtain ⟨term, hterm, h⟩ := bind_eq_ok.mp h
      rw [lift_eq_ok] at hterm
      split at h
      case isTrue => exact .inl ⟨_, by decide, (pure_eq_ok.mp h).symm⟩
      case isFalse hcommit =>
        simp only [not_or, not_not] at hcommit
        split at h
        case isTrue => exact .inl ⟨_, by decide, (pure_eq_ok.mp h).symm⟩
        case isFalse hcapacity =>
          simp only [not_or, not_le] at hcapacity
          split at h
          case isTrue => exact .inl ⟨_, by decide, (pure_eq_ok.mp h).symm⟩
          case isFalse =>
            simp only [bind_eq_ok, pure_eq_ok, Prod.exists, Prod.mk.injEq] at h
            obtain ⟨c₁, r₁, h₁, rfl, rfl⟩ := h
            exact .inr ⟨not_not.mp hrole, hused, hcommit.1, hcommit.2 ▸ hterm, hcapacity.1,
              hcapacity.2, r₁, h₁, rfl⟩

/-! ## Snapshots -/

/-- The core after it has asked for the publication of a snapshot. -/
def Core.publishing (c : Core) (snapshot : RaftSnapshot)
    (reply : Option (NodeId × InstallSnapshotResponse)) (localCreation : Bool) : Core :=
  { c with
    nextSnapshotRequestId := c.nextSnapshotRequestId + 1
    pendingSnapshot :=
      some ⟨⟨c.nextSnapshotRequestId, snapshot⟩, reply, localCreation⟩ }

theorem Core.publishSnapshot_eq_ok {snapshot : RaftSnapshot}
    {reply : Option (NodeId × InstallSnapshotResponse)} {localCreation : Bool}
    {effects : List Effect} {rules : List RuleId}
    (h : c.publishSnapshot snapshot reply localCreation effects rules = .ok (c', r)) :
    c' = c.publishing snapshot reply localCreation ∧
      r = ⟨rules, effects ++ [.persistRaftSnapshot ⟨c.nextSnapshotRequestId, snapshot⟩]⟩ := by
  rw [Core.publishSnapshot, ite_error_eq_ok] at h
  cases h.2
  exact ⟨rfl, rfl⟩

/-- `begin_snapshot`: a rejection, or the publication of the applied state. -/
theorem Core.beginSnapshot_eq_ok {request : CreateRaftSnapshot}
    (h : c.beginSnapshot request = .ok (c', r)) :
    (c' = c ∧ ∃ reason, r = { effects := [.raftSnapshotRejected reason] }) ∨
      ∃ snapshot, request.appliedIndex ≠ 0 ∧
        request.appliedIndex = c.state.volatileState.lastApplied ∧
        (∀ d, c.durableSnapshot = some d → d.metadata.lastIncludedIndex < request.appliedIndex) ∧
        snapshot.metadata.lastIncludedIndex = request.appliedIndex ∧
        snapshotTerm c.state request.appliedIndex = .ok snapshot.metadata.lastIncludedTerm ∧
        snapshot.metadata.membership.voters = c.expectedVoters ∧
        snapshot.metadata.formatVersion = 1 ∧
        c' = c.publishing snapshot none true ∧
        r = { effects := [.persistRaftSnapshot ⟨c.nextSnapshotRequestId, snapshot⟩] } := by
  simp only [beginSnapshot] at h
  split at h
  case h_1 reason _ =>
    cases h
    exact .inl ⟨rfl, reason, rfl⟩
  case h_2 hnone =>
    simp only [bind_eq_ok, lift_eq_ok] at h
    obtain ⟨term, hterm, h⟩ := h
    obtain ⟨rfl, rfl⟩ := publishSnapshot_eq_ok h
    -- None of the reasons to refuse applies.
    unfold snapshotRejection at hnone
    split at hnone; · cases hnone
    split at hnone; · cases hnone
    rename_i happlied
    split at hnone; · cases hnone
    rename_i hstale
    split at hnone; · cases hnone
    split at hnone; · cases hnone
    rename_i hmember
    simp only [not_or, not_not] at happlied hmember
    refine .inr ⟨_, happlied.1, happlied.2, ?_, rfl, hterm, hmember.1, rfl, rfl, rfl⟩
    intro d hd
    simpa [hd] using hstale

/-- How `receive_snapshot` answers a snapshot of the current term. -/
inductive Accepted (c : Core) (sender : NodeId) (request : InstallSnapshotRequest)
    (r : StepResult) : Core → StepResult → Prop where
  | answer {response : InstallSnapshotResponse}
      (ht : response.term = c.state.persistent.currentTerm)
      (hc : response.readContext = request.readContext)
      (hs : response.succeeded = true → ∃ d, c.durableSnapshot = some d ∧
        request.metadata = d.metadata ∧
        response.lastIncludedIndex = d.metadata.lastIncludedIndex) :
      Accepted c sender request r c (r.emit (.sendInstallSnapshotResponse sender response))
  | publish (hshape : c.validShape request = true)
      (hmember : c.validMembership request.metadata.membership = true)
      (hd : ∀ d, c.durableSnapshot = some d →
        d.metadata.lastIncludedIndex < request.metadata.lastIncludedIndex)
      (ha : c.state.volatileState.lastApplied < request.metadata.lastIncludedIndex) :
      Accepted c sender request r
        (c.publishing ⟨request.metadata, request.chunk, request.stateChecksum⟩
          (some (sender, {
            term := c.state.persistent.currentTerm
            transferId := request.transferId
            succeeded := true
            lastIncludedIndex := request.metadata.lastIncludedIndex
            readContext := request.readContext })) false)
        ⟨r.rules, r.effects ++ [.persistRaftSnapshot ⟨c.nextSnapshotRequestId,
          ⟨request.metadata, request.chunk, request.stateChecksum⟩⟩]⟩

theorem Core.acceptSnapshot_eq_ok {r' : StepResult}
    (h : c.acceptSnapshot sender request r = .ok (c', r')) :
    Accepted c sender request r c' r' := by
  simp only [acceptSnapshot] at h
  split at h
  case isTrue =>
    cases h
    exact .answer rfl rfl (by simp)
  case isFalse hvalid =>
    simp only [not_or, Bool.not_eq_false] at hvalid
    have publish : (∀ d, c.durableSnapshot = some d →
        d.metadata.lastIncludedIndex < request.metadata.lastIncludedIndex) →
        c.publishReceived sender request r = .ok (c', r') →
        Accepted c sender request r c' r' := by
      intro hd h
      simp only [publishReceived] at h
      split at h
      case isTrue =>
        cases h
        exact .answer rfl rfl (by simp)
      case isFalse ha =>
        obtain ⟨rfl, rfl⟩ := publishSnapshot_eq_ok h
        exact .publish hvalid.1 hvalid.2 hd (Nat.lt_of_not_le ha)
    split at h
    case h_1 durable hdur =>
      split at h
      case isTrue =>
        cases h
        refine .answer rfl rfl fun hs => ⟨durable, hdur, ?_, rfl⟩
        simp only [Bool.and_eq_true, beq_iff_eq] at hs
        exact hs.1
      case isFalse hlt =>
        refine publish (fun d hd => ?_) h
        rw [hdur, Option.some.injEq] at hd
        rw [← hd]
        exact Nat.lt_of_not_le hlt
    case h_2 hdur => exact publish (fun d hd => by rw [hdur] at hd; cases hd) h

/-- How `receive_snapshot` can return. -/
inductive Received (c : Core) (sender : NodeId) (request : InstallSnapshotRequest) :
    Core → StepResult → Prop where
  | refuse (h : request.term < c.state.persistent.currentTerm ∨ c.pendingSnapshot.isSome) :
      Received c sender request c { effects := [c.installRejection sender request] }
  | later {c' : Core} {r : StepResult} (hlt : c.state.persistent.currentTerm < request.term)
      (h : { c with installAfterHardState := some (sender, request) }.transition
        (.observeTerm request.term) = .ok (c', r)) :
      Received c sender request c' r
  | current {c₁ c' : Core} {r₁ r : StepResult}
      (ht : request.term = c.state.persistent.currentTerm) (hn : c.pendingSnapshot = none)
      (h₁ : c.translate ⟨Figure2.following c.state sender, [], [.resetElectionTimer]⟩
        c.state.role = .ok (c₁, r₁))
      (h : Accepted c₁ sender request r₁ c' r) :
      Received c sender request c' r

theorem Core.receiveSnapshot_eq_ok (h : c.receiveSnapshot sender request = .ok (c', r)) :
    sender ∈ c.state.peers ∧ request.leader = sender ∧ Received c sender request c' r := by
  rw [receiveSnapshot, ite_error_eq_ok] at h
  obtain ⟨hsender, h⟩ := h
  simp only [not_or, not_not] at hsender
  refine ⟨hsender.1, hsender.2, ?_⟩
  split at h
  case isTrue hstale =>
    cases h
    exact .refuse (.inl hstale)
  case isFalse hge =>
    split at h
    case isTrue hlt => exact .later hlt h
    case isFalse hle =>
      split at h
      case isTrue hbusy =>
        cases h
        exact .refuse (.inr hbusy)
      case isFalse hidle =>
        simp only [bind_eq_ok, Prod.exists] at h
        obtain ⟨c₁, r₁, h₁, h⟩ := h
        exact .current (by omega) (by simpa using hidle) h₁ (acceptSnapshot_eq_ok h)

/-- `install_persisted_snapshot`: a local snapshot is compacted to, a received one is handed
to the state machine. -/
theorem Core.installPersistedSnapshot_eq_ok {completion : PersistRaftSnapshot}
    (h : c.installPersistedSnapshot completion = .ok (c', r)) :
    ∃ pending snapshot, c.pendingSnapshot = some pending ∧
      completion.requestId = pending.request.requestId ∧
      snapshot.metadata = pending.request.snapshot.metadata ∧
      snapshot.state = pending.request.snapshot.state ∧
      snapshot.checksum = crc32c snapshot.state ∧
      completion.snapshot.metadata = snapshot.metadata ∧
      completion.snapshot.state = snapshot.state ∧
      ((pending.localCreation = true ∧
          c' = ({ c with pendingSnapshot := none } : Core).compactTo snapshot ∧
          r = { effects := [.truncateRaftLogPrefix snapshot.metadata.lastIncludedIndex,
            .raftSnapshotCreated snapshot.metadata.lastIncludedIndex] }) ∨
        (pending.localCreation = false ∧ ∃ replyTo response,
          pending.reply = some (replyTo, response) ∧
          c' = { c with
            pendingSnapshot := none
            pendingSnapshotRestore := some ⟨completion.requestId, snapshot, replyTo, response⟩ } ∧
          r = { effects := [.restoreStateMachineSnapshot completion.requestId snapshot] })) := by
  unfold installPersistedSnapshot at h
  split at h
  case h_1 => cases h
  case h_2 pending hpend =>
    obtain ⟨hmatch, h⟩ := ite_error_eq_ok.mp h
    simp only [not_or, not_not] at hmatch
    refine ⟨pending,
      { pending.request.snapshot with checksum := crc32c pending.request.snapshot.state },
      hpend, hmatch.1, rfl, rfl, rfl, hmatch.2.1, hmatch.2.2, ?_⟩
    split at h
    case h_1 replyTo response hlocal hreply =>
      cases h
      exact .inr ⟨hlocal, replyTo, response, hreply, rfl, rfl⟩
    case h_2 => cases h
    case h_3 hlocal =>
      cases h
      exact .inl ⟨hlocal, rfl, rfl⟩

theorem Core.completeSnapshotRestore_eq_ok
    (h : c.completeSnapshotRestore requestId index = .ok (c', r)) :
    ∃ pending, c.pendingSnapshotRestore = some pending ∧ requestId = pending.requestId ∧
      index = pending.snapshot.metadata.lastIncludedIndex ∧
      c' = ({ c with pendingSnapshotRestore := none } : Core).compactTo pending.snapshot ∧
      r = { effects := [.truncateRaftLogPrefix pending.snapshot.metadata.lastIncludedIndex,
        .sendInstallSnapshotResponse pending.replyTo pending.response] } := by
  unfold completeSnapshotRestore at h
  split at h
  case h_1 => cases h
  case h_2 pending hpend =>
    obtain ⟨hmatch, h⟩ := ite_error_eq_ok.mp h
    simp only [not_or, not_not] at hmatch
    cases h
    exact ⟨pending, hpend, hmatch.1, hmatch.2, rfl, rfl⟩

/-- The append response a snapshot response stands for. -/
def syntheticResponse (response : InstallSnapshotResponse) : AppendEntriesResponse where
  term := response.term
  succeeded := true
  matchedIndex := response.lastIncludedIndex
  readContext := response.readContext

/-- How `receive_snapshot_response` can return. -/
inductive Responded (c : Core) (sender : NodeId) (response : InstallSnapshotResponse) :
    Core → StepResult → Prop where
  | ignore : Responded c sender response c {}
  | later {c' : Core} {r : StepResult} (hlt : c.state.persistent.currentTerm < response.term)
      (h : c.transition (.observeTerm response.term) = .ok (c', r)) :
      Responded c sender response c' r
  | resume {c₁ c₃ : Core} {r₁ r₃ : StepResult}
      (hr : c.state.role = .leader) (ht : response.term = c.state.persistent.currentTerm)
      (hs : response.succeeded = true)
      (h₁ : { c with
        snapshotTransfers := c.snapshotTransfers.filter fun t => t.1 ≠ sender }.transition
          (.receiveAppendEntriesResponse sender (syntheticResponse response)) = .ok (c₁, r₁))
      (h₃ : (c₁.acknowledgeRead sender (syntheticResponse response) r₁).1.transition
        .heartbeatTimeout = .ok (c₃, r₃)) :
      Responded c sender response c₃
        { rules := (c₁.acknowledgeRead sender (syntheticResponse response) r₁).2.rules ++ r₃.rules
          effects := (c₁.acknowledgeRead sender (syntheticResponse response) r₁).2.effects ++
            r₃.effects }

theorem Core.receiveSnapshotResponse_eq_ok {response : InstallSnapshotResponse}
    (h : c.receiveSnapshotResponse sender response = .ok (c', r)) :
    sender ∈ c.state.peers ∧ Responded c sender response c' r := by
  rw [receiveSnapshotResponse, ite_error_eq_ok] at h
  obtain ⟨hsender, h⟩ := h
  refine ⟨not_not.mp hsender, ?_⟩
  split at h
  case isTrue hlt => exact .later hlt h
  case isFalse =>
    split at h
    case isTrue =>
      cases h
      exact .ignore
    case isFalse hresp =>
      simp only [not_or, not_not, Bool.not_eq_false] at hresp
      simp only [bind_eq_ok, pure_eq_ok, Prod.exists, Prod.mk.injEq] at h
      obtain ⟨c₁, r₁, h₁, c₃, r₃, h₃, rfl, rfl⟩ := h
      exact .resume hresp.1 hresp.2.1 hresp.2.2.1 h₁ h₃

/-! ## Completions -/

/-- The reads and the application that follow a snapshot completion. -/
theorem Core.afterSnapshot_eq_ok {x : Except Failure (Core × StepResult)}
    (h : afterSnapshot x = .ok (c', r)) :
    ∃ c₁ r₁, x = .ok (c₁, r₁) ∧
      Scheduled (c₁.completeReadyReads r₁).1 (c₁.completeReadyReads r₁).2 c' r := by
  simp only [afterSnapshot, bind_eq_ok, Prod.exists] at h
  obtain ⟨c₁, r₁, h₁, h⟩ := h
  exact ⟨c₁, r₁, h₁, scheduleApplication_eq_ok h⟩

/-- The state of the specification once the entry at `index` is applied. -/
def appliedState (s : Figure2.State) (index : Nat) (leader : Option Figure2.LeaderState) :
    Figure2.State :=
  { s with
    volatileState := { s.volatileState with lastApplied := index }
    leader := leader }

/-- The leader state once the client of `index` has been answered. -/
def ClientAnswered (before after : Option Figure2.LeaderState) (index : Nat) : Prop :=
  after = before ∨ ∃ l, before = some l ∧
    after = some { l with pendingClients := l.pendingClients.erase index }

theorem Core.logEntryApplied_eq_ok (h : c.logEntryApplied requestId index = .ok (c', r)) :
    ∃ pending leader completed, c.pendingApplication = some pending ∧
      pending.blocked = false ∧ pending.request.requestId = requestId ∧
      pending.request.entry.index = index ∧ ClientAnswered c.state.leader leader index ∧
      (∀ e ∈ completed, e = .completeClientCommand index) ∧
      Scheduled
        (({ c with
          state := appliedState c.state index leader
          pendingApplication := none } : Core).completeReadyReads { effects := completed }).1
        (({ c with
          state := appliedState c.state index leader
          pendingApplication := none } : Core).completeReadyReads { effects := completed }).2
        c' r := by
  rw [logEntryApplied, ite_error_eq_ok] at h
  obtain ⟨hmatch, h⟩ := h
  obtain ⟨pending, hpend, hp⟩ : ∃ pending, c.pendingApplication = some pending ∧
      (!pending.blocked && pending.request.requestId == requestId &&
        pending.request.entry.index == index) = true := by
    simp only [Bool.not_eq_false, matchesApplication, any_eq_true_iff_get] at hmatch
    obtain ⟨hsome, hget⟩ := hmatch
    exact ⟨_, some_get hsome |>.symm, hget⟩
  simp only [Bool.and_eq_true, Bool.not_eq_true', beq_iff_eq] at hp
  obtain ⟨⟨hb, hid⟩, hidx⟩ := hp
  simp only at h
  cases hl : c.state.leader with
  | none =>
    simp only [hl] at h
    exact ⟨pending, none, [], hpend, hb, hid, hidx, .inl rfl, by simp,
      scheduleApplication_eq_ok h⟩
  | some l =>
    simp only [hl] at h
    split at h
    case isTrue =>
      exact ⟨pending, _, _, hpend, hb, hid, hidx, .inr ⟨l, rfl, rfl⟩,
        by simp, scheduleApplication_eq_ok h⟩
    case isFalse =>
      exact ⟨pending, some l, [], hpend, hb, hid, hidx, .inl rfl, by simp,
        scheduleApplication_eq_ok h⟩

theorem Core.raftLogPersisted_eq_ok {completion : PersistRaftLog}
    (h : c.raftLogPersisted completion = .ok (c', r)) :
    ∃ pending c₁ effects, c.pendingLog = some pending ∧ completion = pending.request ∧
      ({ c with pendingLog := none } : Core).Alike c₁ ∧
      Replaced ({ c with pendingLog := none } : Core) pending.deferredEffects effects ∧
      Scheduled c₁ { effects := effects } c' r := by
  unfold raftLogPersisted at h
  split at h
  case h_1 => cases h
  case h_2 pending hpend =>
    obtain ⟨hmatch, h⟩ := ite_error_eq_ok.mp h
    simp only [bind_eq_ok, Prod.exists] at h
    obtain ⟨c₁, effects, h₁, h⟩ := h
    obtain ⟨hs, hrep⟩ := replaceCompactedAppends_eq_ok h₁
    exact ⟨pending, c₁, effects, hpend, not_not.mp hmatch, hs, hrep,
      scheduleApplication_eq_ok h⟩

/-- `RaftHardStatePersisted`: the specification's completion, then a waiting snapshot. -/
theorem Core.raftHardStatePersisted_eq_ok {completion : PersistRaftHardState}
    (h : c.raftHardStatePersisted completion = .ok (c', r)) :
    ∃ c₁ r₁, c.transition (.raftHardStatePersisted completion) = .ok (c₁, r₁) ∧
      (((c₁.installAfterHardState = none ∨ c₁.state.pendingHardState.isSome) ∧ c' = c₁ ∧ r = r₁) ∨
        ∃ sender request r₂, c₁.installAfterHardState = some (sender, request) ∧
          c₁.state.pendingHardState = none ∧
          ({ c₁ with installAfterHardState := none } : Core).receiveSnapshot sender request =
            .ok (c', r₂) ∧
          r = { rules := r₁.rules ++ r₂.rules, effects := r₁.effects ++ r₂.effects }) := by
  simp only [raftHardStatePersisted, bind_eq_ok, Prod.exists] at h
  obtain ⟨c₁, r₁, h₁, h⟩ := h
  refine ⟨c₁, r₁, h₁, ?_⟩
  split at h
  case h_1 sender request hinst =>
    split at h
    case isTrue hnone =>
      simp only [bind_eq_ok, pure_eq_ok, Prod.exists, Prod.mk.injEq] at h
      obtain ⟨c₂, r₂, h₂, rfl, rfl⟩ := h
      exact .inr ⟨sender, request, r₂, hinst, by simpa using hnone, h₂, rfl⟩
    case isFalse hsome =>
      obtain ⟨rfl, rfl⟩ := Prod.mk.inj (pure_eq_ok.mp h)
      refine .inl ⟨.inr ?_, rfl, rfl⟩
      simpa [isSome_iff_ne_none] using hsome
  case h_2 hnone =>
    obtain ⟨rfl, rfl⟩ := Prod.mk.inj (pure_eq_ok.mp h)
    exact .inl ⟨.inl hnone, rfl, rfl⟩

theorem Core.heartbeatDeadline_eq_ok {timerId : Nat}
    (h : c.heartbeatDeadline timerId = .ok (c', r)) :
    (c' = c ∧ r = {}) ∨ ∃ c₁ r₁ e,
      ({ c with heartbeatTimer := none } : Core).transition .heartbeatTimeout = .ok (c₁, r₁) ∧
        c₁.Alike c' ∧ e.bookkeeping = true ∧ r = r₁.emit e := by
  unfold heartbeatDeadline at h
  split at h
  case isTrue =>
    cases h
    exact .inl ⟨rfl, rfl⟩
  case isFalse =>
    simp only [bind_eq_ok, pure_eq_ok, Prod.exists, Prod.mk.injEq] at h
    obtain ⟨c₁, r₁, h₁, c₂, e, h₂, rfl, rfl⟩ := h
    obtain ⟨hs, hb⟩ := nextHeartbeat_eq_ok h₂
    exact .inr ⟨c₁, r₁, e, h₁, hs, hb, rfl⟩

/-! ## The dispatch -/

/-- The completions that the core accepts whatever else is outstanding, or while only the log
or the hard state is. -/
def Input.isUnblocked : Input → Bool
  | .raftSnapshotPersisted _ => false
  | .raftSnapshotRestored _ _ => false
  | .logEntryApplied _ _ => false
  | .logEntryApplyFailed _ _ => false
  | .retryApplication => false
  | .raftLogPersisted _ => false
  | _ => true

/-- The method of the core an accepted input reaches. -/
inductive Dispatched (c : Core) : Input → Core → StepResult → Prop where
  | snapshotPersisted {completion : PersistRaftSnapshot} {c' : Core} {r : StepResult}
      (h : Core.afterSnapshot (c.installPersistedSnapshot completion) = .ok (c', r)) :
      Dispatched c (.raftSnapshotPersisted completion) c' r
  | snapshotRestored {requestId index : Nat} {c' : Core} {r : StepResult}
      (h : Core.afterSnapshot (c.completeSnapshotRestore requestId index) = .ok (c', r)) :
      Dispatched c (.raftSnapshotRestored requestId index) c' r
  | applied {requestId index : Nat} {c' : Core} {r : StepResult}
      (hs : c.pendingSnapshot = none) (hr : c.pendingSnapshotRestore = none)
      (h : c.logEntryApplied requestId index = .ok (c', r)) :
      Dispatched c (.logEntryApplied requestId index) c' r
  | applyFailed {requestId index : Nat} {c' : Core} {r : StepResult}
      (hs : c.pendingSnapshot = none) (hr : c.pendingSnapshotRestore = none)
      (h : c.logEntryApplyFailed requestId index = .ok (c', r)) :
      Dispatched c (.logEntryApplyFailed requestId index) c' r
  | retry {c' : Core} {r : StepResult}
      (hs : c.pendingSnapshot = none) (hr : c.pendingSnapshotRestore = none)
      (h : c.retryApplication = .ok (c', r)) :
      Dispatched c .retryApplication c' r
  | logPersisted {completion : PersistRaftLog} {c' : Core} {r : StepResult}
      (hs : c.pendingSnapshot = none) (hr : c.pendingSnapshotRestore = none)
      (h : c.raftLogPersisted completion = .ok (c', r)) :
      Dispatched c (.raftLogPersisted completion) c' r
  | unblocked {input : Input} {c' : Core} {r : StepResult} (hi : input.isUnblocked = true)
      (hs : c.pendingSnapshot = none) (hr : c.pendingSnapshotRestore = none)
      (hl : c.pendingLog = none) (h : c.stepUnblocked input = .ok (c', r)) :
      Dispatched c input c' r

theorem Core.step_eq_ok {input : Input} (h : c.step input = .ok (c', r)) :
    c.started = true ∧ Dispatched c input c' r := by
  unfold Core.step at h
  obtain ⟨hstarted, h⟩ := ite_error_eq_ok.mp h
  refine ⟨by simpa using hstarted, ?_⟩
  cases input
  case raftSnapshotPersisted completion => exact .snapshotPersisted h
  case raftSnapshotRestored requestId index => exact .snapshotRestored h
  all_goals
    simp only at h
    obtain ⟨hidle, h⟩ := ite_error_eq_ok.mp h
    simp only [not_or, Bool.not_eq_true, isSome_eq_false_iff,
      isNone_iff_eq_none] at hidle
  case logEntryApplied requestId index => exact .applied hidle.1 hidle.2 h
  case logEntryApplyFailed requestId index => exact .applyFailed hidle.1 hidle.2 h
  case retryApplication => exact .retry hidle.1 hidle.2 h
  case raftLogPersisted completion => exact .logPersisted hidle.1 hidle.2 h
  all_goals
    obtain ⟨hlog, h⟩ := ite_error_eq_ok.mp h
    exact .unblocked rfl hidle.1 hidle.2 (by simpa using hlog) h

/-! ## What the constructor guarantees

`Core::Core` either throws or builds a core in a state that satisfies the representation
invariant, follows nobody, and has nothing outstanding. -/

variable {a : Recovery} {log log' : List LogEntry} {metadata : SnapshotMetadata}

/-- The log and the snapshot of a recovered state. -/
theorem recoverState_eq_ok {s : Figure2.State} (h : recoverState a = .ok s) :
    s.node = a.self ∧ s.peers = a.peers ∧ s.role = .follower ∧
      s.persistent.currentTerm = a.recovered.currentTerm ∧
      s.persistent.votedFor = a.recovered.votedFor ∧
      s.persistent.snapshot = a.recoveredSnapshot.map RaftSnapshot.metadata ∧
      s.pendingHardState = none ∧ s.volatileState.commitIndex = s.volatileState.lastApplied ∧
      (a.recoveredSnapshot = none → s.persistent.log = a.recoveredLog ∧
        s.volatileState.lastApplied = a.recoveredApplied) ∧
      (∀ snapshot, a.recoveredSnapshot = some snapshot →
        logAfterSnapshot a.recoveredLog snapshot.metadata = .ok s.persistent.log ∧
        s.volatileState.lastApplied =
          max a.recoveredApplied snapshot.metadata.lastIncludedIndex) := by
  simp only [recoverState] at h
  cases hsnap : a.recoveredSnapshot with
  | none =>
    simp only [hsnap, pure_eq_ok] at h
    subst h
    simp
  | some snapshot =>
    simp only [hsnap, bind_eq_ok, pure_eq_ok] at h
    obtain ⟨_, _, log, hlog, rfl⟩ := h
    simp [hlog]

/-- The two ways a recovered log fits a recovered snapshot: it has the snapshot's last entry,
or it starts right after it. -/
theorem logAfterSnapshot_eq_ok (h : logAfterSnapshot log metadata = .ok log') :
    (∃ before entry, log = before ++ entry :: log' ∧
        (∀ e ∈ before, e.index ≠ metadata.lastIncludedIndex) ∧
        entry.index = metadata.lastIncludedIndex ∧ entry.term = metadata.lastIncludedTerm) ∨
      (log' = log ∧ (∀ e ∈ log, e.index ≠ metadata.lastIncludedIndex) ∧
        ∀ front, log.head? = some front → front.index = metadata.lastIncludedIndex + 1) := by
  simp only [logAfterSnapshot] at h
  cases hd : log.dropWhile fun entry => decide (entry.index ≠ metadata.lastIncludedIndex) with
  | cons entry suffix =>
    simp only [hd] at h
    obtain ⟨hterm, h⟩ := ite_error_eq_ok.mp h
    obtain rfl : suffix = log' := Except.ok.inj h
    refine .inl ⟨log.takeWhile fun entry =>
      decide (entry.index ≠ metadata.lastIncludedIndex), entry, ?_, ?_, ?_, not_not.mp hterm⟩
    · rw [← hd, takeWhile_append_dropWhile]
    · intro e he
      simpa using mem_takeWhile_imp he
    · have := head_dropWhile_not (fun entry : LogEntry =>
        decide (entry.index ≠ metadata.lastIncludedIndex)) (by rw [hd]; simp)
      simp only [hd, head_cons, decide_eq_false_iff_not, not_not] at this
      exact this
  | nil =>
    simp only [hd] at h
    have hnone : ∀ e ∈ log, e.index ≠ metadata.lastIncludedIndex := by
      intro e he
      simpa using List.dropWhile_eq_nil_iff.mp hd e he
    cases log with
    | nil =>
      obtain rfl : [] = log' := Except.ok.inj h
      exact .inr ⟨rfl, hnone, by simp⟩
    | cons front rest =>
      simp only at h
      obtain ⟨hfront, h⟩ := ite_error_eq_ok.mp h
      obtain rfl : front :: rest = log' := Except.ok.inj h
      refine .inr ⟨rfl, hnone, ?_⟩
      rintro f hf
      rw [← Option.some.inj hf]
      exact not_not.mp hfront

theorem logAfterSnapshot_suffix (h : logAfterSnapshot log metadata = .ok log') : log' <:+ log := by
  rcases logAfterSnapshot_eq_ok h with ⟨before, entry, rfl, _⟩ | ⟨rfl, _⟩
  · exact ⟨before ++ [entry], by simp⟩
  · exact suffix_refl _

theorem Core.make_eq_ok (h : make a = .ok c) :
    checkConfiguration a = .ok () ∧ recoverState a = .ok c.state ∧ WellFormed c.state ∧
      c.pendingLog = none ∧ c.pendingApplication = none ∧ c.pendingSnapshot = none ∧
      c.pendingSnapshotRestore = none ∧ c.installAfterHardState = none ∧
      c.durableSnapshot = a.recoveredSnapshot := by
  simp only [make, bind_eq_ok] at h
  obtain ⟨_, hcheck, s, hs, h⟩ := h
  obtain ⟨_, h⟩ := ite_error_eq_ok.mp h
  cases hv : Figure2.validate s with
  | cons violation rest => simp [hv] at h
  | nil =>
    simp only [hv, pure_eq_ok] at h
    subst h
    exact ⟨hcheck, hs, (Figure2.validate_eq_nil_iff.mp hv).1, rfl, rfl, rfl, rfl, rfl, rfl⟩

theorem checkConfiguration_eq_ok {u : Unit} (h : checkConfiguration a = .ok u) :
    a.self ≠ 0 ∧ 3 ≤ a.peers.length + 1 ∧ (a.peers.length + 1) % 2 = 1 := by
  simp only [checkConfiguration, ite_error_eq_ok] at h
  obtain ⟨hself, _, hsize, _⟩ := h
  exact ⟨hself, by omega, by omega⟩

theorem Core.start_eq_ok (h : c.start = .ok (c', r)) :
    ({ c with started := true } : Core).Alike c' ∧ ∀ e ∈ r.effects, e.bookkeeping = true := by
  unfold start at h
  obtain ⟨_, h⟩ := ite_error_eq_ok.mp h
  simp only [bind_eq_ok, pure_eq_ok, Prod.exists, Prod.mk.injEq] at h
  obtain ⟨c₁, e, h₁, rfl, rfl⟩ := h
  obtain ⟨hs, hb⟩ := nextDeadline_eq_ok h₁
  exact ⟨hs, by simpa using hb⟩

end KuraMetadata.Election
