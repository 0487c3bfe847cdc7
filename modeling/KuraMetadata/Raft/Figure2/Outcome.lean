import KuraMetadata.Raft.Figure2.WellFormed

/-! # What a step of the specification can do

`Outcome s event r` lists the ways the handler of an event can return, before the durability
gate: one constructor for each path through the handlers, with the state and the effects it
produces. `step_outcome` says that the list is complete; everything later is proved by cases
on it. -/

namespace KuraMetadata.Figure2

open List Except
open StepResult (rule emit)

variable {r r' : StepResult} {s : State} {rules : List RuleId} {effects : List Effect}
variable {sender : NodeId} {event : Event}
variable {T : Nat} {leader : LeaderState} {request : AppendEntriesRequest}

/-! ## States along the way -/

/-- The state after `observe_higher_term`. -/
def stepDown (s : State) (T : Nat) : State :=
  { s with
    persistent := { s.persistent with currentTerm := T, votedFor := none }
    role := .follower
    knownLeader := none
    votesReceived := ∅
    leader := none
    nextHardStateRequestId := s.nextHardStateRequestId + 1 }

/-- The state after `start_election`. -/
def campaigning (s : State) : State :=
  { s with
    persistent := { s.persistent with
      currentTerm := s.persistent.currentTerm + 1
      votedFor := some s.node }
    role := .candidate
    knownLeader := none
    leader := none
    votesReceived := {s.node}
    nextHardStateRequestId := s.nextHardStateRequestId + 1 }

/-- The state after a granted vote that has to be made durable. -/
def voting (s : State) (candidate : NodeId) : State :=
  { s with
    persistent := { s.persistent with votedFor := some candidate }
    nextHardStateRequestId := s.nextHardStateRequestId + 1 }

/-- The state after `initialize_leader`. -/
def leading (s : State) : State :=
  { s with
    role := .leader
    votesReceived := ∅
    knownLeader := some s.node
    leader := some {
      progress := s.peers.map fun peer =>
        (peer, { nextIndex := lastIndex s + 1, matchIndex := 0 }) } }

/-- The state of a node that follows the leader `sender`. -/
def following (s : State) (sender : NodeId) : State :=
  { s with role := .follower, leader := none, votesReceived := ∅, knownLeader := some sender }

/-- The state after an accepted `AppendEntries`. -/
def accepting (s : State) (log : List LogEntry) (commit : Nat) : State :=
  { s with
    persistent := { s.persistent with log := log }
    volatileState := { s.volatileState with commitIndex := commit } }

def withLeader (s : State) (leader : LeaderState) : State := { s with leader := some leader }

def withCommit (s : State) (commit : Nat) : State :=
  { s with volatileState := { s.volatileState with commitIndex := commit } }

/-- The state after a leader has appended a client command. -/
def appending (s : State) (leader : LeaderState) (command : CommandEnvelope) : State :=
  { s with
    persistent := { s.persistent with
      log := s.persistent.log ++ [⟨s.persistent.currentTerm, lastIndex s + 1, command⟩] }
    leader := some { leader with
      pendingClients := insert (lastIndex s + 1) leader.pendingClients } }

/-- The term an event brings with it. -/
def Event.term? : Event → Option Nat
  | .observeTerm term => some term
  | .receiveRequestVote _ request => some request.term
  | .receiveRequestVoteResponse _ response => some response.term
  | .receiveAppendEntries _ request => some request.term
  | .receiveAppendEntriesResponse _ response => some response.term
  | _ => none

/-- `observe_higher_term` as a relation: the state and the effects it leaves. -/
inductive Observed (s : State) (T : Nat) : State → List Effect → Prop where
  | same (h : T ≤ s.persistent.currentTerm) : Observed s T s []
  | higher (h : s.persistent.currentTerm < T) :
      Observed s T (stepDown s T)
        [.persistRaftHardState ⟨s.nextHardStateRequestId, ⟨T, none⟩⟩]

/-- The effects are `AppendEntries` to peers, built from `s`. -/
def Sends (s : State) (peers : List NodeId) (effects : List Effect) : Prop :=
  ∀ e ∈ effects, ∃ p ∈ peers, ∃ request, appendRequest s p none = .ok request ∧
    e = .sendAppendEntries p request

/-- `advance_leader_commit` as a relation. -/
inductive Advanced (s : State) (leader : LeaderState) : Nat → List RuleId → Prop where
  | same {rules : List RuleId} (h : .leaderAdvanceCommit ∉ rules) :
      Advanced s leader s.volatileState.commitIndex rules
  | advance {commit : Nat} {rules : List RuleId} (hlt : s.volatileState.commitIndex < commit)
      (hle : commit ≤ lastIndex s) (hterm : termAt s commit = .ok s.persistent.currentTerm)
      (hmaj : majority s ≤ replicated leader commit) : Advanced s leader commit rules

/-- The request passes the consistency check and merges into the local log. -/
def Merges (s : State) (request : AppendEntriesRequest) (log : List LogEntry)
    (changed : Bool) : Prop :=
  matchesPrevious s request = .ok true ∧
    contiguousFrom (request.previousLogIndex + 1) request.entries = true ∧
    ∃ scan, scanEntries s request.entries = .ok scan ∧ mergedLog s scan = some (log, changed)

/-! ## The outcomes -/

inductive Outcome (s : State) : Event → StepResult → Prop where
  | idle {event : Event} {rules : List RuleId} (he : event.isCompletion = false)
      (h : .leaderAdvanceCommit ∉ rules) :
      Outcome s event ⟨s, rules, []⟩
  | heartbeat {rules : List RuleId} {effects : List Effect} (hr : s.role = .leader)
      (h : .leaderAdvanceCommit ∉ rules) (hs : Sends s s.peers effects) :
      Outcome s .heartbeatTimeout ⟨s, rules, effects⟩
  | campaign {rules : List RuleId} (hr : s.role ≠ .leader) (h : .leaderAdvanceCommit ∉ rules) :
      Outcome s .electionTimeout ⟨campaigning s, rules,
        .persistRaftHardState
          ⟨s.nextHardStateRequestId, ⟨s.persistent.currentTerm + 1, some s.node⟩⟩ ::
        .resetElectionTimer ::
        s.peers.map fun peer => .sendRequestVote peer
          ⟨s.persistent.currentTerm + 1, s.node, lastIndex s, lastTerm s⟩⟩
  | observe {event : Event} {T : Nat} {rules : List RuleId} (he : event.term? = some T)
      (h : .leaderAdvanceCommit ∉ rules) (hT : s.persistent.currentTerm < T) :
      Outcome s event ⟨stepDown s T, rules,
        [.persistRaftHardState ⟨s.nextHardStateRequestId, ⟨T, none⟩⟩]⟩
  | voteStale {sender : NodeId} {request : RequestVoteRequest} {rules : List RuleId}
      (h : .leaderAdvanceCommit ∉ rules) :
      Outcome s (.receiveRequestVote sender request) ⟨s, rules,
        [.sendRequestVoteResponse sender ⟨s.persistent.currentTerm, false⟩]⟩
  | voteDeny {sender : NodeId} {request : RequestVoteRequest} {rules : List RuleId} {s₁ : State}
      {observed : List Effect} (h : .leaderAdvanceCommit ∉ rules)
      (ho : Observed s request.term s₁ observed)
      (ht : request.term = s₁.persistent.currentTerm) :
      Outcome s (.receiveRequestVote sender request) ⟨s₁, rules,
        observed ++ [.sendRequestVoteResponse sender ⟨s₁.persistent.currentTerm, false⟩]⟩
  | voteAgain {sender : NodeId} {request : RequestVoteRequest} {rules : List RuleId}
      (h : .leaderAdvanceCommit ∉ rules) (hs : request.candidate = sender)
      (ht : request.term = s.persistent.currentTerm)
      (hv : s.persistent.votedFor = some sender) :
      Outcome s (.receiveRequestVote sender request) ⟨s, rules,
        [.resetElectionTimer,
          .sendRequestVoteResponse sender ⟨s.persistent.currentTerm, true⟩]⟩
  | voteGrant {sender : NodeId} {request : RequestVoteRequest} {rules : List RuleId} {s₁ : State}
      {observed : List Effect} (h : .leaderAdvanceCommit ∉ rules)
      (ho : Observed s request.term s₁ observed) (hp : sender ∈ s.peers)
      (hs : request.candidate = sender) (ht : request.term = s₁.persistent.currentTerm)
      (hv : s₁.persistent.votedFor = none)
      (hu : isLogAtLeastAsUpToDate s₁ request.lastLogTerm request.lastLogIndex = true) :
      Outcome s (.receiveRequestVote sender request) ⟨voting s₁ sender, rules,
        observed ++
          [.persistRaftHardState
            ⟨s₁.nextHardStateRequestId, ⟨s₁.persistent.currentTerm, some sender⟩⟩,
          .resetElectionTimer,
          .sendRequestVoteResponse sender ⟨s₁.persistent.currentTerm, true⟩]⟩
  | voteRecorded {sender : NodeId} {response : RequestVoteResponse} {rules : List RuleId}
      (h : .leaderAdvanceCommit ∉ rules) (hp : sender ∈ s.peers) (hr : s.role = .candidate)
      (ht : response.term = s.persistent.currentTerm) (hg : response.granted = true) :
      Outcome s (.receiveRequestVoteResponse sender response)
        ⟨{ s with votesReceived := insert sender s.votesReceived }, rules, []⟩
  | elected {sender : NodeId} {response : RequestVoteResponse} {rules : List RuleId}
      {effects : List Effect} (h : .leaderAdvanceCommit ∉ rules) (hp : sender ∈ s.peers)
      (hr : s.role = .candidate) (ht : response.term = s.persistent.currentTerm)
      (hg : response.granted = true)
      (hm : majority s ≤ (insert sender s.votesReceived).card)
      (hs : Sends (leading s) s.peers effects) (hl : lastIndex s ≠ u64Max) :
      Outcome s (.receiveRequestVoteResponse sender response) ⟨leading s, rules, effects⟩
  | appendStale {sender : NodeId} {request : AppendEntriesRequest} {rules : List RuleId}
      (h : .leaderAdvanceCommit ∉ rules) :
      Outcome s (.receiveAppendEntries sender request) ⟨s, rules,
        [.sendAppendEntriesResponse sender
          ⟨s.persistent.currentTerm, false, 0, request.readContext⟩]⟩
  | appendReject {sender : NodeId} {request : AppendEntriesRequest} {rules : List RuleId}
      {s₁ : State} {observed : List Effect} (h : .leaderAdvanceCommit ∉ rules)
      (ho : Observed s request.term s₁ observed) (hs : request.leader = sender)
      (hp : sender ∈ s.peers) (ht : request.term = s₁.persistent.currentTerm) :
      Outcome s (.receiveAppendEntries sender request) ⟨following s₁ sender, rules,
        observed ++
          [.resetElectionTimer,
          .sendAppendEntriesResponse sender
            ⟨s₁.persistent.currentTerm, false, 0, request.readContext⟩]⟩
  | appendAccept {sender : NodeId} {request : AppendEntriesRequest} {rules : List RuleId}
      {s₁ : State} {observed : List Effect} {log : List LogEntry} {changed : Bool}
      (h : .leaderAdvanceCommit ∉ rules) (ho : Observed s request.term s₁ observed)
      (hs : request.leader = sender) (hp : sender ∈ s.peers)
      (ht : request.term = s₁.persistent.currentTerm)
      (hm : Merges (following s₁ sender) request log changed) :
      Outcome s (.receiveAppendEntries sender request)
        ⟨accepting (following s₁ sender) log
            (boundedCommit s₁.volatileState.commitIndex request), rules,
          observed ++ .resetElectionTimer ::
            ((if changed then [.persistState] else []) ++
              [.sendAppendEntriesResponse sender
                ⟨s₁.persistent.currentTerm, true,
                  request.previousLogIndex + request.entries.length, request.readContext⟩])⟩
  | replicated {sender : NodeId} {response : AppendEntriesResponse} {rules : List RuleId}
      {leader leader' : LeaderState} {p : PeerProgress} {commit : Nat} (hr : s.role = .leader)
      (ht : response.term = s.persistent.currentTerm) (hsucc : response.succeeded = true)
      (hl : s.leader = some leader) (hp : leader.progress.lookup sender = some p)
      (hm : response.matchedIndex ≤ lastIndex s)
      (hl' : leader' = { leader with
        progress := setProgress leader.progress sender
          ⟨max p.matchIndex response.matchedIndex + 1, max p.matchIndex response.matchedIndex⟩ })
      (ha : Advanced (withLeader s leader') leader' commit rules) :
      Outcome s (.receiveAppendEntriesResponse sender response)
        ⟨withCommit (withLeader s leader') commit, rules, []⟩
  | retried {sender : NodeId} {response : AppendEntriesResponse} {rules : List RuleId}
      {leader leader' : LeaderState} {p : PeerProgress} {request : AppendEntriesRequest}
      (h : .leaderAdvanceCommit ∉ rules) (hr : s.role = .leader)
      (ht : response.term = s.persistent.currentTerm) (hsucc : response.succeeded = false)
      (hl : s.leader = some leader) (hp : leader.progress.lookup sender = some p)
      (hl' : leader' = { leader with
        progress := setProgress leader.progress sender
          ⟨max (p.matchIndex + 1) (max 1 (p.nextIndex - 1)), p.matchIndex⟩ })
      (hs : sender ∈ s.peers)
      (hq : appendRequest (withLeader s leader') sender response.readContext = .ok request) :
      Outcome s (.receiveAppendEntriesResponse sender response)
        ⟨withLeader s leader', rules, [.sendAppendEntries sender request]⟩
  | appended {command : CommandEnvelope} {rules : List RuleId} {leader leader' : LeaderState}
      {effects : List Effect} {commit : Nat} (hr : s.role = .leader)
      (hl : s.leader = some leader) (hl' : (appending s leader command).leader = some leader')
      (hs : Sends (appending s leader command) s.peers effects)
      (ha : Advanced (appending s leader command) leader' commit rules) :
      Outcome s (.receiveClientCommand command)
        ⟨withCommit (appending s leader command) commit, rules, .persistState :: effects⟩
  | released {completion : PersistRaftHardState} {pending : PendingHardStatePersistence}
      (hp : s.pendingHardState = some pending) (hc : completion = pending.request) :
      Outcome s (.raftHardStatePersisted completion)
        ⟨{ s with pendingHardState := none }, [], pending.deferredEffects⟩

/-! ## Every step has one of the outcomes -/

theorem persistHardState_eq_ok (h : persistHardState r = .ok r') :
    r' = { r with
      state := { r.state with nextHardStateRequestId := r.state.nextHardStateRequestId + 1 }
      effects := r.effects ++
        [.persistRaftHardState ⟨r.state.nextHardStateRequestId, hardState r.state⟩] } := by
  rw [persistHardState, ite_error_eq_ok] at h
  exact (Except.ok.inj h.2).symm

theorem observeHigherTerm_eq_ok (h : observeHigherTerm ⟨s, rules, []⟩ T = .ok r) :
    (T ≤ s.persistent.currentTerm ∧ r = ⟨s, rules, []⟩) ∨
      (s.persistent.currentTerm < T ∧ r = ⟨stepDown s T, rules ++ [.observeHigherTerm],
        [.persistRaftHardState ⟨s.nextHardStateRequestId, ⟨T, none⟩⟩]⟩) := by
  unfold observeHigherTerm at h
  split at h
  case isTrue hlt =>
    exact .inr ⟨hlt, persistHardState_eq_ok h⟩
  case isFalse hle =>
    exact .inl ⟨Nat.le_of_not_lt hle, (Except.ok.inj h).symm⟩

theorem sendAppends_eq_ok {peers : List NodeId} (h : sendAppends r peers = .ok r') :
    r'.state = r.state ∧
      (∃ rules, r'.rules = r.rules ++ rules ∧ ∀ rule ∈ rules, rule = .leaderReplicate) ∧
      ∃ effects, r'.effects = r.effects ++ effects ∧ Sends r.state peers effects := by
  induction peers generalizing r with
  | nil =>
    simp only [sendAppends, Except.ok.injEq] at h
    subst h
    exact ⟨rfl, ⟨[], by simp⟩, [], by simp, by simp [Sends]⟩
  | cons peer rest ih =>
    simp only [sendAppends, sendAppend, bind_eq_ok, pure_eq_ok] at h
    obtain ⟨r₁, ⟨request, hreq, rfl⟩, h⟩ := h
    obtain ⟨hs, ⟨rules, hr, hrules⟩, effects, he, hsends⟩ := ih h
    refine ⟨hs, ⟨.leaderReplicate :: rules, ?_, by simpa using hrules⟩,
      .sendAppendEntries peer request :: effects, ?_, ?_⟩
    · simp [hr, rule, emit]
    · simp [he, rule, emit]
    · intro e hmem
      rcases mem_cons.mp hmem with rfl | hmem
      · exact ⟨peer, mem_cons_self, request, hreq, rfl⟩
      · obtain ⟨p, hp, q, hq, rfl⟩ := hsends e hmem
        exact ⟨p, mem_cons_of_mem _ hp, q, hq, rfl⟩

theorem initializeLeader_eq_ok (h : initializeLeader ⟨s, rules, effects⟩ = .ok r) :
    lastIndex s ≠ u64Max ∧ r.state = leading s ∧
      (∃ rules', r.rules = rules ++ rules' ∧ .leaderAdvanceCommit ∉ rules') ∧
      ∃ effects', r.effects = effects ++ effects' ∧ Sends (leading s) s.peers effects' := by
  simp only [initializeLeader, rule, ite_error_eq_ok] at h
  obtain ⟨hs, ⟨rules', hr, hrules⟩, effects', he, hsends⟩ := sendAppends_eq_ok h.2
  refine ⟨h.1, hs, ⟨.candidateWinElection :: .leaderInitialize :: rules', by simp [hr], ?_⟩,
    effects', he, hsends⟩
  intro hmem
  simp only [mem_cons, reduceCtorEq, false_or] at hmem
  cases hrules _ hmem

/-- The loop of `advance_leader_commit` finds an index of the current term on a majority. -/
theorem commitCandidate_eq_some {n candidate : Nat}
    (h : commitCandidate s leader n = .ok (some candidate)) :
    s.volatileState.commitIndex < candidate ∧ candidate ≤ s.volatileState.commitIndex + n ∧
      termAt s candidate = .ok s.persistent.currentTerm ∧
      majority s ≤ replicated leader candidate := by
  induction n with
  | zero => simp [commitCandidate] at h
  | succ n ih =>
    simp only [commitCandidate, bind_eq_ok] at h
    obtain ⟨term, hterm, h⟩ := h
    split at h
    case isTrue hc =>
      simp only [pure_eq_ok, Option.some.injEq] at h
      subst h
      exact ⟨by omega, le_rfl, hc.1 ▸ hterm, hc.2⟩
    case isFalse =>
      obtain ⟨h1, h2, h3⟩ := ih h
      exact ⟨h1, by omega, h3⟩

theorem advanceLeaderCommit_eq_ok (hl : s.leader = some leader)
    (hq : .leaderAdvanceCommit ∉ rules) (h : advanceLeaderCommit ⟨s, rules, effects⟩ = .ok r) :
    ∃ commit rules', Advanced s leader commit rules' ∧
      r = ⟨withCommit s commit, rules', effects⟩ := by
  simp only [advanceLeaderCommit, hl, bind_eq_ok] at h
  obtain ⟨found, hfound, h⟩ := h
  cases found with
  | none =>
    refine ⟨s.volatileState.commitIndex, rules, .same hq, ?_⟩
    exact (Except.ok.inj h).symm
  | some candidate =>
    obtain ⟨h1, h2, h3, h4⟩ := commitCandidate_eq_some hfound
    refine ⟨candidate, rules ++ [.leaderAdvanceCommit], .advance h1 (by omega) h3 h4, ?_⟩
    rw [← hl] at h
    exact (Except.ok.inj h).symm

theorem handleTimeout_outcome (hr : s.role ≠ .leader) (hp : s.peers ≠ [])
    (h : handleTimeout { state := s } = .ok r) :
    Outcome s .electionTimeout r := by
  have hlen : 0 < s.peers.length := List.length_pos_iff.mpr hp
  have key : ∀ rules, .leaderAdvanceCommit ∉ rules →
      startElection ⟨s, rules, []⟩ = .ok r → Outcome s .electionTimeout r := by
    intro rules hq h
    rw [startElection, ite_error_eq_ok] at h
    obtain ⟨_, h⟩ := h
    obtain ⟨r₁, h₁, h⟩ := bind_eq_ok.mp h
    have hr₁ := persistHardState_eq_ok h₁
    subst hr₁
    have hmaj : majority (campaigning s) ≠ 1 := by
      simp only [majority, campaigning]
      omega
    rw [if_neg (by exact hmaj)] at h
    rw [← pure_eq_ok.mp h]
    exact @Outcome.campaign s (rules ++ [.candidateStartElection]) hr (by simpa using hq)
  unfold handleTimeout at h
  cases hrole : s.role with
  | leader => exact absurd hrole hr
  | follower =>
    simp only [hrole] at h
    exact key [.followerElectionTimeout] (by simp) h
  | candidate =>
    simp only [hrole] at h
    exact key [.candidateRestartElection] (by simp) h
  | learner =>
    simp only [hrole] at h
    rw [← Except.ok.inj h]
    exact .idle rfl (by simp)

theorem ensurePeer_eq_ok {peer : NodeId} {u : Unit} :
    ensurePeer s peer = .ok u ↔ peer ∈ s.peers := by
  unfold ensurePeer
  split <;> simp_all

/-- What a handler sees after `observe_higher_term`. -/
theorem observed_of_eq_ok (h : observeHigherTerm { state := s } T = .ok r) :
    ∃ s₁ observed rules, Observed s T s₁ observed ∧ .leaderAdvanceCommit ∉ rules ∧
      r = ⟨s₁, rules, observed⟩ := by
  rcases observeHigherTerm_eq_ok h with ⟨hle, rfl⟩ | ⟨hlt, rfl⟩
  · exact ⟨_, _, _, .same hle, by simp, rfl⟩
  · exact ⟨_, _, _, .higher hlt, by simp, rfl⟩

theorem Observed.le_term {s₁ : State} {observed : List Effect}
    (h : Observed s T s₁ observed) : T ≤ s₁.persistent.currentTerm := by
  cases h with
  | same h => exact h
  | higher h => exact le_rfl

theorem handleRequestVote_outcome {request : RequestVoteRequest}
    (h : handleRequestVote { state := s } sender request = .ok r) :
    Outcome s (.receiveRequestVote sender request) r := by
  simp only [handleRequestVote, bind_eq_ok, ensurePeer_eq_ok] at h
  obtain ⟨_, hp, h⟩ := h
  obtain ⟨hc, h⟩ := ite_error_eq_ok.mp h
  have hc : request.candidate = sender := not_not.mp hc
  obtain ⟨r₁, h₁, h⟩ := bind_eq_ok.mp h
  obtain ⟨s₁, observed, rules, ho, hq, rfl⟩ := observed_of_eq_ok h₁
  split at h
  case isTrue hlt =>
    cases ho with
    | same =>
      rw [← pure_eq_ok.mp h]
      exact @Outcome.voteStale s sender request (rules ++ [.requestVoteRejectStale])
        (by simpa using hq)
    | higher => simp [stepDown] at hlt
  case isFalse hge =>
    have ht : request.term = s₁.persistent.currentTerm := by
      have := ho.le_term
      simp only at hge
      omega
    simp only [answerVote] at h
    split at h
    case isTrue hok =>
      simp only [Bool.and_eq_true, canVote, Bool.or_eq_true, beq_iff_eq] at hok
      obtain ⟨hcan, hup⟩ := hok
      rw [hc] at hcan h
      split at h
      case isTrue hne =>
        obtain ⟨r₂, h₂, h⟩ := bind_eq_ok.mp h
        have hr₂ := persistHardState_eq_ok h₂
        subst hr₂
        rw [← pure_eq_ok.mp h]
        have hv : s₁.persistent.votedFor = none := hcan.resolve_right hne
        have := @Outcome.voteGrant s sender request (rules ++ [.requestVoteGrant]) s₁ observed
          (by simpa using hq) ho hp hc ht hv hup
        simpa [rule, emit, voting, hardState] using this
      case isFalse heq =>
        have heq : s₁.persistent.votedFor = some sender := not_not.mp heq
        rw [← Except.ok.inj h]
        cases ho with
        | same hle =>
          have := @Outcome.voteAgain s sender request (rules ++ [.requestVoteGrant])
            (by simpa using hq) hc ht heq
          have hs : { s with persistent := { s.persistent with votedFor := some sender } } = s := by
            rw [← heq]
          simpa [rule, emit, hs] using this
        | higher hlt => simp [stepDown] at heq
    case isFalse =>
      rw [← Except.ok.inj h]
      exact @Outcome.voteDeny s sender request (rules ++ [.requestVoteDeny]) s₁ observed
        (by simpa using hq) ho ht

theorem handleRequestVoteResponse_outcome {response : RequestVoteResponse}
    (h : handleRequestVoteResponse { state := s } sender response = .ok r) :
    Outcome s (.receiveRequestVoteResponse sender response) r := by
  simp only [handleRequestVoteResponse, bind_eq_ok, ensurePeer_eq_ok] at h
  obtain ⟨_, hp, r₁, h₁, h⟩ := h
  rcases observeHigherTerm_eq_ok h₁ with ⟨hle, rfl⟩ | ⟨hlt, rfl⟩
  · split at h
    case isTrue =>
      rw [← pure_eq_ok.mp h]
      exact .idle rfl (by simp)
    case isFalse hn =>
      simp only [not_or, not_not, Bool.not_eq_false] at hn
      obtain ⟨hr, ht, hg⟩ := hn
      simp only [recordVote] at h
      split at h
      case isTrue hm =>
        obtain ⟨hl, hs, ⟨rules, hrules, hq⟩, effects, he, hsends⟩ := initializeLeader_eq_ok h
        have := @Outcome.elected s sender response rules effects hq hp hr ht hg hm hsends hl
        obtain ⟨state, rules', effects'⟩ := r
        simp only [nil_append] at hs hrules he
        subst hs hrules he
        exact this
      case isFalse =>
        rw [← Except.ok.inj h]
        exact .voteRecorded (by simp) hp hr ht hg
  · rw [if_pos (.inl (by simp [stepDown]))] at h
    rw [← pure_eq_ok.mp h]
    exact .observe rfl (by simp) hlt

/-- The result of `receive_append`: refuse, or merge and answer. -/
theorem receiveAppend_eq_ok (h : receiveAppend ⟨s, rules, effects⟩ sender request = .ok r) :
    r = rejectAppend ⟨s, rules, effects⟩ sender request ∨
      ∃ log changed, Merges s request log changed ∧
        r = acceptAppend ⟨s, rules, effects⟩ sender request log changed := by
  simp only [receiveAppend, bind_eq_ok] at h
  obtain ⟨matched, hm, h⟩ := h
  split at h
  case isTrue => exact .inl (pure_eq_ok.mp h).symm
  case isFalse hne =>
    have hmt : matched = true := by simpa using hne
    subst hmt
    obtain ⟨hc, h⟩ := ite_error_eq_ok.mp h
    obtain ⟨scan, hscan, h⟩ := bind_eq_ok.mp h
    split at h
    case h_1 => exact .inl (pure_eq_ok.mp h).symm
    case h_2 log changed hmerge =>
      exact .inr ⟨log, changed, ⟨hm, by simpa using hc, scan, hscan, hmerge⟩,
        (pure_eq_ok.mp h).symm⟩

/-- The result of `handle_append_entries`: the answer to a stale request, or what
`receive_append` makes of a node that follows the sender. -/
theorem handleAppendEntries_eq_ok (h : handleAppendEntries { state := s } sender request = .ok r) :
    sender ∈ s.peers ∧ request.leader = sender ∧
      ((request.term < s.persistent.currentTerm ∧ ∃ rules, .leaderAdvanceCommit ∉ rules ∧
          r = ⟨s, rules, [.sendAppendEntriesResponse sender
            ⟨s.persistent.currentTerm, false, 0, request.readContext⟩]⟩) ∨
        ∃ s₁ observed rules, Observed s request.term s₁ observed ∧
          request.term = s₁.persistent.currentTerm ∧ .leaderAdvanceCommit ∉ rules ∧
          receiveAppend ⟨following s₁ sender, rules, observed ++ [.resetElectionTimer]⟩ sender
            request = .ok r) := by
  simp only [handleAppendEntries, bind_eq_ok, ensurePeer_eq_ok] at h
  obtain ⟨_, hp, h⟩ := h
  obtain ⟨hc, h⟩ := ite_error_eq_ok.mp h
  refine ⟨hp, not_not.mp hc, ?_⟩
  obtain ⟨r₁, h₁, h⟩ := bind_eq_ok.mp h
  obtain ⟨s₁, observed, rules, ho, hq, rfl⟩ := observed_of_eq_ok h₁
  split at h
  case isTrue hlt =>
    cases ho with
    | same =>
      rw [← pure_eq_ok.mp h]
      exact .inl ⟨hlt, rules ++ [.appendEntriesRejectStale], by simpa using hq, rfl⟩
    | higher => simp [stepDown] at hlt
  case isFalse hge =>
    have ht : request.term = s₁.persistent.currentTerm :=
      Nat.le_antisymm ho.le_term (Nat.le_of_not_lt hge)
    -- A candidate only adds a rule to the result.
    split at h
    · exact .inr ⟨s₁, observed, rules ++ [RuleId.candidateAcceptAppendEntries], ho, ht,
        by simpa using hq, h⟩
    · exact .inr ⟨s₁, observed, rules, ho, ht, hq, h⟩

theorem handleAppendEntries_outcome
    (h : handleAppendEntries { state := s } sender request = .ok r) :
    Outcome s (.receiveAppendEntries sender request) r := by
  obtain ⟨hp, hc, ⟨_, rules, hq, rfl⟩ | ⟨s₁, observed, rules, ho, ht, hq, h⟩⟩ :=
    handleAppendEntries_eq_ok h
  · exact .appendStale hq
  · rcases receiveAppend_eq_ok h with rfl | ⟨log, changed, hm, rfl⟩
    · have := @Outcome.appendReject s sender request
        (rules ++ [.appendEntriesRejectLogMismatch]) s₁ observed (by simpa using hq) ho hc hp ht
      simpa [rejectAppend, rule, emit, following] using this
    · have := @Outcome.appendAccept s sender request
        (acceptAppend ⟨following s₁ sender, rules, observed ++ [.resetElectionTimer]⟩ sender
          request log changed).rules s₁ observed log changed
        (by simp only [acceptAppend]; split <;> simpa using hq) ho hc hp ht hm
      simpa [acceptAppend, following, accepting] using this

theorem handleAppendEntriesResponse_outcome {response : AppendEntriesResponse}
    (h : handleAppendEntriesResponse { state := s } sender response = .ok r) :
    Outcome s (.receiveAppendEntriesResponse sender response) r := by
  simp only [handleAppendEntriesResponse, bind_eq_ok, ensurePeer_eq_ok] at h
  obtain ⟨_, hpeer, r₁, h₁, h⟩ := h
  rcases observeHigherTerm_eq_ok h₁ with ⟨hle, rfl⟩ | ⟨hlt, rfl⟩
  · split at h
    case isTrue =>
      rw [← pure_eq_ok.mp h]
      exact .idle rfl (by simp)
    case isFalse hn =>
      simp only [not_or, not_not] at hn
      obtain ⟨hr, ht⟩ := hn
      cases hl : s.leader with
      | none => simp [hl] at h
      | some leader =>
        simp only [hl] at h
        cases hlk : leader.progress.lookup sender with
        | none => simp [hlk] at h
        | some p =>
          simp only [hlk] at h
          split at h
          case isTrue hsucc =>
            rw [recordReplication, ite_error_eq_ok] at h
            obtain ⟨hm, h⟩ := h
            simp only [rule] at h
            obtain ⟨commit, rules, ha, rfl⟩ := advanceLeaderCommit_eq_ok rfl (by simp) h
            exact .replicated hr ht hsucc hl hlk (Nat.le_of_not_lt hm) rfl ha
          case isFalse hsucc =>
            simp only [retryReplication, sendAppend, bind_eq_ok] at h
            obtain ⟨request, hreq, h⟩ := h
            rw [← pure_eq_ok.mp h]
            exact .retried (by simp [rule]) hr ht (by simpa using hsucc) hl hlk rfl
              hpeer hreq
  · rw [if_pos (.inl (by simp [stepDown]))] at h
    rw [← pure_eq_ok.mp h]
    exact .observe rfl (by simp) hlt

theorem handleClient_outcome {command : CommandEnvelope}
    (h : handleClient { state := s } command = .ok r) :
    Outcome s (.receiveClientCommand command) r := by
  simp only [handleClient] at h
  split at h
  case isTrue =>
    rw [← Except.ok.inj h]
    exact .idle rfl (by simp)
  case isFalse hr =>
    have hr : s.role = .leader := not_not.mp hr
    obtain ⟨_, h⟩ := ite_error_eq_ok.mp h
    cases hl : s.leader with
    | none => simp [hl] at h
    | some leader =>
      simp only [hl, bind_eq_ok] at h
      obtain ⟨r₁, h₁, h⟩ := h
      obtain ⟨hs, ⟨rules, hrules, hq⟩, effects, he, hsends⟩ := sendAppends_eq_ok h₁
      obtain ⟨state₁, rules₁, effects₁⟩ := r₁
      simp only [rule, emit] at hs hrules he hsends
      subst hs
      obtain ⟨commit, rules', ha, rfl⟩ := advanceLeaderCommit_eq_ok rfl
        (by
          rw [hrules]
          intro hmem
          simp only [nil_append, mem_append, mem_singleton, reduceCtorEq,
            false_or] at hmem
          cases hq _ hmem) h
      rw [he]
      exact .appended hr hl rfl hsends ha

/-- The handler of an event the core uses returns with one of the outcomes. -/
theorem dispatch_outcome (hp : event = .electionTimeout → s.peers ≠ [])
    (hne : event ≠ .applyCommitted)
    (h : dispatch { state := s } event = .ok r) :
    Outcome s event r := by
  cases event with
  | electionTimeout =>
    simp only [dispatch] at h
    split at h
    case isTrue hr => exact handleTimeout_outcome hr (hp rfl) h
    case isFalse =>
      rw [← Except.ok.inj h]
      exact .idle rfl (by simp)
  | heartbeatTimeout =>
    simp only [dispatch] at h
    split at h
    case isTrue hr =>
      simp only [handleTimeout, hr] at h
      obtain ⟨hs, ⟨rules, hrules, hq⟩, effects, he, hsends⟩ := sendAppends_eq_ok h
      obtain ⟨state, rules', effects'⟩ := r
      simp only [rule, nil_append] at hs hrules he
      subst hs hrules he
      refine .heartbeat hr ?_ hsends
      intro hmem
      simp only [singleton_append, mem_cons, reduceCtorEq, false_or] at hmem
      cases hq _ hmem
    case isFalse =>
      rw [← Except.ok.inj h]
      exact .idle rfl (by simp)
  | applyCommitted => exact absurd rfl hne
  | observeTerm term =>
    rcases observeHigherTerm_eq_ok h with ⟨hle, rfl⟩ | ⟨hlt, rfl⟩
    · exact .idle rfl (by simp)
    · exact .observe rfl (by simp) hlt
  | receiveRequestVote sender request => exact handleRequestVote_outcome h
  | receiveRequestVoteResponse sender response => exact handleRequestVoteResponse_outcome h
  | receiveAppendEntries sender request => exact handleAppendEntries_outcome h
  | receiveAppendEntriesResponse sender response => exact handleAppendEntriesResponse_outcome h
  | receiveClientCommand command => exact handleClient_outcome h
  | raftHardStatePersisted completion =>
    simp only [dispatch] at h
    cases hpend : s.pendingHardState with
    | none => simp [hpend] at h
    | some pending =>
      simp only [hpend] at h
      split at h
      case isTrue hc =>
        rw [← Except.ok.inj h]
        exact .released hpend hc
      case isFalse => cases h

/-! ## The durability gate -/

/-- The effects contain no hard-state write. -/
def Ungated (effects : List Effect) : Prop := ∀ q, .persistRaftHardState q ∉ effects

theorem ungated_iff : Ungated effects ↔ ∀ e ∈ effects, e.hardStateWrite? = none := by
  constructor
  · intro h e he
    cases e <;> first | rfl | exact absurd he (h _)
  · intro h q hq
    cases h _ hq

/-- The gate as a relation: nothing to gate, or everything after the first hard-state write
is kept back. -/
inductive Gated (r : StepResult) : StepResult → Prop where
  | through (h : Ungated r.effects) : Gated r r
  | cut {before deferred : List Effect} {request : PersistRaftHardState}
      (he : r.effects = before ++ .persistRaftHardState request :: deferred)
      (hb : Ungated before) (hn : r.state.pendingHardState = none) :
      Gated r ⟨{ r.state with pendingHardState := some ⟨request, deferred⟩ }, r.rules,
        before ++ [.persistRaftHardState request]⟩

theorem gateOnHardState_eq_ok (h : gateOnHardState r = .ok r') : Gated r r' := by
  unfold gateOnHardState at h
  cases hs : r.effects.splitFirst Effect.hardStateWrite? with
  | none =>
    simp only [hs, Except.ok.injEq] at h
    subst h
    exact .through (ungated_iff.mpr (splitFirst_eq_none hs))
  | some split =>
    obtain ⟨before, request, deferred⟩ := split
    simp only [hs] at h
    obtain ⟨hn, h⟩ := ite_error_eq_ok.mp h
    obtain ⟨e, he, hw, hb⟩ := splitFirst_eq_some hs
    cases e <;> simp only [Effect.hardStateWrite?, reduceCtorEq, Option.some.injEq] at hw
    subst hw
    rw [← Except.ok.inj h]
    exact .cut he (ungated_iff.mpr hb) (by simpa using hn)

/-- A step that returns, taken apart. The states on both sides satisfy the representation
invariant, and a step is a completion exactly when one is awaited. -/
theorem step_eq_ok (h : step s event = .ok r) :
    validate s = [] ∧ validate r.state = [] ∧
      (s.pendingHardState.isSome = event.isCompletion) ∧
      ∃ r₀, dispatch { state := s } event = .ok r₀ ∧ Gated r₀ r := by
  simp only [step, bind_eq_ok, ensureValid_eq_ok] at h
  obtain ⟨_, hv, h⟩ := h
  rw [ite_error_eq_ok, ite_error_eq_ok] at h
  obtain ⟨hblocked, hunexpected, h⟩ := h
  simp only [bind_eq_ok, ensureValid_eq_ok, pure_eq_ok] at h
  obtain ⟨r₀, h₀, r₁, h₁, _, hv', rfl⟩ := h
  refine ⟨hv, hv', ?_, r₀, h₀, gateOnHardState_eq_ok h₁⟩
  cases hpend : s.pendingHardState <;> cases hev : event.isCompletion <;> simp_all

/-- **What a step does.** The result is a gated outcome. -/
theorem step_outcome (hp : s.peers ≠ [])
    (hne : event ≠ .applyCommitted) (h : step s event = .ok r) :
    WellFormed s ∧ WellFormed r.state ∧ (s.pendingHardState.isSome = event.isCompletion) ∧
      ∃ r₀, Outcome s event r₀ ∧ Gated r₀ r := by
  obtain ⟨hv, hv', hcompl, r₀, h₀, hg⟩ := step_eq_ok h
  exact ⟨(validate_eq_nil_iff.mp hv).1, (validate_eq_nil_iff.mp hv').1, hcompl, r₀,
    dispatch_outcome (fun _ => hp) hne h₀, hg⟩

end KuraMetadata.Figure2
