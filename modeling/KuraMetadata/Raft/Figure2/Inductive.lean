import KuraMetadata.Raft.Figure2.Gate
import KuraMetadata.Raft.CoreStep

/-! # The representation invariant is inductive

Every handler keeps the invariant or refuses its event. The only exceptions that leave `step`
are refusals of the event (`Rejection`): the reads of the log and of the progress map and the
second gate never throw, and the check of the post-state throws for one event alone, the client
command with which a leader takes the last index of its log (`TakesLastIndex`). -/

namespace KuraMetadata.Figure2

open List Except

variable {E : Exn → Prop} {peers : List NodeId} {s : State} {p : PendingHardStatePersistence}
variable {request : AppendEntriesRequest} {leader : LeaderState} {peer : NodeId} {event : Event}
variable {e : LogEntry}

/-- The exceptions by which `step` refuses an event. -/
inductive Rejection : Exn → Prop where
  | blocked : Rejection (.logicError "Raft core input is blocked on hard-state persistence")
  | unexpected :
      Rejection (.invalidArgument "unexpected Raft hard-state persistence completion")
  | mismatched : Rejection
      (.invalidArgument "Raft hard-state completion does not match pending request")
  | unknownSender : Rejection (.invalidArgument "RPC sender is not a voting peer")
  | otherCandidate :
      Rejection (.invalidArgument "RequestVote sender does not match candidate")
  | otherLeader : Rejection (.invalidArgument "AppendEntries sender does not match leader")
  | matchedBeyond : Rejection (.invalidArgument "matched index exceeds leader log")
  | termExhausted : Rejection (.overflowError "Raft term exhausted")
  | indexExhausted : Rejection (.overflowError "Raft log index exhausted")
  | requestExhausted : Rejection (.overflowError "Raft hard-state request ID exhausted")

/-! ## Reading the log -/

section

variable {log : List LogEntry} {changed : Bool}

theorem entryAt_exists (h : WellFormed s) {i : Nat} (hlt : base s < i) (hle : i ≤ lastIndex s) :
    ∃ e, entryAt s i = .ok e := by
  rw [lastIndex_eq h.contiguous] at hle
  exact ⟨_, entryAt_eq_ok.mpr ⟨hlt, getElem?_eq_getElem (by omega)⟩⟩

theorem termAt_of_entryAt {i : Nat} (h : entryAt s i = .ok e) : termAt s i = .ok e.term := by
  have hlt := (entryAt_eq_ok.mp h).1
  rw [termAt, if_neg (by omega), h]
  cases hm : s.persistent.snapshot with
  | none => rfl
  | some m =>
    have hbase : base s = m.lastIncludedIndex := by simp [base, hm]
    exact (if_neg (by omega)).trans (if_neg (by omega))

theorem termAt_exists (h : WellFormed s) {i : Nat} (hb : base s ≤ i) (hle : i ≤ lastIndex s) :
    ∃ t, termAt s i = .ok t := by
  rcases Nat.lt_or_eq_of_le hb with hlt | rfl
  · obtain ⟨e, he⟩ := entryAt_exists h hlt hle
    exact ⟨e.term, termAt_of_entryAt he⟩
  · rw [termAt, base]
    cases s.persistent.snapshot with
    | none => exact ⟨0, rfl⟩
    | some m => by_cases hm : m.lastIncludedIndex = 0 <;> simp [hm]

/-! ## The invariant along the way -/

theorem WellFormed.stepDown (h : WellFormed s) {T : Nat} (hlt : s.persistent.currentTerm < T) :
    WellFormed (stepDown s T) :=
  { h with
    snapshot_pos := fun m hm => by
      obtain ⟨hi, ht, hle⟩ := h.snapshot_pos m hm
      exact ⟨hi, ht, hle.trans hlt.le⟩
    terms := fun e he => (h.terms e he).trans hlt.le
    leader_some := fun hr => by cases hr
    leader_none := fun _ => rfl
    votes_empty := fun _ => rfl
    request_pos := Nat.succ_ne_zero _
    votes_peers := fun v hv => by cases Finset.notMem_empty v hv
    progress := fun _ hl => by cases hl }

theorem WellFormed.campaigning (h : WellFormed s) : WellFormed (campaigning s) :=
  { h with
    snapshot_pos := fun m hm => by
      obtain ⟨hi, ht, hle⟩ := h.snapshot_pos m hm
      exact ⟨hi, ht, hle.trans (Nat.le_succ _)⟩
    terms := fun e he => (h.terms e he).trans (Nat.le_succ _)
    leader_some := fun hr => by cases hr
    leader_none := fun _ => rfl
    votes_empty := fun hr => absurd rfl hr
    request_pos := Nat.succ_ne_zero _
    votes_peers := fun v hv => .inl (Finset.mem_singleton.mp hv)
    progress := fun _ hl => by cases hl }

theorem WellFormed.voting (h : WellFormed s) (candidate : NodeId) :
    WellFormed (voting s candidate) :=
  { h with request_pos := Nat.succ_ne_zero _ }

theorem lookup_map_const {p : PeerProgress}
    (h : peer ∈ peers) : (peers.map fun x => (x, p)).lookup peer = some p := by
  induction peers with
  | nil => cases h
  | cons x rest ih =>
    rw [map_cons, lookup_cons]
    split
    case h_1 => rfl
    case h_2 hne =>
      refine ih ((mem_cons.mp h).resolve_left ?_)
      rintro rfl
      simp at hne

theorem WellFormed.leading (h : WellFormed s) : WellFormed (leading s) :=
  { h with
    leader_some := fun _ => by simp [Figure2.leading]
    leader_none := fun hr => absurd rfl hr
    votes_empty := fun _ => rfl
    votes_peers := fun v hv => by cases Finset.notMem_empty v hv
    progress := fun leader hl => by
      cases hl
      refine ⟨by simp [Figure2.leading], fun p hp => ⟨_, lookup_map_const hp, ?_⟩, by simp⟩
      show 1 ≤ lastIndex s + 1 ∧ lastIndex s + 1 ≤ lastIndex s + 1 ∧ 0 ≤ lastIndex s ∧
        0 < lastIndex s + 1
      omega }

theorem WellFormed.following (h : WellFormed s) (sender : NodeId) :
    WellFormed (following s sender) :=
  { h with
    leader_some := fun hr => by cases hr
    leader_none := fun _ => rfl
    votes_empty := fun _ => rfl
    votes_peers := fun v hv => by cases Finset.notMem_empty v hv
    progress := fun _ hl => by cases hl }

theorem WellFormed.voted (h : WellFormed s) (hr : s.role = .candidate) {sender : NodeId}
    (hp : sender ∈ s.peers) :
    WellFormed { s with votesReceived := insert sender s.votesReceived } :=
  { h with
    votes_empty := fun hne => absurd hr hne
    votes_peers := fun v hv => by
      rcases Finset.mem_insert.mp hv with rfl | hv
      · exact .inr hp
      · exact h.votes_peers v hv }

theorem WellFormed.withLeader (h : WellFormed s) (hr : s.role = .leader)
    (hl : ProgressFits s.peers (lastIndex s) leader) : WellFormed (withLeader s leader) :=
  { h with
    leader_some := fun _ => by simp [Figure2.withLeader]
    leader_none := fun hne => absurd hr hne
    progress := fun _ he => by
      cases he
      exact hl }

theorem WellFormed.withCommit (h : WellFormed s) {commit : Nat}
    (hle : s.volatileState.commitIndex ≤ commit) (hlast : commit ≤ lastIndex s) :
    WellFormed (withCommit s commit) :=
  { h with
    base_le_commit := h.base_le_commit.trans hle
    commit_le_last := hlast
    applied_le_commit := h.applied_le_commit.trans hle }

theorem lastIndex_log (log : List LogEntry) (hc : Contiguous (base s + 1) log) :
    lastIndex { s with persistent := { s.persistent with log := log } } =
      base s + log.length :=
  lastIndex_eq (s := { s with persistent := { s.persistent with log := log } }) hc

theorem ProgressFits.mono {last last' : Nat}
    (h : ProgressFits peers last leader) (hle : last ≤ last') :
    ProgressFits peers last' leader where
  length := h.length
  peer p hp := by
    obtain ⟨q, hq, h1, h2, h3, h4⟩ := h.peer p hp
    exact ⟨q, hq, h1, by omega, h3.trans hle, h4⟩
  clients i hi := ⟨(h.clients i hi).1, (h.clients i hi).2.trans hle⟩

@[simp]
theorem lastIndex_appending (command : CommandEnvelope) :
    lastIndex (appending s leader command) = lastIndex s + 1 := by
  simp [lastIndex, appending]

theorem WellFormed.appending (h : WellFormed s) (hr : s.role = .leader)
    (hl : s.leader = some leader) (command : CommandEnvelope) :
    WellFormed (appending s leader command) := by
  have hlast := lastIndex_eq h.contiguous
  have hlast' := @lastIndex_appending s leader command
  have hfits := h.progress leader hl
  exact { h with
    contiguous := by
      refine h.contiguous.append (contiguous_cons.mpr ⟨?_, contiguous_nil _⟩)
      show lastIndex s + 1 = _
      omega
    terms := forall_mem_concat h.terms le_rfl
    commit_le_last := hlast' ▸ h.commit_le_last.trans (Nat.le_succ _)
    leader_some := fun _ => by simp [Figure2.appending]
    leader_none := fun hne => absurd hr hne
    progress := fun l hl' => by
      cases hl'
      rw [hlast']
      have := hfits.mono (Nat.le_succ (lastIndex s))
      refine ⟨this.length, this.peer, fun i hi => ?_⟩
      rcases Finset.mem_insert.mp hi with rfl | hi
      · exact ⟨Nat.succ_ne_zero _, le_rfl⟩
      · exact this.clients i hi }

theorem Merges.commit_le (h : WellFormed s) (hm : Merges s request log changed) :
    s.volatileState.commitIndex ≤ base s + log.length := by
  have hle := h.commit_le_last
  rw [lastIndex_eq h.contiguous] at hle
  have hent := hm.entries
  obtain ⟨hb, _, _⟩ := hm.previous
  cases hm.merged with
  | present => exact hle
  | extend =>
    rw [length_append]
    omega
  | replace he _ _ hlt =>
    rw [he] at hent
    have := hent.middle
    rw [length_append, List.length_take, length_cons]
    omega

theorem Merges.mem (hm : Merges s request log changed) (he : e ∈ log) :
    e ∈ s.persistent.log ∨ e ∈ request.entries := by
  cases hm.merged with
  | present => exact .inl he
  | extend hent =>
    rw [hent]
    exact (mem_append.mp he).imp id (mem_append_right _)
  | replace hent =>
    rw [hent]
    exact (mem_append.mp he).imp mem_of_mem_take (mem_append_right _)

theorem boundedCommit_le (commit : Nat) (request : AppendEntriesRequest) :
    boundedCommit commit request ≤
      max commit (request.previousLogIndex + request.entries.length) := by
  simp only [boundedCommit]
  split
  · split <;> omega
  · omega

theorem WellFormed.accepting (h : WellFormed s) (hl : s.leader = none)
    (hm : Merges s request log changed)
    (ht : ∀ e ∈ request.entries, e.term ≤ s.persistent.currentTerm) :
    WellFormed (accepting s log (boundedCommit s.volatileState.commitIndex request)) := by
  have hc := hm.contiguous h.contiguous
  have hle := le_boundedCommit s.volatileState.commitIndex request
  have hlast : lastIndex (Figure2.accepting s log
      (boundedCommit s.volatileState.commitIndex request)) = base s + log.length :=
    lastIndex_log log hc
  exact { h with
    base_le_commit := h.base_le_commit.trans hle
    contiguous := hc
    terms := fun e he => (hm.mem he).elim (h.terms e) (ht e)
    commit_le_last := by
      rw [hlast]
      exact (boundedCommit_le _ _).trans (max_le (hm.commit_le h) (hm.matched_le h.contiguous))
    applied_le_commit := h.applied_le_commit.trans hle
    progress := fun _ hl' => by cases hl.symm.trans hl' }

end

/-! ## Handlers -/

/-- A result along the way of an event: the gate lets it through. -/
structure Sound (r : StepResult) : Prop where
  valid : WellFormed r.state
  pending : r.state.pendingHardState = none
  writes : ∀ q, .persistRaftHardState q ∈ r.effects → q.requestId ≠ 0

section

variable {r : StepResult}

theorem Sound.rule (h : Sound r) (id : RuleId) : Sound (r.rule id) := ⟨h.valid, h.pending, h.writes⟩

theorem Sound.emits (h : Sound r) {effects : List Effect} (hu : Ungated effects) :
    Sound { r with effects := r.effects ++ effects } where
  __ := h
  writes q hq := (mem_append.mp hq).elim (h.writes q) fun hq => absurd hq (hu q)

theorem Sound.emit (h : Sound r) {effect : Effect} (hu : Ungated [effect]) :
    Sound (r.emit effect) :=
  h.emits hu

theorem Sound.withState (h : Sound r) (hs : WellFormed s) (hp : s.pendingHardState = none) :
    Sound { r with state := s } :=
  ⟨hs, hp, h.writes⟩

theorem persistHardState_sound
    (hv : WellFormed { r.state with
      nextHardStateRequestId := r.state.nextHardStateRequestId + 1 })
    (hp : r.state.pendingHardState = none)
    (hw : ∀ q, .persistRaftHardState q ∈ r.effects → q.requestId ≠ 0) :
    (persistHardState r).Ensures Rejection fun r' =>
      Sound r' ∧ r'.state = { r.state with
        nextHardStateRequestId := r.state.nextHardStateRequestId + 1 } := by
  refine ensures_ite_error (fun _ => .requestExhausted) fun hne => ⟨⟨hv, hp, ?_⟩, rfl⟩
  intro q hq
  rcases mem_append.mp hq with hq | hq
  · exact hw q hq
  · cases mem_singleton.mp hq
    exact fun h0 => hne (.inl h0)

/-- The states have the same peers, the same log and the same progress in it; the second is
not in an earlier term. -/
structure SameLog (s s' : State) : Prop where
  term : s.persistent.currentTerm ≤ s'.persistent.currentTerm
  peers : s'.peers = s.peers
  log : s'.persistent.log = s.persistent.log
  snapshot : s'.persistent.snapshot = s.persistent.snapshot
  volatileState : s'.volatileState = s.volatileState

theorem observeHigherTerm_sound (h : Sound r) (T : Nat) :
    (observeHigherTerm r T).Ensures Rejection fun r' =>
      Sound r' ∧ T ≤ r'.state.persistent.currentTerm ∧ SameLog r.state r'.state := by
  unfold observeHigherTerm
  split
  case isTrue hlt =>
    refine Except.Ensures.mono (persistHardState_sound ?_ h.pending h.writes) ?_
    · exact h.valid.stepDown hlt
    rintro r' ⟨hr, hs⟩
    rw [hs]
    exact ⟨hr, le_rfl, hlt.le, rfl, rfl, rfl, rfl⟩
  case isFalse hle => exact ⟨h, Nat.le_of_not_lt hle, le_rfl, rfl, rfl, rfl, rfl⟩

theorem ensurePeer_ensures (s : State) (peer : NodeId) :
    (ensurePeer s peer).Ensures Rejection fun _ => peer ∈ s.peers := by
  unfold ensurePeer
  split
  case isTrue h => exact h
  case isFalse => exact .unknownSender

theorem appendRequest_exists (h : WellFormed s) (hl : s.leader = some leader) (hp : peer ∈ s.peers)
    (context : Option Nat) :
    ∃ request, appendRequest s peer context = .ok request := by
  obtain ⟨p, hlookup, _, hle, _, _⟩ := (h.progress leader hl).peer peer hp
  have hbase : base s ≤ lastIndex s := h.base_le_commit.trans h.commit_le_last
  obtain ⟨t, ht⟩ := @termAt_exists s h (max p.nextIndex (base s + 1) - 1) (by omega) (by omega)
  simp only [appendRequest, hl, Option.bind_some, hlookup, ht]
  exact ⟨_, rfl⟩

section

variable (h : Sound r)
include h

theorem sendAppend_sound (hl : r.state.leader = some leader)
    (hp : peer ∈ r.state.peers) (context : Option Nat) :
    (sendAppend r peer context).Ensures E fun r' => Sound r' ∧ r'.state = r.state := by
  obtain ⟨request, hq⟩ := appendRequest_exists h.valid hl hp context
  rw [sendAppend, hq]
  exact ⟨(h.rule _).emit (by simp [Ungated]), rfl⟩

theorem sendAppends_sound (hl : r.state.leader = some leader) (hp : peers ⊆ r.state.peers) :
    (sendAppends r peers).Ensures E fun r' => Sound r' ∧ r'.state = r.state := by
  induction peers generalizing r with
  | nil => exact ⟨h, rfl⟩
  | cons peer rest ih =>
    obtain ⟨hpeer, hrest⟩ := List.cons_subset.mp hp
    refine (sendAppend_sound h hl hpeer none).bind ?_
    rintro r' ⟨h', hs⟩
    rw [← hs] at hl hrest ⊢
    exact ih h' hl hrest

theorem initializeLeader_sound : (initializeLeader r).Ensures Rejection Sound := by
  refine ensures_ite_error (fun _ => .indexExhausted) fun _ => ?_
  have hlead : Sound { r with state := leading r.state } :=
    h.withState h.valid.leading h.pending
  exact (sendAppends_sound ((hlead.rule .candidateWinElection).rule .leaderInitialize) rfl
    (List.Subset.refl _)).mono fun _ hr => hr.1

theorem startElection_sound : (startElection r).Ensures Rejection Sound := by
  refine ensures_ite_error (fun _ => .termExhausted) fun _ => ?_
  refine Except.Ensures.bind (persistHardState_sound ?_ h.pending h.writes) ?_
  · exact h.valid.campaigning
  rintro r' ⟨hr, _⟩
  have hrequests := @Sound.emits _ hr (.resetElectionTimer :: r'.state.peers.map fun peer =>
    .sendRequestVote peer ⟨r'.state.persistent.currentTerm, r'.state.node,
      lastIndex r'.state, lastTerm r'.state⟩) (by simp [Ungated])
  dsimp only
  split
  case isTrue => exact initializeLeader_sound hrequests
  case isFalse => exact hrequests

theorem handleTimeout_sound : (handleTimeout r).Ensures Rejection Sound := by
  unfold handleTimeout
  split
  case h_1 hr =>
    obtain ⟨leader, hl⟩ := Option.ne_none_iff_exists'.mp (h.valid.leader_some hr)
    exact (sendAppends_sound (h.rule .leaderHeartbeat) hl (List.Subset.refl _)).mono
      fun _ hr => hr.1
  case h_2 => exact startElection_sound (h.rule _)
  case h_3 => exact startElection_sound (h.rule _)
  case h_4 => exact h

theorem answerVote_sound (sender : NodeId) (request : RequestVoteRequest) :
    (answerVote r sender request).Ensures Rejection Sound := by
  unfold answerVote
  dsimp only
  split
  case isTrue =>
    have hstate : WellFormed { r.state with
        persistent := { r.state.persistent with votedFor := some request.candidate } } :=
      { h.valid with }
    have hgranted := (h.withState hstate h.pending).rule .requestVoteGrant
    have hanswer : ∀ {r' : StepResult}, Sound r' → Sound ((r'.emit .resetElectionTimer).emit
        (.sendRequestVoteResponse sender ⟨r'.state.persistent.currentTerm, true⟩)) :=
      fun hr => (hr.emit (by simp [Ungated])).emit (by simp [Ungated])
    split
    case isTrue =>
      refine Except.Ensures.bind (persistHardState_sound ?_ h.pending h.writes) ?_
      · exact h.valid.voting request.candidate
      exact fun r' hr => hanswer hr.1
    case isFalse => exact hanswer hgranted
  case isFalse => exact (h.rule _).emit (by simp [Ungated])

theorem handleRequestVote_sound (sender : NodeId) (request : RequestVoteRequest) :
    (handleRequestVote r sender request).Ensures Rejection Sound := by
  refine (ensurePeer_ensures r.state sender).bind fun _ _ => ?_
  refine ensures_ite_error (fun _ => .otherCandidate) fun _ => ?_
  refine (observeHigherTerm_sound h request.term).bind ?_
  rintro r' ⟨hr, _⟩
  split
  case isTrue => exact (hr.rule _).emit (by simp [Ungated])
  case isFalse => exact answerVote_sound hr sender request

theorem handleRequestVoteResponse_sound (sender : NodeId) (response : RequestVoteResponse) :
    (handleRequestVoteResponse r sender response).Ensures Rejection Sound := by
  refine (ensurePeer_ensures r.state sender).bind fun _ hp => ?_
  refine (observeHigherTerm_sound h response.term).bind ?_
  rintro r' ⟨hr, _, hsame⟩
  split
  case isTrue => exact hr
  case isFalse hc =>
    simp only [not_or, not_not] at hc
    have hvoted := hr.withState (hr.valid.voted hc.1 (hsame.peers ▸ hp)) hr.pending
    unfold recordVote
    dsimp only
    split
    case isTrue => exact initializeLeader_sound hvoted
    case isFalse => exact hvoted

end

/-- What `validate_append_request` says about the entries. -/
theorem validateEntries_eq_ok {term previous : Nat} {entries : List LogEntry} {u : Unit}
    (h : Election.validateEntries term previous entries = .ok u) :
    contiguousFrom (previous + 1) entries = true ∧
      ∀ e ∈ entries, e.term ≠ 0 ∧ e.term ≤ term := by
  induction entries generalizing previous with
  | nil => exact ⟨rfl, by simp⟩
  | cons entry rest ih =>
    simp only [Election.validateEntries, ite_error_eq_ok, not_or, not_not, Nat.not_lt] at h
    obtain ⟨_, ⟨hindex, hterm⟩, hrest⟩ := h
    obtain ⟨hc, ht⟩ := ih hrest
    refine ⟨?_, fun e he => ?_⟩
    · rw [contiguousFrom, hindex, beq_self_eq_true, Bool.true_and]
      exact hc
    · rcases mem_cons.mp he with rfl | he
      · exact hterm
      · exact ht e he

theorem validateAppendRequest_eq_ok {u : Unit}
    (h : Election.validateAppendRequest request = .ok u) :
    contiguousFrom (request.previousLogIndex + 1) request.entries = true ∧
      ∀ e ∈ request.entries, e.term ≠ 0 ∧ e.term ≤ request.term := by
  simp only [Election.validateAppendRequest, ite_error_eq_ok] at h
  exact validateEntries_eq_ok h.2.2.2

theorem matchesPrevious_exists (h : WellFormed s) (request : AppendEntriesRequest) :
    ∃ matched, matchesPrevious s request = .ok matched ∧
      (matched = true → base s ≤ request.previousLogIndex) := by
  unfold matchesPrevious
  split
  case isTrue hb =>
    obtain ⟨t, ht⟩ := termAt_exists h hb.1 hb.2
    rw [ht]
    exact ⟨_, rfl, fun _ => hb.1⟩
  case isFalse => exact ⟨false, rfl, fun h => by cases h⟩

theorem scanEntries_exists (h : WellFormed s) {entries : List LogEntry}
    (hb : ∀ e ∈ entries, base s < e.index) : ∃ scan, scanEntries s entries = .ok scan := by
  induction entries with
  | nil => exact ⟨_, rfl⟩
  | cons entry rest ih =>
    unfold scanEntries
    split
    case isTrue => exact ⟨_, rfl⟩
    case isFalse hle =>
      obtain ⟨t, ht⟩ := termAt_exists h (hb entry mem_cons_self).le (Nat.le_of_not_lt hle)
      obtain ⟨scan, hscan⟩ := ih fun e he => hb e (mem_cons_of_mem _ he)
      rw [ht]
      show ∃ scan, (if t ≠ entry.term then
        if entry.index ≤ s.volatileState.commitIndex then Except.ok Scan.conflict
        else Except.ok (Scan.replace entry.index (entry :: rest))
        else scanEntries s rest) = Except.ok scan
      split
      · split <;> exact ⟨_, rfl⟩
      · exact ⟨scan, hscan⟩

theorem receiveAppend_sound (h : Sound r) (hl : r.state.leader = none)
    (sender : NodeId)
    (hc : contiguousFrom (request.previousLogIndex + 1) request.entries = true)
    (ht : ∀ e ∈ request.entries, e.term ≤ r.state.persistent.currentTerm) :
    (receiveAppend r sender request).Ensures E Sound := by
  obtain ⟨matched, hm, hb⟩ := matchesPrevious_exists h.valid request
  have hreject : Sound (rejectAppend r sender request) := (h.rule _).emit (by simp [Ungated])
  unfold receiveAppend
  rw [hm]
  show Except.Ensures E Sound (if matched = false then _ else _)
  split
  case isTrue => exact hreject
  case isFalse hne =>
    rw [Bool.not_eq_false] at hne
    subst hne
    rw [if_neg (by simp [hc])]
    have hent := contiguousFrom_iff.mp hc
    obtain ⟨scan, hscan⟩ := @scanEntries_exists _ h.valid request.entries fun e he => by
      have := (hent.getElem? he).2
      have := hb rfl
      omega
    rw [hscan]
    dsimp only [bind, Except.bind]
    split
    case h_1 => exact hreject
    case h_2 log changed hmerge =>
      have hv := h.valid.accepting hl ⟨hm, hc, scan, hscan, hmerge⟩ ht
      have := @Sound.emits _ (h.withState hv h.pending)
        ((if changed then [.persistState] else []) ++
          [.sendAppendEntriesResponse sender ⟨r.state.persistent.currentTerm, true,
            request.previousLogIndex + request.entries.length, request.readContext⟩])
        (by cases changed <;> simp [Ungated])
      refine ⟨hv, h.pending, fun q hq => this.writes q ?_⟩
      rw [← append_assoc]
      exact hq

/-- `handle_append_entries` after `observe_higher_term`: nothing throws any more. -/
theorem answerAppend_sound (h : Sound r) (sender : NodeId) (candidate : Bool)
    (hq : Election.validateAppendRequest request = .ok ())
    (hterm : request.term ≤ r.state.persistent.currentTerm) :
    Except.Ensures E Sound (if request.term < r.state.persistent.currentTerm then
      pure ((r.rule .appendEntriesRejectStale).emit (.sendAppendEntriesResponse sender
        ⟨r.state.persistent.currentTerm, false, 0, request.readContext⟩))
      else receiveAppend
        (followLeader (if candidate then r.rule .candidateAcceptAppendEntries else r) sender)
        sender request) := by
  obtain ⟨hc, ht⟩ := validateAppendRequest_eq_ok hq
  split
  case isTrue => exact (h.rule _).emit (by simp [Ungated])
  case isFalse =>
    have hfollow : ∀ {r : StepResult}, Sound r → Sound (followLeader r sender) :=
      fun h => (h.withState (h.valid.following sender) h.pending).emit (by simp [Ungated])
    refine receiveAppend_sound ?_ rfl sender hc fun e he => ?_
    · split
      · exact hfollow (h.rule _)
      · exact hfollow h
    · split <;> exact (ht e he).2.trans hterm

theorem handleAppendEntries_sound (h : Sound r) (sender : NodeId)
    (hq : Election.validateAppendRequest request = .ok ()) :
    (handleAppendEntries r sender request).Ensures Rejection Sound := by
  refine (ensurePeer_ensures r.state sender).bind fun _ _ => ?_
  refine ensures_ite_error (fun _ => .otherLeader) fun _ => ?_
  refine (observeHigherTerm_sound h request.term).bind ?_
  rintro r' ⟨hr, hterm, _⟩
  exact answerAppend_sound hr sender _ hq hterm

theorem commitCandidate_exists (h : WellFormed s) (leader : LeaderState) {n : Nat}
    (hn : s.volatileState.commitIndex + n ≤ lastIndex s) :
    ∃ found, commitCandidate s leader n = .ok found ∧ ∀ candidate, found = some candidate →
        s.volatileState.commitIndex ≤ candidate ∧ candidate ≤ lastIndex s := by
  induction n with
  | zero => exact ⟨none, rfl, fun _ h => by cases h⟩
  | succ n ih =>
    have hb := h.base_le_commit
    obtain ⟨t, ht⟩ := termAt_exists h (i := s.volatileState.commitIndex + (n + 1)) (by omega) hn
    obtain ⟨found, hfound, hle⟩ := ih (by omega)
    unfold commitCandidate
    dsimp only
    rw [ht]
    show ∃ found, (if t = s.persistent.currentTerm ∧ majority s ≤
        replicated leader (s.volatileState.commitIndex + (n + 1)) then
      Except.ok (some (s.volatileState.commitIndex + (n + 1)))
      else commitCandidate s leader n) = Except.ok found ∧ _
    split
    case isTrue =>
      refine ⟨_, rfl, fun candidate hc => ?_⟩
      cases hc
      exact ⟨by omega, hn⟩
    case isFalse => exact ⟨found, hfound, hle⟩

theorem advanceLeaderCommit_sound (h : Sound r)
    (hl : r.state.leader = some leader) :
    (advanceLeaderCommit r).Ensures E fun r' =>
      Sound r' ∧ ∃ commit, r'.state = withCommit r.state commit := by
  have hcommit := h.valid.commit_le_last
  obtain ⟨found, hfound, hle⟩ := commitCandidate_exists h.valid leader
    (n := lastIndex r.state - r.state.volatileState.commitIndex) (by omega)
  unfold advanceLeaderCommit
  rw [hl]
  dsimp only
  rw [hfound]
  cases found with
  | none => exact ⟨h, r.state.volatileState.commitIndex, rfl⟩
  | some candidate =>
    obtain ⟨h1, h2⟩ := hle candidate rfl
    refine ⟨(h.withState (h.valid.withCommit h1 h2) h.pending).rule _, candidate, ?_⟩
    rw [withCommit, hl]
    rfl

theorem lookup_setProgress_ne (progress : List (NodeId × PeerProgress)) {other : NodeId}
    (h : other ≠ peer) (p : PeerProgress) :
    (setProgress progress peer p).lookup other = progress.lookup other := by
  induction progress with
  | nil => rfl
  | cons x rest ih =>
    have ih : (rest.map fun q => if q.1 = peer then (peer, p) else q).lookup other =
      rest.lookup other := ih
    obtain ⟨key, value⟩ := x
    rw [setProgress, map_cons]
    split
    case isTrue hx =>
      have hkey : (other == key) = false := beq_false_of_ne fun he => h (he.trans hx)
      simp only [lookup_cons, beq_false_of_ne h, hkey, ih]
    case isFalse => simp only [lookup_cons, ih]

theorem lookup_setProgress_self {progress : List (NodeId × PeerProgress)} {p : PeerProgress}
    (h : progress.lookup peer = some p) (p' : PeerProgress) :
    (setProgress progress peer p').lookup peer = some p' := by
  induction progress with
  | nil => cases h
  | cons x rest ih =>
    obtain ⟨key, value⟩ := x
    rw [setProgress, map_cons]
    split
    case isTrue => simp
    case isFalse hx =>
      have hne : (peer == key) = false := beq_false_of_ne fun h => hx h.symm
      simp only [lookup_cons, hne] at h ⊢
      exact ih h

theorem ProgressFits.set {last : Nat} (h : ProgressFits peers last leader)
    {sender : NodeId} {p p' : PeerProgress} (hp : leader.progress.lookup sender = some p)
    (h1 : 1 ≤ p'.nextIndex) (h2 : p'.nextIndex ≤ last + 1) (h3 : p'.matchIndex ≤ last)
    (h4 : p'.matchIndex < p'.nextIndex) :
    ProgressFits peers last
      { leader with progress := setProgress leader.progress sender p' } where
  length := by
    show (setProgress _ _ _).length = _
    rw [setProgress, length_map]
    exact h.length
  peer q hq := by
    show ∃ x, (setProgress _ _ _).lookup q = some x ∧ _
    by_cases hqs : q = sender
    · subst hqs
      exact ⟨p', lookup_setProgress_self hp p', h1, h2, h3, h4⟩
    · rw [lookup_setProgress_ne _ hqs]
      exact h.peer q hq
  clients := h.clients

theorem handleAppendEntriesResponse_sound (h : Sound r) (sender : NodeId)
    (response : AppendEntriesResponse) :
    (handleAppendEntriesResponse r sender response).Ensures Rejection Sound := by
  refine (ensurePeer_ensures r.state sender).bind fun _ hp => ?_
  refine (observeHigherTerm_sound h response.term).bind ?_
  rintro r' ⟨hr, _, hsame⟩
  rw [← hsame.peers] at hp
  split
  case isTrue => exact hr
  case isFalse hc =>
    simp only [not_or, not_not] at hc
    obtain ⟨leader, hl⟩ := Option.ne_none_iff_exists'.mp (hr.valid.leader_some hc.1)
    have hfits := hr.valid.progress leader hl
    obtain ⟨p, hlookup, h1, h2, h3, h4⟩ := hfits.peer sender hp
    rw [hl]
    dsimp only
    rw [hlookup]
    dsimp only
    split
    case isTrue =>
      refine ensures_ite_error (fun _ => .matchedBeyond) fun hle => ?_
      have hset := @ProgressFits.set _ _ _ hfits sender p
        ⟨max p.matchIndex response.matchedIndex + 1, max p.matchIndex response.matchedIndex⟩
        hlookup (Nat.succ_pos _) (Nat.succ_le_succ (max_le h3 (Nat.le_of_not_lt hle)))
        (max_le h3 (Nat.le_of_not_lt hle)) (Nat.lt_succ_self _)
      exact (advanceLeaderCommit_sound
        ((hr.withState (hr.valid.withLeader hc.1 hset) hr.pending).rule _) rfl).mono
          fun _ h => h.1
    case isFalse =>
      have hset := @ProgressFits.set _ _ _ hfits sender p
        ⟨max (p.matchIndex + 1) (max 1 (p.nextIndex - 1)), p.matchIndex⟩
        hlookup (by simp) (by simp; omega) h3 (by simp)
      exact (sendAppend_sound
        ((hr.withState (hr.valid.withLeader hc.1 hset) hr.pending).rule _) rfl hp _).mono
          fun _ h => h.1

/-- A leader with an index left appends the command; nothing on the way throws. -/
theorem handleClient_appends (h : Sound r) (hr : r.state.role = .leader)
    (hlast : lastIndex r.state ≠ u64Max) (command : CommandEnvelope) :
    (handleClient r command).Ensures E fun r' => Sound r' ∧ ∃ leader commit,
      r'.state = withCommit (appending r.state leader command) commit := by
  obtain ⟨leader, hl⟩ := Option.ne_none_iff_exists'.mp (h.valid.leader_some hr)
  rw [handleClient, if_neg (not_not.mpr hr), if_neg hlast, hl]
  have happ := h.withState (h.valid.appending hr hl command) h.pending
  refine Except.Ensures.bind (sendAppends_sound
    ((happ.rule .leaderAppendClient).emit (by simp [Ungated])) rfl (List.Subset.refl _)) ?_
  rintro r₁ ⟨h₁, hs⟩
  refine (advanceLeaderCommit_sound h₁ (congrArg State.leader hs)).mono ?_
  rintro r' ⟨h', commit, hcommit⟩
  exact ⟨h', leader, commit, hcommit.trans (congrArg (withCommit · commit) hs)⟩

theorem handleClient_sound (h : Sound r) (command : CommandEnvelope) :
    (handleClient r command).Ensures Rejection Sound := by
  by_cases hr : r.state.role = .leader
  · by_cases hlast : lastIndex r.state = u64Max
    · rw [handleClient, if_neg (not_not.mpr hr), if_pos hlast]
      exact .indexExhausted
    · exact (handleClient_appends h hr hlast command).mono fun _ h => h.1
  · rw [handleClient, if_pos hr]
    exact h

theorem WellFormed.applied (h : WellFormed s)
    (hlt : s.volatileState.lastApplied < s.volatileState.commitIndex) {leader : Option LeaderState}
    (hl : ∀ l, leader = some l → ProgressFits s.peers (lastIndex s) l)
    (hsome : leader.isSome = s.leader.isSome) :
    WellFormed { s with
      volatileState := { s.volatileState with lastApplied := s.volatileState.lastApplied + 1 }
      leader := leader } :=
  { h with
    base_le_applied := h.base_le_applied.trans (Nat.le_succ _)
    applied_le_commit := hlt
    leader_some := fun hr hn => by
      have hn : leader = none := hn
      rw [hn] at hsome
      exact h.leader_some hr (Option.isNone_iff_eq_none.mp (by simpa using hsome.symm))
    leader_none := fun hr => by
      rw [h.leader_none hr] at hsome
      simpa using hsome
    progress := hl }

theorem handleApply_sound (h : Sound r) : (handleApply r).Ensures Rejection Sound := by
  unfold handleApply
  dsimp only
  split
  case isTrue => exact h
  case isFalse hlt =>
    have hlt := Nat.lt_of_not_le hlt
    obtain ⟨e, he⟩ := entryAt_exists h.valid
      (Nat.lt_succ_of_le h.valid.base_le_applied) (hlt.trans_le h.valid.commit_le_last)
    rw [he]
    dsimp only [bind, Except.bind]
    split
    case h_1 leader hl =>
      have hfits := h.valid.progress leader hl
      split
      case isTrue hmem =>
        have hv := @WellFormed.applied _ h.valid hlt (some { leader with
          pendingClients := leader.pendingClients.erase (r.state.volatileState.lastApplied + 1) })
          (fun l hl' => by
            cases hl'
            exact { hfits with
              clients := fun i hi => hfits.clients i (Finset.mem_of_mem_erase hi) })
          (by rw [hl]; rfl)
        exact ((((h.withState hv h.pending).rule .applyCommitted).emit
          (by simp [Ungated])).emit (by simp [Ungated]))
      case isFalse =>
        have hv := h.valid.applied hlt (h.valid.progress) rfl
        exact ((h.withState hv h.pending).rule .applyCommitted).emit (by simp [Ungated])
    case h_2 =>
      have hv := h.valid.applied hlt (h.valid.progress) rfl
      exact ((h.withState hv h.pending).rule .applyCommitted).emit (by simp [Ungated])

end

/-! ## The last index -/

/-- A leader with peers has not reached the last index. -/
def Room (s : State) : Prop := s.leader ≠ none → s.peers ≠ [] → lastIndex s < u64Max

/-- The event with which a leader with peers reaches the last index: the bound of `nextIndex`
is then zero. -/
def TakesLastIndex (s : State) : Event → Prop
  | .receiveClientCommand _ => s.pendingHardState = none ∧ s.role = .leader ∧ s.peers ≠ [] ∧
      lastIndex s + 1 = u64Max
  | _ => False

section

variable {r r' : StepResult}

theorem Room.unwrapped (h : Room s) (hwf : WellFormed s) : Unwrapped s := by
  intro leader hl p hp q hq
  obtain ⟨q', hq', _, hle, _⟩ := (hwf.progress leader hl).peer p hp
  cases hq.symm.trans hq'
  have := h (by simp [hl]) (ne_nil_of_mem hp)
  rwa [Nat.mod_eq_of_lt (Nat.succ_lt_succ this)]

theorem Unwrapped.room (h : Unwrapped s) (hwf : WellFormed s) (hlast : lastIndex s ≤ u64Max) :
    Room s := by
  intro hl hp
  obtain ⟨leader, hl⟩ := Option.ne_none_iff_exists'.mp hl
  obtain ⟨p, hp⟩ := exists_mem_of_ne_nil _ hp
  obtain ⟨q, hq, hpos, _⟩ := (hwf.progress leader hl).peer p hp
  refine lt_of_le_of_ne hlast fun heq => ?_
  have := h leader hl p hp q hq
  rw [heq, Nat.mod_self] at this
  omega

theorem Observed.room {T : Nat} {s₁ : State} {observed : List Effect}
    (ho : Observed s T s₁ observed) (h : Room s) : Room s₁ := by
  cases ho with
  | same => exact h
  | higher => exact fun hl => absurd rfl hl

theorem Outcome.room (hwf : WellFormed s) (hlast : lastIndex s ≤ u64Max) (h : Room s)
    (hc : s.pendingHardState.isSome = event.isCompletion) (hn : ¬ TakesLastIndex s event)
    (ho : Outcome s event r) : Room r.state := by
  cases ho with
  | idle | heartbeat | voteStale | voteAgain | voteRecorded | appendStale | released => exact h
  | campaign | observe | appendReject | appendAccept => exact fun hl => absurd rfl hl
  | voteDeny _ ho | voteGrant _ ho => exact ho.room h
  | elected _ _ _ _ _ _ _ hne => exact fun _ _ => lt_of_le_of_ne hlast hne
  | replicated hr | retried _ hr => exact fun _ => h (hwf.leader_some hr)
  | @appended command _ leader _ _ commit hr =>
    intro _ hp
    have hlt := h (hwf.leader_some hr) hp
    have hne : lastIndex s + 1 ≠ u64Max := fun heq =>
      hn ⟨by simpa [Event.isCompletion] using hc, hr, hp, heq⟩
    show lastIndex (appending s leader command) < u64Max
    rw [lastIndex_appending]
    omega

theorem startElection_room (hlast : lastIndex r.state ≤ u64Max)
    (h : startElection r = .ok r') : Room r'.state := by
  rw [startElection, ite_error_eq_ok] at h
  obtain ⟨r₁, h₁, h⟩ := bind_eq_ok.mp h.2
  cases persistHardState_eq_ok h₁
  dsimp only at h
  split at h
  case isTrue =>
    obtain ⟨hne, hs, _⟩ := initializeLeader_eq_ok h
    rw [hs]
    exact fun _ _ => lt_of_le_of_ne hlast hne
  case isFalse =>
    cases h
    exact fun hl => absurd rfl hl

theorem handleApply_room (hroom : Room s) (h : handleApply { state := s } = .ok r) :
    Room r.state := by
  simp only [handleApply] at h
  split at h
  case isTrue =>
    cases h
    exact hroom
  case isFalse =>
    obtain ⟨entry, _, h⟩ := bind_eq_ok.mp h
    cases hl : s.leader with
    | none =>
      simp only [hl] at h
      cases h
      exact fun h => absurd rfl h
    | some leader =>
      simp only [hl] at h
      split at h <;> cases h <;> exact fun _ => hroom (by simp [hl])

theorem dispatch_room (hwf : WellFormed s) (hlast : lastIndex s ≤ u64Max) (hroom : Room s)
    (hc : s.pendingHardState.isSome = event.isCompletion) (hn : ¬ TakesLastIndex s event)
    (h : dispatch { state := s } event = .ok r) : Room r.state := by
  cases event with
  | electionTimeout =>
    simp only [dispatch, handleTimeout] at h
    split at h
    case isTrue =>
      cases hr : s.role with
      | leader => exact absurd hr ‹_›
      | follower | candidate =>
        simp only [hr] at h
        exact startElection_room hlast h
      | learner =>
        simp only [hr] at h
        cases h
        exact hroom
    case isFalse =>
      cases h
      exact hroom
  | applyCommitted => exact handleApply_room hroom h
  | _ => exact (dispatch_outcome (by simp) (by simp) h).room hwf hlast hroom hc hn

theorem Gated.room (hg : Gated r r') (h : Room r.state) : Room r'.state := by
  cases hg with
  | through | cut => exact h

end

/-! ## The step -/

/-- The request of an `AppendEntries` passes `validate_append_request`. -/
def Event.Admissible : Event → Prop
  | .receiveAppendEntries _ request => Election.validateAppendRequest request = .ok ()
  | _ => True

/-- An outstanding write, with the effects that wait for it, that `step` has left: after an
event, or after the completion of the write in front of it. -/
inductive Produced : PendingHardStatePersistence → Prop where
  | event {s : State} {event : Event} {r : StepResult} {p : PendingHardStatePersistence}
      (he : event.isCompletion = false) (ha : event.Admissible) (h : step s event = .ok r)
      (hp : r.state.pendingHardState = some p) : Produced p
  | completion {s : State} {q : PersistRaftHardState} {r : StepResult}
      {p₀ p : PendingHardStatePersistence} (h₀ : Produced p₀) (hs : s.pendingHardState = some p₀)
      (h : step s (.raftHardStatePersisted q) = .ok r)
      (hp : r.state.pendingHardState = some p) : Produced p

section

variable {r r' : StepResult}

theorem dispatch_sound (h : Sound r) (he : event.isCompletion = false) (ha : event.Admissible) :
    (dispatch r event).Ensures Rejection Sound := by
  cases event with
  | electionTimeout | heartbeatTimeout =>
    rw [dispatch]
    split
    · exact handleTimeout_sound h
    · exact h
  | applyCommitted => exact handleApply_sound h
  | observeTerm term => exact (observeHigherTerm_sound h term).mono fun _ hr => hr.1
  | receiveRequestVote sender request => exact handleRequestVote_sound h sender request
  | receiveRequestVoteResponse sender response =>
    exact handleRequestVoteResponse_sound h sender response
  | receiveAppendEntries sender request => exact handleAppendEntries_sound h sender ha
  | receiveAppendEntriesResponse sender response =>
    exact handleAppendEntriesResponse_sound h sender response
  | receiveClientCommand command => exact handleClient_sound h command
  | raftHardStatePersisted => cases he

theorem Gated.deferred (hg : Gated r r') (hn : r.state.pendingHardState = none)
    (hp : r'.state.pendingHardState = some p) :
    .persistRaftHardState p.request ∈ r.effects ∧ p.deferredEffects ⊆ r.effects := by
  cases hg with
  | through => cases hn.symm.trans hp
  | cut he =>
    cases hp
    rw [he]
    exact ⟨by simp, fun e h => by simp [h]⟩

theorem sound_of_wellFormed (h : WellFormed s) (hn : s.pendingHardState = none) :
    Sound { state := s } :=
  ⟨h, hn, by simp⟩

theorem Produced.writes (h : Produced p) :
    ∀ q, .persistRaftHardState q ∈ p.deferredEffects → q.requestId ≠ 0 := by
  induction h with
  | @event s _ _ _ he ha h hp =>
    obtain ⟨hv, _, hpend, r₀, hd, hg⟩ := step_eq_ok h
    have hn : s.pendingHardState = none := by simpa [he] using hpend
    have hs := dispatch_sound (sound_of_wellFormed (validate_eq_nil_iff.mp hv).1 hn) he ha
    rw [hd] at hs
    exact fun q hq => hs.writes q ((hg.deferred hs.pending hp).2 hq)
  | completion _ hs h hp ih =>
    obtain ⟨_, _, _, r₀, hd, hg⟩ := step_eq_ok h
    simp only [dispatch, hs] at hd
    split at hd
    case isTrue =>
      cases hd
      exact fun q hq => ih q ((hg.deferred rfl hp).2 hq)
    case isFalse => cases hd

theorem Sound.gate (h : Sound r) : ∃ r', gateOnHardState r = .ok r' ∧ WellFormed r'.state := by
  have hgate : ∃ r', gateOnHardState r = .ok r' := by
    unfold gateOnHardState
    split
    case h_1 => exact ⟨r, rfl⟩
    case h_2 =>
      rw [if_neg (by simp [h.pending])]
      exact ⟨_, rfl⟩
  obtain ⟨r', hr'⟩ := hgate
  refine ⟨r', hr', ?_⟩
  cases gateOnHardState_eq_ok hr' with
  | through => exact h.valid
  | cut he =>
    exact { h.valid with
      pending_pos := fun p hp => by
        cases hp
        exact h.writes _ (by simp [he]) }

theorem dispatch_ensures (hv : WellFormed s)
    (hp : ∀ p, s.pendingHardState = some p → Produced p) (ha : event.Admissible)
    (hc : s.pendingHardState.isSome = event.isCompletion) :
    (dispatch { state := s } event).Ensures Rejection Sound := by
  cases he : event.isCompletion with
  | false =>
    have hn : s.pendingHardState = none := by simpa [he] using hc
    exact dispatch_sound (sound_of_wellFormed hv hn) he ha
  | true =>
    cases event with
    | raftHardStatePersisted completion =>
      obtain ⟨p, hpend⟩ := Option.isSome_iff_exists.mp (hc.trans he)
      rw [dispatch, hpend]
      dsimp only
      split
      case isTrue =>
        exact ⟨{ hv with pending_pos := fun _ h => by cases h }, rfl, (hp p hpend).writes⟩
      case isFalse => exact .mismatched
    | _ => cases he

/-- A step that is not refused for its kind: its handler, the gate and the check of the state
they leave. -/
theorem step_unblocked (hv : validate s = [])
    (hc : s.pendingHardState.isSome = event.isCompletion) :
    step s event = (do
      let r ← dispatch { state := s } event
      let r ← gateOnHardState r
      ensureValid r.state "invalid post-state"
      return r) := by
  rw [step, (@ensureValid_eq_ok s _ ()).mpr hv, ok_bind, if_neg, if_neg]
  all_goals cases hpend : s.pendingHardState <;> cases hev : event.isCompletion <;> simp_all

theorem step_blocked (hv : validate s = [])
    (hc : s.pendingHardState.isSome ≠ event.isCompletion) :
    ∃ e, step s event = .error e ∧ Rejection e := by
  rw [step, (@ensureValid_eq_ok s _ ()).mpr hv, ok_bind]
  cases hpend : s.pendingHardState <;> cases hev : event.isCompletion <;> simp_all
  · exact .unexpected
  · exact .blocked

/-- What a step makes of a handler that returns: the gate passes, and the check of the
post-state decides. -/
theorem step_of_dispatch (hv : validate s = [])
    (hc : s.pendingHardState.isSome = event.isCompletion)
    (hd : dispatch { state := s } event = .ok r) (hr : Sound r) :
    ∃ r', gateOnHardState r = .ok r' ∧ WellFormed r'.state ∧
      step s event = (ensureValid r'.state "invalid post-state").map fun _ => r' := by
  obtain ⟨r', hg, hwf⟩ := hr.gate
  refine ⟨r', hg, hwf, ?_⟩
  rw [step_unblocked hv hc, hd, ok_bind, hg, ok_bind]
  cases ensureValid r'.state "invalid post-state" <;> rfl

/-- At the last index the check of the post-state fails: `nextIndex` is at least one, its
bound has become zero. -/
theorem TakesLastIndex.throws (ht : TakesLastIndex s event) (hv : validate s = []) :
    ∃ violation,
      step s event = .error (.invalidArgument ("invalid post-state" ++ ": " ++ violation)) := by
  cases event with
  | receiveClientCommand command =>
    obtain ⟨hn, hr, hp, hl⟩ := ht
    have hsound := sound_of_wellFormed (validate_eq_nil_iff.mp hv).1 hn
    obtain ⟨r, hd, hr', leader, commit, hs⟩ :=
      (handleClient_appends hsound hr (show lastIndex s ≠ u64Max by omega) command).exists_ok
    obtain ⟨r', hg, hwf, hstep⟩ := @step_of_dispatch s (.receiveClientCommand command) r hv
      (by rw [hn]; rfl) hd hr'
    have hlast : lastIndex r.state = u64Max := by
      rw [hs]
      exact (@lastIndex_appending s leader command).trans hl
    have hinvalid : validate r'.state ≠ [] := by
      intro hv'
      have hroom : Room r.state := by
        have := (validate_eq_nil_iff.mp hv').2
        cases gateOnHardState_eq_ok hg with
        | through | cut => exact this.room hwf hlast.le
      have hlt := hroom (by simp [hs, withCommit, appending])
        (by simpa [hs, withCommit, appending] using hp)
      omega
    obtain ⟨violation, rest, hviolation⟩ := exists_cons_of_ne_nil hinvalid
    exact ⟨violation, by rw [hstep, ensureValid, hviolation]; rfl⟩
  | _ => exact ht.elim

theorem Rejection.ne_post {e : Exn} (h : Rejection e) (violation : String) :
    e ≠ .invalidArgument ("invalid post-state" ++ ": " ++ violation) := by
  rintro rfl
  have hhead : ∀ e, Rejection e → e.what.toList.head? ≠ some 'i' := by
    intro e h
    cases h <;> simp [Exn.invalidArgument, Exn.logicError, Exn.overflowError]
  exact hhead _ h (by simp [Exn.invalidArgument])

/-- **The representation invariant is inductive up to the last index.** On a valid state a step
refuses its event or returns a valid state, whose outstanding write is again one that `step` has
left, exactly if its event does not take the last index. -/
theorem step_inductive_iff (hv : validate s = [])
    (hp : ∀ p, s.pendingHardState = some p → Produced p) (ha : event.Admissible)
    (hlast : lastIndex s ≤ u64Max) :
    ((∃ e, step s event = .error e ∧ Rejection e) ∨
      ∃ r, step s event = .ok r ∧ validate r.state = [] ∧
        ∀ p, r.state.pendingHardState = some p → Produced p) ↔ ¬ TakesLastIndex s event := by
  constructor
  · intro hstep ht
    obtain ⟨violation, hthrow⟩ := ht.throws hv
    rcases hstep with ⟨e, he, hrej⟩ | ⟨r, hr, _⟩
    · exact hrej.ne_post violation (Except.error.inj (he.symm.trans hthrow))
    · cases hr.symm.trans hthrow
  intro hn
  by_cases hc : s.pendingHardState.isSome = event.isCompletion
  · obtain ⟨hwf, hu⟩ := validate_eq_nil_iff.mp hv
    rcases (dispatch_ensures hwf hp ha hc).cases with ⟨e, he, hrej⟩ | ⟨r₀, h₀, hr⟩
    · exact .inl ⟨e, by rw [step_unblocked hv hc, he]; rfl, hrej⟩
    obtain ⟨r, hg, hwf', hstep⟩ := step_of_dispatch hv hc h₀ hr
    -- What is left of the check of the post-state is the bound that may wrap.
    have hroom := (gateOnHardState_eq_ok hg).room
      (dispatch_room hwf hlast (hu.room hwf hlast) hc hn h₀)
    have hv' := validate_eq_nil_iff.mpr ⟨hwf', hroom.unwrapped hwf'⟩
    rw [(@ensureValid_eq_ok r.state _ ()).mpr hv'] at hstep
    refine .inr ⟨r, hstep, hv', fun p hpend => ?_⟩
    cases he : event.isCompletion with
    | false => exact .event he ha hstep hpend
    | true =>
      cases event with
      | raftHardStatePersisted =>
        obtain ⟨p₀, hp₀⟩ := Option.isSome_iff_exists.mp (hc.trans he)
        exact .completion (hp p₀ hp₀) hp₀ hstep hpend
      | _ => cases he
  · exact .inl (step_blocked hv hc)

end

/-- A node of a cluster of three that has just been created. -/
def freshState : State := { node := 1, peers := [2, 3] }

/-- The node stands for election; the write of its vote is outstanding, and its requests for
votes wait for it. -/
theorem step_inductive_candidate :
    ∃ r r', step freshState .electionTimeout = .ok r ∧ r.state.pendingHardState.isSome ∧
      step r.state (.raftHardStatePersisted ⟨1, ⟨1, some 1⟩⟩) = .ok r' ∧
      validate r'.state = [] := by
  have hfirst : ((step freshState .electionTimeout).toOption.bind fun r =>
      (step r.state (.raftHardStatePersisted ⟨1, ⟨1, some 1⟩⟩)).toOption).isSome = true := by
    decide +kernel
  have hlast : ((step freshState .electionTimeout).toOption.all fun r =>
      lastIndex r.state ≤ u64Max) = true := by
    decide +kernel
  cases h : step freshState .electionTimeout with
  | error e => simp [h, Except.toOption] at hfirst
  | ok r =>
    simp only [h, Except.toOption, Option.all_some, decide_eq_true_eq] at hlast
    rcases (@step_inductive_iff r.state (.raftHardStatePersisted ⟨1, ⟨1, some 1⟩⟩)
      (step_eq_ok h).2.1 (fun p => @Produced.event freshState .electionTimeout r p rfl trivial h)
      trivial hlast).mpr id with ⟨e, he, _⟩ | ⟨r', hr', hv', _⟩
    · simp [h, he, Except.toOption] at hfirst
    · exact ⟨r, r', rfl, (step_eq_ok hr').2.2.1, hr', hv'⟩

/-- A leader whose snapshot ends one index before the last, and whose log is empty. -/
def lastLeader : State where
  node := 1
  peers := [2, 3]
  role := .leader
  persistent := {
    currentTerm := 1
    snapshot := some {
      lastIncludedIndex := u64Max - 1
      lastIncludedTerm := 1
      storeRevision := 1
      compactionRevision := 0
      membership := ⟨[1, 2, 3], []⟩
      formatVersion := 1 } }
  volatileState := { commitIndex := u64Max - 1, lastApplied := u64Max - 1 }
  leader := some { progress := [(2, ⟨u64Max, 0⟩), (3, ⟨u64Max, 0⟩)] }

/-- It accepts a client command by its own guard, and fails the check of the state it makes. -/
theorem lastLeader_fails :
    validate lastLeader = [] ∧ lastLeader.pendingHardState = none ∧ lastIndex lastLeader < u64Max ∧
      step lastLeader (.receiveClientCommand ⟨⟨1, 1⟩, 0, []⟩) = .error
        (.invalidArgument "invalid post-state: peer nextIndex is outside the log") ∧
      ¬ ((∃ e, step lastLeader (.receiveClientCommand ⟨⟨1, 1⟩, 0, []⟩) = .error e ∧ Rejection e) ∨
        ∃ r, step lastLeader (.receiveClientCommand ⟨⟨1, 1⟩, 0, []⟩) = .ok r) := by
  have hstep : step lastLeader (.receiveClientCommand ⟨⟨1, 1⟩, 0, []⟩) = .error
      (.invalidArgument "invalid post-state: peer nextIndex is outside the log") := by
    decide +kernel
  refine ⟨by decide +kernel, rfl, by decide +kernel, hstep, ?_⟩
  rw [hstep]
  rintro (⟨e, he, hrej⟩ | ⟨r, hr⟩)
  · cases he
    exact hrej.ne_post "peer nextIndex is outside the log" rfl
  · cases hr

end KuraMetadata.Figure2
