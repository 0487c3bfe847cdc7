import KuraMetadata.Raft.Figure2.Inductive

/-! # Compaction and the receivers of the RPCs

A node that has compacted an applied prefix of its log answers a `RequestVote` as before, and
an `AppendEntries` whose previous entry is not below the snapshot: the step commutes with the
compaction (`step_compacted`). An `AppendEntries` whose previous entry is below the snapshot is
rejected, although the node agrees with all of it. `compaction_invisible_iff` puts the two
together: which RPCs a node that serves them answers alike with and without the snapshot. -/

namespace KuraMetadata.Figure2

open List Except

variable {P : AppendEntriesRequest → Prop} {m : SnapshotMetadata} {s s₁ : State} {r : StepResult}
variable {event : Event} {request : RequestVoteRequest} {observed : List Effect} {T : Nat}

/-- The state with the log through the snapshot's index replaced by the snapshot. -/
def compacted (m : SnapshotMetadata) (s : State) : State :=
  { s with
    persistent := { s.persistent with
      log := s.persistent.log.drop m.lastIncludedIndex
      snapshot := some m } }

def StepResult.compacted (m : SnapshotMetadata) (r : StepResult) : StepResult :=
  { r with state := Figure2.compacted m r.state }

/-- The snapshot is one of an applied prefix of a log that has not been compacted. -/
structure Compacts (s : State) (m : SnapshotMetadata) : Prop where
  fresh : s.persistent.snapshot = none
  pos : 1 ≤ m.lastIncludedIndex
  applied : m.lastIncludedIndex ≤ s.volatileState.lastApplied
  term : termAt s m.lastIncludedIndex = .ok m.lastIncludedTerm

/-! ## Reading the compacted log -/

section

variable {j : Nat}

section

variable (hc : Compacts s m)
include hc

theorem Compacts.base : base s = 0 := by
  rw [Figure2.base, hc.fresh]

section

variable (hv : WellFormed s)
include hv

theorem Compacts.le_length : m.lastIncludedIndex ≤ s.persistent.log.length := by
  have hlast := lastIndex_eq hv.contiguous
  rw [hc.base, Nat.zero_add] at hlast
  rw [← hlast]
  exact (hc.applied.trans hv.applied_le_commit).trans hv.commit_le_last

theorem Compacts.contiguous :
    Contiguous (m.lastIncludedIndex + 1) (s.persistent.log.drop m.lastIncludedIndex) := by
  have := hv.contiguous.drop m.lastIncludedIndex
  rwa [hc.base, show 0 + 1 + m.lastIncludedIndex = m.lastIncludedIndex + 1 by omega] at this

theorem lastIndex_compacted : lastIndex (compacted m s) = lastIndex s := by
  have hle := hc.le_length hv
  rw [lastIndex_eq (s := compacted m s) (hc.contiguous hv), lastIndex_eq hv.contiguous, hc.base]
  show m.lastIncludedIndex + (s.persistent.log.drop m.lastIncludedIndex).length = _
  rw [length_drop]
  omega

end

theorem entryAt_compacted (hj : m.lastIncludedIndex < j) :
    entryAt (compacted m s) j = entryAt s j := by
  have hbase : Figure2.base (compacted m s) = m.lastIncludedIndex := rfl
  have hentry : (compacted m s).persistent.log[j - m.lastIncludedIndex - 1]?
      = s.persistent.log[j - 0 - 1]? := by
    show (s.persistent.log.drop m.lastIncludedIndex)[j - m.lastIncludedIndex - 1]? = _
    rw [getElem?_drop]
    congr 1
    omega
  unfold entryAt
  rw [hbase, hc.base, if_neg (by omega), if_neg (by omega), hentry]

/-- Above the snapshot, and at its index, the terms are those of the log. -/
theorem termAt_compacted (hj : m.lastIncludedIndex ≤ j) :
    termAt (compacted m s) j = termAt s j := by
  have hpos := hc.pos
  rcases Nat.lt_or_eq_of_le hj with hlt | rfl
  · rw [termAt, termAt, if_neg (by omega), if_neg (by omega), hc.fresh]
    show (if j = m.lastIncludedIndex then _ else if j ≤ m.lastIncludedIndex then _ else
      (entryAt (compacted m s) j).map LogEntry.term) = _
    rw [if_neg (by omega), if_neg (by omega), entryAt_compacted hc hlt]
  · rw [hc.term, termAt, if_neg (by omega)]
    show (if m.lastIncludedIndex = m.lastIncludedIndex then _ else _) = _
    rw [if_pos rfl]

end

theorem termAt_lastIndex (hv : WellFormed s) : termAt s (lastIndex s) = .ok (lastTerm s) := by
  have hlast := lastIndex_eq hv.contiguous
  unfold lastTerm
  cases he : s.persistent.log.getLast? with
  | some e =>
    rw [getLast?_eq_getElem?] at he
    have hlt := (List.getElem?_eq_some_iff.mp he).1
    have hentry : entryAt s (lastIndex s) = .ok e := by
      refine entryAt_eq_ok.mpr ⟨by omega, ?_⟩
      rw [hlast, show Figure2.base s + s.persistent.log.length - Figure2.base s - 1 =
        s.persistent.log.length - 1 by omega]
      exact he
    exact termAt_of_entryAt hentry
  | none =>
    rw [getLast?_eq_none_iff] at he
    rw [he, length_nil, Nat.add_zero] at hlast
    rw [hlast, termAt]
    cases hm : s.persistent.snapshot with
    | none => simp [Figure2.base, hm]
    | some m =>
      have hbase : Figure2.base s = m.lastIncludedIndex := by rw [Figure2.base, hm]
      have := (hv.snapshot_pos m hm).1
      rw [if_neg (by omega)]
      dsimp only
      rw [if_pos hbase]

theorem termAt_le_term (hv : WellFormed s) (hs : s.persistent.snapshot = none) {t : Nat}
    (h : termAt s j = .ok t) : t ≤ s.persistent.currentTerm := by
  rw [termAt] at h
  split at h
  case isTrue =>
    cases h
    exact Nat.zero_le _
  case isFalse =>
    rw [hs] at h
    obtain ⟨e, he, rfl⟩ := map_eq_ok.mp h
    exact hv.terms e (entryAt_index hv.contiguous he).2

theorem WellFormed.compacted (hv : WellFormed s) (hc : Compacts s m)
    (ht : m.lastIncludedTerm ≠ 0) : WellFormed (compacted m s) :=
  { hv with
    snapshot_pos := fun _ hm => by
      cases hm
      exact ⟨Nat.ne_of_gt hc.pos, ht, termAt_le_term hv hc.fresh hc.term⟩
    base_le_commit := hc.applied.trans hv.applied_le_commit
    base_le_applied := hc.applied
    contiguous := hc.contiguous hv
    terms := fun e he => hv.terms e (mem_of_mem_drop he)
    commit_le_last := (lastIndex_compacted hc hv).symm ▸ hv.commit_le_last
    progress := fun leader hl => (lastIndex_compacted hc hv).symm ▸ hv.progress leader hl }

theorem validate_compacted (hv : validate s = []) (hc : Compacts s m)
    (ht : m.lastIncludedTerm ≠ 0) : validate (compacted m s) = [] := by
  obtain ⟨hwf, hu⟩ := validate_eq_nil_iff.mp hv
  refine validate_eq_nil_iff.mpr ⟨hwf.compacted hc ht, fun leader hl p hp q hq => ?_⟩
  rw [lastIndex_compacted hc hwf]
  exact hu leader hl p hp q hq

theorem lastTerm_compacted (hc : Compacts s m) (hv : WellFormed s)
    (ht : m.lastIncludedTerm ≠ 0) : lastTerm (compacted m s) = lastTerm s := by
  have h := termAt_lastIndex (hv.compacted hc ht)
  have hle : m.lastIncludedIndex ≤ lastIndex s :=
    (hc.applied.trans hv.applied_le_commit).trans hv.commit_le_last
  rw [lastIndex_compacted hc hv, termAt_compacted hc hle, termAt_lastIndex hv] at h
  exact (Except.ok.inj h).symm

end

/-! ## Handlers commute with the compaction -/

/-- A state that can be compacted, along the way of an event. -/
structure Ready (m : SnapshotMetadata) (r : StepResult) : Prop extends Sound r where
  compacts : Compacts r.state m

section

variable {request : AppendEntriesRequest} {entries : List LogEntry}

theorem persistHardState_compacted (m : SnapshotMetadata) (r : StepResult) :
    persistHardState (r.compacted m) = (persistHardState r).map (StepResult.compacted m) := by
  unfold persistHardState
  show (if r.state.nextHardStateRequestId = 0 ∨ r.state.nextHardStateRequestId = u64Max then _
    else _) = _
  split <;> rfl

theorem observeHigherTerm_compacted (m : SnapshotMetadata) (r : StepResult) (T : Nat) :
    observeHigherTerm (r.compacted m) T =
      (observeHigherTerm r T).map (StepResult.compacted m) := by
  unfold observeHigherTerm
  show (if r.state.persistent.currentTerm < T then _ else _) = _
  split
  case isTrue =>
    rw [← persistHardState_compacted]
    rfl
  case isFalse => rfl

theorem termAt_congr {s' : State} (hl : s'.persistent.log = s.persistent.log)
    (hs : s'.persistent.snapshot = s.persistent.snapshot) (j : Nat) :
    termAt s' j = termAt s j := by
  have hentry : entryAt s' j = entryAt s j := by
    rw [entryAt, entryAt, base_congr hs, hl]
  rw [termAt, termAt, hs, hentry]

theorem Compacts.congr {s' : State} (hc : Compacts s m) (h : SameLog s s') : Compacts s' m where
  fresh := h.snapshot.trans hc.fresh
  pos := hc.pos
  applied := h.volatileState ▸ hc.applied
  term := (termAt_congr h.log h.snapshot _).trans hc.term

theorem observeHigherTerm_ready (h : Ready m r) (T : Nat) :
    (observeHigherTerm r T).Ensures Rejection fun r' =>
      Ready m r' ∧ r.state.persistent.currentTerm ≤ r'.state.persistent.currentTerm :=
  (observeHigherTerm_sound h.toSound T).mono fun _ hr =>
    ⟨{ hr.1 with compacts := h.compacts.congr hr.2.2 }, hr.2.2.term⟩

theorem isLogAtLeastAsUpToDate_compacted (hc : Compacts s m) (hv : WellFormed s)
    (ht : m.lastIncludedTerm ≠ 0) (term index : Nat) :
    isLogAtLeastAsUpToDate (compacted m s) term index = isLogAtLeastAsUpToDate s term index := by
  rw [isLogAtLeastAsUpToDate, isLogAtLeastAsUpToDate, lastIndex_compacted hc hv,
    lastTerm_compacted hc hv ht]

theorem answerVote_compacted (h : Ready m r) (ht : m.lastIncludedTerm ≠ 0) (sender : NodeId)
    (request : RequestVoteRequest) :
    answerVote (r.compacted m) sender request =
      (answerVote r sender request).map (StepResult.compacted m) := by
  have hlog := isLogAtLeastAsUpToDate_compacted h.compacts h.valid ht request.lastLogTerm
    request.lastLogIndex
  unfold answerVote
  dsimp only
  rw [show canVote (r.compacted m).state request.candidate =
    canVote r.state request.candidate from rfl]
  rw [show (r.compacted m).state = compacted m r.state from rfl, hlog]
  split
  case isTrue =>
    show (if r.state.persistent.votedFor ≠ some request.candidate then _ else _) = _
    split
    case isTrue =>
      refine Eq.trans ?_ (map_bind_map (ensures_true _)
        (f := StepResult.compacted m) (g := fun (r' : StepResult) =>
          pure ((r'.emit .resetElectionTimer).emit (.sendRequestVoteResponse sender
            ⟨r'.state.persistent.currentTerm, true⟩))) fun _ _ => rfl)
      rw [← persistHardState_compacted]
      rfl
    case isFalse => rfl
  case isFalse => rfl

theorem handleRequestVote_compacted (h : Ready m r) (ht : m.lastIncludedTerm ≠ 0)
    (sender : NodeId) (request : RequestVoteRequest) :
    handleRequestVote (r.compacted m) sender request =
      (handleRequestVote r sender request).map (StepResult.compacted m) := by
  unfold handleRequestVote
  rw [show ensurePeer (r.compacted m).state sender = ensurePeer r.state sender from rfl]
  cases ensurePeer r.state sender with
  | error e => rfl
  | ok u =>
    show (if request.candidate ≠ sender then _ else _) =
      Except.map _ (if request.candidate ≠ sender then _ else _)
    split
    case isTrue => rfl
    case isFalse =>
      rw [observeHigherTerm_compacted]
      refine map_bind_map (observeHigherTerm_ready h request.term) fun r' hr => ?_
      show (if request.term < r'.state.persistent.currentTerm then _ else _) = _
      split
      case isTrue => rfl
      case isFalse => exact answerVote_compacted hr.1 ht sender request

/-! ## Appends -/

theorem matchesPrevious_compacted (hc : Compacts s m) (hv : WellFormed s)
    (hb : m.lastIncludedIndex ≤ request.previousLogIndex) :
    matchesPrevious (compacted m s) request = matchesPrevious s request := by
  rw [matchesPrevious, matchesPrevious, lastIndex_compacted hc hv, termAt_compacted hc hb,
    hc.base, show base (compacted m s) = m.lastIncludedIndex from rfl]
  simp [hb]

theorem scanEntries_compacted (hc : Compacts s m) (hv : WellFormed s)
    (hb : ∀ e ∈ entries, m.lastIncludedIndex ≤ e.index) :
    scanEntries (compacted m s) entries = scanEntries s entries := by
  induction entries with
  | nil => rfl
  | cons entry rest ih =>
    rw [scanEntries, scanEntries, lastIndex_compacted hc hv,
      termAt_compacted hc (hb entry mem_cons_self),
      ih fun e he => hb e (mem_cons_of_mem _ he)]
    rfl

theorem mergedLog_compacted (hc : Compacts s m) (hv : WellFormed s)
    {scan : Scan} (hscan : Scanned s entries scan) :
    mergedLog (compacted m s) scan =
      (mergedLog s scan).map fun p => (p.1.drop m.lastIncludedIndex, p.2) := by
  have hle := hc.le_length hv
  cases hscan with
  | present | conflict => rfl
  | extend =>
    simp only [mergedLog, Option.map_some, drop_append_of_le_length hle]
    rfl
  | @replace _ _ e _ _ _ hidx hlt =>
    have hcommit := hc.applied.trans hv.applied_le_commit
    have hlast := lastIndex_eq hv.contiguous
    rw [hc.base] at hlast
    simp only [mergedLog, Option.map_some, hc.base]
    rw [drop_append_of_le_length (by rw [List.length_take]; omega), drop_take]
    show some (List.take (e.index - m.lastIncludedIndex - 1)
      (s.persistent.log.drop m.lastIncludedIndex) ++ _, true) = _
    rw [show e.index - 0 - 1 - m.lastIncludedIndex = e.index - m.lastIncludedIndex - 1 by omega]

theorem receiveAppend_compacted (h : Ready m r) (sender : NodeId)
    (hent : contiguousFrom (request.previousLogIndex + 1) request.entries = true)
    (hb : m.lastIncludedIndex ≤ request.previousLogIndex) :
    receiveAppend (r.compacted m) sender request =
      (receiveAppend r sender request).map (StepResult.compacted m) := by
  have hbound : ∀ e ∈ request.entries, m.lastIncludedIndex ≤ e.index := by
    intro e he
    have := ((contiguousFrom_iff.mp hent).getElem? he).2
    omega
  unfold receiveAppend
  rw [show (r.compacted m).state = compacted m r.state from rfl,
    matchesPrevious_compacted h.compacts h.valid hb]
  cases matchesPrevious r.state request with
  | error e => rfl
  | ok matched =>
    show (if matched = false then _ else _) = Except.map _ (if matched = false then _ else _)
    split
    case isTrue => rfl
    case isFalse =>
      rw [if_neg (by simp [hent]), if_neg (by simp [hent]),
        scanEntries_compacted h.compacts h.valid hbound]
      cases hscan : scanEntries r.state request.entries with
      | error e => rfl
      | ok scan =>
        dsimp only [bind, Except.bind]
        rw [mergedLog_compacted h.compacts h.valid (scanEntries_eq_ok hscan)]
        cases mergedLog r.state scan with
        | none | some p => rfl

theorem followLeader_ready (h : Ready m r) (sender : NodeId) : Ready m (followLeader r sender) :=
  { (h.withState (h.valid.following sender) h.pending).emit (by simp [Ungated]) with
    compacts := h.compacts.congr ⟨le_rfl, rfl, rfl, rfl, rfl⟩ }

theorem handleAppendEntries_compacted (h : Ready m r) (sender : NodeId)
    (hent : contiguousFrom (request.previousLogIndex + 1) request.entries = true)
    (hb : request.term < r.state.persistent.currentTerm ∨
      m.lastIncludedIndex ≤ request.previousLogIndex) :
    handleAppendEntries (r.compacted m) sender request =
      (handleAppendEntries r sender request).map (StepResult.compacted m) := by
  unfold handleAppendEntries
  rw [show ensurePeer (r.compacted m).state sender = ensurePeer r.state sender from rfl]
  cases ensurePeer r.state sender with
  | error e => rfl
  | ok u =>
    show (if request.leader ≠ sender then _ else _) =
      Except.map _ (if request.leader ≠ sender then _ else _)
    split
    case isTrue => rfl
    case isFalse =>
      dsimp only
      rw [observeHigherTerm_compacted]
      refine map_bind_map (observeHigherTerm_ready h request.term) ?_
      rintro r' ⟨hr, hterm⟩
      show (if request.term < r'.state.persistent.currentTerm then _ else _) = _
      split
      case isTrue => rfl
      case isFalse hstale =>
        have hb : m.lastIncludedIndex ≤ request.previousLogIndex :=
          hb.resolve_left fun h => hstale (h.trans_le hterm)
        show receiveAppend (followLeader (if r.state.role == .candidate then _ else _) sender)
          sender request = _
        split
        case isTrue =>
          have hrule : Ready m (r'.rule .candidateAcceptAppendEntries) :=
            { hr.toSound.rule _ with compacts := hr.compacts }
          exact receiveAppend_compacted (followLeader_ready hrule sender) sender hent hb
        case isFalse =>
          exact receiveAppend_compacted (followLeader_ready hr sender) sender hent hb

end

/-! ## The step -/

/-- The events of the RPC receivers: requests for votes, and appends that pass
`validate_append_request`, with a property of the request. -/
inductive Receives (P : AppendEntriesRequest → Prop) : Event → Prop where
  | vote (sender : NodeId) (request : RequestVoteRequest) :
      Receives P (.receiveRequestVote sender request)
  | append {sender : NodeId} {request : AppendEntriesRequest}
      (hq : Election.validateAppendRequest request = .ok ()) (hp : P request) :
      Receives P (.receiveAppendEntries sender request)

/-- The events that do not look below the snapshot: of the appends, those that are stale or
start at the snapshot or after it. -/
abbrev Reads (s : State) (m : SnapshotMetadata) : Event → Prop :=
  Receives fun request => request.term < s.persistent.currentTerm ∨
    m.lastIncludedIndex ≤ request.previousLogIndex

theorem Receives.isCompletion (he : Receives P event) : event.isCompletion = false := by
  cases he <;> rfl

theorem Receives.admissible (he : Receives P event) : event.Admissible := by
  cases he with
  | vote => trivial
  | append hq => exact hq

theorem gateOnHardState_compacted (m : SnapshotMetadata) (r : StepResult) :
    gateOnHardState (r.compacted m) = (gateOnHardState r).map (StepResult.compacted m) := by
  unfold gateOnHardState
  rw [show (r.compacted m).effects = r.effects from rfl]
  cases r.effects.splitFirst Effect.hardStateWrite? with
  | none => rfl
  | some p =>
    show (if r.state.pendingHardState.isSome then _ else _) =
      Except.map _ (if r.state.pendingHardState.isSome then _ else _)
    split <;> rfl

theorem dispatch_compacted (h : Ready m r) (ht : m.lastIncludedTerm ≠ 0)
    (he : Reads r.state m event) :
    dispatch (r.compacted m) event = (dispatch r event).map (StepResult.compacted m) := by
  cases he with
  | vote sender request => exact handleRequestVote_compacted h ht sender request
  | append hq hb =>
    exact handleAppendEntries_compacted h _ (validateAppendRequest_eq_ok hq).1 hb

theorem Observed.unwrapped (ho : Observed s T s₁ observed) (hu : Unwrapped s) : Unwrapped s₁ := by
  cases ho with
  | same => exact hu
  | higher => exact fun _ hl => by cases hl

theorem Receives.unwrapped (hu : Unwrapped s) (he : Receives P event)
    (h : dispatch { state := s } event = .ok r) : Unwrapped r.state := by
  cases he with
  | vote sender request =>
    cases handleRequestVote_outcome h with
    | idle | voteStale | voteAgain => exact hu
    | observe => exact fun _ hl => by cases hl
    | voteDeny _ ho | voteGrant _ ho => exact ho.unwrapped hu
  | append =>
    cases handleAppendEntries_outcome h with
    | idle | appendStale => exact hu
    | observe | appendReject | appendAccept => exact fun _ hl => by cases hl

theorem Receives.step_of_dispatch (hv : validate s = []) (hn : s.pendingHardState = none)
    (he : Receives P event) (hd : dispatch { state := s } event = .ok r) :
    ∃ r', gateOnHardState r = .ok r' ∧ step s event = .ok r' := by
  obtain ⟨hwf, hu⟩ := validate_eq_nil_iff.mp hv
  have hs := dispatch_sound (sound_of_wellFormed hwf hn) he.isCompletion he.admissible
  rw [hd] at hs
  obtain ⟨r', hg, hwf', hstep⟩ := Figure2.step_of_dispatch hv
    (by rw [hn, he.isCompletion]; rfl) hd hs
  have hu' : Unwrapped r'.state := by
    have := he.unwrapped hu hd
    cases gateOnHardState_eq_ok hg with
    | through | cut => exact this
  rw [(@ensureValid_eq_ok r'.state _ ()).mpr (validate_eq_nil_iff.mpr ⟨hwf', hu'⟩)] at hstep
  exact ⟨r', hg, hstep⟩

/-- **Compaction commutes with the step** of an event that does not look below the snapshot: it
throws the same exception, or returns the same effects, the same commit index and the same log
above the snapshot. -/
theorem step_compacted (hv : validate s = []) (hc : Compacts s m)
    (ht : m.lastIncludedTerm ≠ 0) (he : Reads s m event) :
    step (compacted m s) event = (step s event).map (StepResult.compacted m) := by
  have hwf := (validate_eq_nil_iff.mp hv).1
  have hvc := validate_compacted hv hc ht
  cases hn : s.pendingHardState with
  | some p =>
    have hnc : (compacted m s).pendingHardState = some p := hn
    rw [step, step, (@ensureValid_eq_ok s _ ()).mpr hv, (@ensureValid_eq_ok _ _ ()).mpr hvc]
    simp [hn, hnc, he.isCompletion, ok_bind, Except.map]
  | none =>
    have hready : Ready m { state := s } := { sound_of_wellFormed hwf hn with compacts := hc }
    have hdispatch : dispatch { state := compacted m s } event =
        (dispatch { state := s } event).map (StepResult.compacted m) :=
      dispatch_compacted hready ht he
    cases hd : dispatch { state := s } event with
    | error e =>
      have hcompl : s.pendingHardState.isSome = event.isCompletion := by
        rw [hn, he.isCompletion]
        rfl
      rw [step_unblocked hv hcompl, step_unblocked hvc hcompl, hdispatch, hd]
      rfl
    | ok r =>
      rw [hd] at hdispatch
      obtain ⟨r₁, hg₁, hs₁⟩ := he.step_of_dispatch hv hn hd
      obtain ⟨r₂, hg₂, hs₂⟩ := he.step_of_dispatch hvc hn hdispatch
      rw [gateOnHardState_compacted, hg₁] at hg₂
      cases hg₂
      rw [hs₁, hs₂]
      rfl

/-! ## What the receiver refuses -/

/-- The receiver takes up an RPC of `sender` for which it needs some hard-state writes: no write
is outstanding, the sender is a peer and the node the request names, and the identifiers of
the writes are not exhausted. -/
structure TakesUp (s : State) (sender named : NodeId) (writes : Nat) : Prop where
  unblocked : s.pendingHardState = none
  peer : sender ∈ s.peers
  named : named = sender
  ids : ∀ k < writes, s.nextHardStateRequestId + k ≠ u64Max

/-- Whether a new term has to be written. -/
def termWrites (s : State) (term : Nat) : Nat := if s.persistent.currentTerm < term then 1 else 0

/-- Whether a vote has to be written: one for an up-to-date candidate, in a term in which the
node has not voted. -/
def voteWrites (s : State) (request : RequestVoteRequest) : Nat :=
  if (s.persistent.currentTerm < request.term ∨
      request.term = s.persistent.currentTerm ∧ s.persistent.votedFor = none) ∧
    isLogAtLeastAsUpToDate s request.lastLogTerm request.lastLogIndex then 1 else 0

def Serves (s : State) : Event → Prop
  | .receiveRequestVote sender request =>
    TakesUp s sender request.candidate (termWrites s request.term + voteWrites s request)
  | .receiveAppendEntries sender request =>
    TakesUp s sender request.leader (termWrites s request.term)
  | _ => False

theorem observeHigherTerm_returns (hpos : s.nextHardStateRequestId ≠ 0) :
    (∃ r, observeHigherTerm { state := s } T = .ok r) ↔
      ∀ k < termWrites s T, s.nextHardStateRequestId + k ≠ u64Max := by
  unfold observeHigherTerm persistHardState termWrites
  by_cases h : s.persistent.currentTerm < T
  · simp [h, StepResult.rule, hpos]
  · simp [h]

theorem answerVote_returns (hpos : r.state.nextHardStateRequestId ≠ 0) {sender : NodeId}
    :
    (∃ r', answerVote r sender request = .ok r') ↔
      (r.state.persistent.votedFor = none →
        isLogAtLeastAsUpToDate r.state request.lastLogTerm request.lastLogIndex →
        r.state.nextHardStateRequestId ≠ u64Max) := by
  unfold answerVote canVote persistHardState
  by_cases hu : isLogAtLeastAsUpToDate r.state request.lastLogTerm request.lastLogIndex
  · cases hv : r.state.persistent.votedFor with
    | none =>
      by_cases hid : r.state.nextHardStateRequestId = u64Max <;>
        simp [hu, hv, hid, hpos, StepResult.rule]
    | some v => by_cases hc : v = request.candidate <;> simp [hu, hv, hc]
  · simp [hu]

theorem handleRequestVote_returns (hpos : s.nextHardStateRequestId ≠ 0) {sender : NodeId}
    :
    (∃ r, handleRequestVote { state := s } sender request = .ok r) ↔
      sender ∈ s.peers ∧ request.candidate = sender ∧
        ∀ k < termWrites s request.term + voteWrites s request,
          s.nextHardStateRequestId + k ≠ u64Max := by
  -- What is left to write once the term has been observed.
  have hrest : ∀ r₁, observeHigherTerm { state := s } request.term = .ok r₁ →
      ((∃ r, (if request.term < r₁.state.persistent.currentTerm then
          pure ((r₁.rule .requestVoteRejectStale).emit
            (.sendRequestVoteResponse sender ⟨r₁.state.persistent.currentTerm, false⟩))
          else answerVote r₁ sender request) = .ok r) ↔
        ∀ k < voteWrites s request,
          s.nextHardStateRequestId + termWrites s request.term + k ≠ u64Max) := by
    intro r₁ h₁
    rcases observeHigherTerm_eq_ok h₁ with ⟨hle, rfl⟩ | ⟨hlt, rfl⟩
    · rcases Nat.lt_or_eq_of_le hle with hlt | heq
      · simp [hlt, voteWrites, hle.not_gt, hlt.ne]
      · rw [if_neg (by simp [heq]), answerVote_returns hpos]
        simp only [voteWrites, termWrites, heq, lt_irrefl, if_false, false_or, true_and]
        split <;> simp_all
    · rw [if_neg (by simp [stepDown]), answerVote_returns (Nat.succ_ne_zero _)]
      simp only [voteWrites, termWrites, hlt, true_or, true_and, if_true]
      show (none = none → isLogAtLeastAsUpToDate s _ _ = true →
        s.nextHardStateRequestId + 1 ≠ u64Max) ↔ _
      split <;> simp_all
  simp only [handleRequestVote, bind_eq_ok, ensurePeer_eq_ok, ite_error_eq_ok]
  constructor
  · rintro ⟨r, _, hp, hc, r₁, h₁, h⟩
    have hterm := (observeHigherTerm_returns hpos).mp ⟨r₁, h₁⟩
    have hvote := (hrest r₁ h₁).mp ⟨r, h⟩
    refine ⟨hp, not_not.mp hc, fun k hk => ?_⟩
    rcases Nat.lt_or_ge k (termWrites s request.term) with hlt | hge
    · exact hterm k hlt
    · have := hvote (k - termWrites s request.term) (by omega)
      omega
  · rintro ⟨hp, hc, hid⟩
    obtain ⟨r₁, h₁⟩ := (observeHigherTerm_returns hpos (T := request.term)).mpr
      fun k hk => hid k (by omega)
    obtain ⟨r, h⟩ := (hrest r₁ h₁).mpr fun k hk => by
      rw [Nat.add_assoc]
      exact hid _ (by omega)
    exact ⟨r, (), hp, not_not.mpr hc, r₁, h₁, h⟩

theorem handleAppendEntries_returns (hwf : WellFormed s) (hn : s.pendingHardState = none)
    {sender : NodeId} {request : AppendEntriesRequest}
    (hq : Election.validateAppendRequest request = .ok ()) :
    (∃ r, handleAppendEntries { state := s } sender request = .ok r) ↔
      sender ∈ s.peers ∧ request.leader = sender ∧
        ∀ k < termWrites s request.term, s.nextHardStateRequestId + k ≠ u64Max := by
  simp only [handleAppendEntries, bind_eq_ok, ensurePeer_eq_ok, ite_error_eq_ok]
  constructor
  · rintro ⟨r, _, hp, hc, r₁, h₁, _⟩
    exact ⟨hp, not_not.mp hc, (observeHigherTerm_returns hwf.request_pos).mp ⟨r₁, h₁⟩⟩
  · rintro ⟨hp, hc, hid⟩
    obtain ⟨r₁, h₁⟩ := (observeHigherTerm_returns hwf.request_pos).mpr hid
    have hs := observeHigherTerm_sound (sound_of_wellFormed hwf hn) request.term
    rw [h₁] at hs
    obtain ⟨r, h, _⟩ := (answerAppend_sound hs.1 sender (s.role == .candidate) hq hs.2.1).exists_ok
    exact ⟨r, (), hp, not_not.mpr hc, r₁, h₁, h⟩

theorem step_returns_iff (hv : validate s = []) (he : Receives P event) :
    (∃ r, step s event = .ok r) ↔ Serves s event := by
  have hwf := (validate_eq_nil_iff.mp hv).1
  have hdispatch : s.pendingHardState = none →
      ((∃ r, dispatch { state := s } event = .ok r) ↔ Serves s event) := by
    intro hn
    cases he with
    | vote sender request =>
      exact (handleRequestVote_returns hwf.request_pos).trans
        ⟨fun ⟨hp, hc, hid⟩ => ⟨hn, hp, hc, hid⟩, fun h => ⟨h.peer, h.named, h.ids⟩⟩
    | append hq =>
      exact (handleAppendEntries_returns hwf hn hq).trans
        ⟨fun ⟨hp, hc, hid⟩ => ⟨hn, hp, hc, hid⟩, fun h => ⟨h.peer, h.named, h.ids⟩⟩
  have hpending : Serves s event → s.pendingHardState = none := by
    cases he with
    | vote | append => exact TakesUp.unblocked
  constructor
  · rintro ⟨r, hr⟩
    obtain ⟨_, _, hcompl, r₀, hd, _⟩ := step_eq_ok hr
    exact (hdispatch (by simpa [he.isCompletion] using hcompl)).mp ⟨r₀, hd⟩
  · intro hs
    obtain ⟨r₀, hd⟩ := (hdispatch (hpending hs)).mpr hs
    obtain ⟨r, _, hr⟩ := he.step_of_dispatch hv (hpending hs) hd
    exact ⟨r, hr⟩

/-! ## What the sender sees -/

/-- The flag and the matched index of an answer; an answer to a candidate matches nothing. -/
def Effect.answer? : Effect → Option (Bool × Nat)
  | .sendRequestVoteResponse _ response => some (response.granted, 0)
  | .sendAppendEntriesResponse _ response => some (response.succeeded, response.matchedIndex)
  | _ => none

/-- The answer of a step, which may wait for a hard-state write, its commit index and its log
above an index. -/
def StepResult.answerAbove (i : Nat) (r : StepResult) :
    Option (Bool × Nat) × Nat × List LogEntry :=
  ((r.effects ++ r.state.pendingHardState.elim [] (·.deferredEffects)).findSome? Effect.answer?,
    r.state.volatileState.commitIndex, r.state.persistent.log.filter (i < ·.index))

/-- Both steps throw, or both answer alike. -/
def SameAnswer (s : State) (m : SnapshotMetadata) (event : Event) : Prop :=
  (step (compacted m s) event).toOption.map (·.answerAbove m.lastIncludedIndex) =
    (step s event).toOption.map (·.answerAbove m.lastIncludedIndex)

/-- The request agrees with the committed prefix of the log. -/
def AgreesWithCommitted (s : State) (request : AppendEntriesRequest) : Prop :=
  (request.previousLogIndex ≤ s.volatileState.commitIndex →
    termAt s request.previousLogIndex = .ok request.previousLogTerm) ∧
    ∀ e ∈ request.entries, e.index ≤ s.volatileState.commitIndex →
      e ∈ s.persistent.log

section

variable {r r₀ : StepResult} {sender : NodeId} {request : AppendEntriesRequest}

theorem Gated.answer (hg : Gated r₀ r) (hn : r₀.state.pendingHardState = none) (i : Nat) :
    (r.answerAbove i).1 = r₀.effects.findSome? Effect.answer? := by
  cases hg with
  | through => simp [StepResult.answerAbove, hn]
  | cut he => simp [StepResult.answerAbove, he]

theorem Observed.silent
    (ho : Observed s T s₁ observed) : observed.findSome? Effect.answer? = none := by
  cases ho <;> rfl

/-- A request that agrees with the committed prefix and starts in it is accepted. -/
theorem receiveAppend_accepts (hwf : WellFormed r.state) (hb : base r.state = 0)
    (ha : AgreesWithCommitted r.state request)
    (hprev : request.previousLogIndex ≤ r.state.volatileState.commitIndex)
    (hc : contiguousFrom (request.previousLogIndex + 1) request.entries = true) :
    ∃ log changed, receiveAppend r sender request =
      .ok (acceptAppend r sender request log changed) := by
  have hle := hprev.trans hwf.commit_le_last
  have hm : matchesPrevious r.state request = .ok true := by
    rw [matchesPrevious, if_pos ⟨by omega, hle⟩, ha.1 hprev]
    simp
  have hent := contiguousFrom_iff.mp hc
  obtain ⟨scan, hscan⟩ := @scanEntries_exists _ hwf request.entries fun e he => by
    have := (hent.getElem? he).2
    omega
  obtain ⟨log, changed, hmerge⟩ : ∃ log changed, mergedLog r.state scan = some (log, changed) := by
    cases scanEntries_eq_ok hscan with
    | present | extend | replace => exact ⟨_, _, rfl⟩
    | conflict he hcommit ht hne =>
      -- A committed entry of the request is one of the log, so its term is the log's.
      obtain ⟨hget, hlt⟩ := hwf.contiguous.getElem? (ha.2 _ he hcommit)
      have hterm := termAt_of_entryAt (entryAt_eq_ok.mpr ⟨hlt, by rwa [Nat.sub_sub]⟩)
      exact absurd (Except.ok.inj (ht.symm.trans hterm)) hne
  refine ⟨log, changed, ?_⟩
  rw [receiveAppend, hm, ok_bind, if_neg (by simp), if_neg (by simp [hc]), hscan,
    ok_bind, hmerge]
  rfl

theorem receiveAppend_rejects (hb : request.previousLogIndex < base r.state) :
    receiveAppend r sender request = .ok (rejectAppend r sender request) := by
  have hm : matchesPrevious r.state request = .ok false := if_neg (by omega)
  rw [receiveAppend, hm]
  rfl

theorem answer_of_append (hterm : s.persistent.currentTerm ≤ request.term)
    (h : step s (.receiveAppendEntries sender request) = .ok r) :
    ∃ s₁ observed rules r₀, Observed s request.term s₁ observed ∧
      receiveAppend ⟨following s₁ sender, rules, observed ++ [.resetElectionTimer]⟩ sender
        request = .ok r₀ ∧
      ∀ i, (r.answerAbove i).1 = r₀.effects.findSome? Effect.answer? := by
  obtain ⟨_, _, hcompl, r₀, hd, hg⟩ := step_eq_ok h
  have hn : r₀.state.pendingHardState = none :=
    ((handleAppendEntries_outcome hd).pending rfl).trans
      (by simpa [Event.isCompletion] using hcompl)
  obtain ⟨_, _, ⟨hlt, _⟩ | ⟨s₁, observed, rules, ho, _, _, hr₀⟩⟩ := handleAppendEntries_eq_ok hd
  · omega
  · exact ⟨s₁, observed, rules, r₀, ho, hr₀, hg.answer hn⟩

theorem answer_of_append_accepted (hwf : WellFormed s) (hb : base s = 0)
    (hq : Election.validateAppendRequest request = .ok ()) (ha : AgreesWithCommitted s request)
    (hprev : request.previousLogIndex ≤ s.volatileState.commitIndex)
    (hterm : s.persistent.currentTerm ≤ request.term)
    (h : step s (.receiveAppendEntries sender request) = .ok r) (i : Nat) :
    (r.answerAbove i).1 = some (true, request.previousLogIndex + request.entries.length) := by
  obtain ⟨s₁, observed, rules, r₀, ho, hr₀, hanswer⟩ := answer_of_append hterm h
  have hwf₁ : WellFormed s₁ := by
    cases ho with
    | same => exact hwf
    | higher hlt => exact hwf.stepDown hlt
  have ha₁ : AgreesWithCommitted (following s₁ sender) request := by
    cases ho with
    | same | higher => exact ha
  obtain ⟨log, changed, haccept⟩ := @receiveAppend_accepts
    ⟨following s₁ sender, rules, observed ++ [.resetElectionTimer]⟩ sender request
    (hwf₁.following sender) (ho.frame.base.trans hb) ha₁
    (ho.commit ▸ hprev) (validateAppendRequest_eq_ok hq).1
  rw [haccept] at hr₀
  cases hr₀
  rw [hanswer, acceptAppend]
  cases changed <;> simp [ho.silent, List.findSome?, Effect.answer?]

theorem answer_of_append_rejected (hb : request.previousLogIndex < base s)
    (hterm : s.persistent.currentTerm ≤ request.term)
    (h : step s (.receiveAppendEntries sender request) = .ok r) (i : Nat) :
    (r.answerAbove i).1 = some (false, 0) := by
  obtain ⟨s₁, observed, rules, r₀, ho, hr₀, hanswer⟩ := answer_of_append hterm h
  rw [receiveAppend_rejects (show _ < base (following s₁ sender) from ho.frame.base ▸ hb)] at hr₀
  cases hr₀
  rw [hanswer]
  simp [rejectAppend, StepResult.rule, StepResult.emit, ho.silent, List.findSome?, Effect.answer?]

theorem filter_drop_log (hwf : WellFormed s) (hb : base s = 0) (i : Nat) :
    (s.persistent.log.drop i).filter (i < ·.index) = s.persistent.log.filter (i < ·.index) := by
  have htake : (s.persistent.log.take i).filter (i < ·.index) = [] := by
    rw [filter_eq_nil_iff]
    intro e he
    have hc := hwf.contiguous.take i
    obtain ⟨hget, _⟩ := hc.getElem? he
    have := (List.getElem?_eq_some_iff.mp hget).1
    rw [List.length_take] at this
    simp
    omega
  conv_rhs => rw [← take_append_drop i s.persistent.log, filter_append, htake]
  rfl

theorem Receives.base (he : Receives P event)
    (h : step s event = .ok r) : base r.state = base s := by
  obtain ⟨_, _, _, r₀, hd, hg⟩ := step_eq_ok h
  have hframe : Frame s r₀.state := by
    cases he with
    | vote => exact (handleRequestVote_outcome hd).frame
    | append => exact (handleAppendEntries_outcome hd).frame
  cases hg with
  | through | cut => exact hframe.base

theorem serves_compacted (he : Receives P event)
    (hc : Compacts s m) (hv : validate s = []) (ht : m.lastIncludedTerm ≠ 0)
    (h : Serves (compacted m s) event) : Serves s event := by
  cases he with
  | vote sender request =>
    have hids := h.ids
    simp only [voteWrites,
      isLogAtLeastAsUpToDate_compacted hc (validate_eq_nil_iff.mp hv).1 ht] at hids
    exact ⟨h.unblocked, h.peer, h.named, hids⟩
  | append => exact ⟨h.unblocked, h.peer, h.named, h.ids⟩

/-- **When compaction is invisible to the receivers of the RPCs.** With and without the
snapshot the receiver gives the same answer, commit index and log above the snapshot, exactly
if it refuses the event, or the snapshot's term is not zero and the event does not look below
the snapshot. -/
theorem compaction_invisible_iff (hv : validate s = []) (hc : Compacts s m)
    (he : Receives (AgreesWithCommitted s) event) :
    SameAnswer s m event ↔ (Serves s event → m.lastIncludedTerm ≠ 0 ∧ Reads s m event) := by
  have hwf := (validate_eq_nil_iff.mp hv).1
  have hterm : ∀ {r}, step (compacted m s) event = .ok r → m.lastIncludedTerm ≠ 0 := fun hr =>
    ((validate_eq_nil_iff.mp (step_eq_ok hr).1).1.snapshot_pos m rfl).2.1
  constructor
  · intro hsame hserves
    obtain ⟨r, hr⟩ := (step_returns_iff hv he).mpr hserves
    rw [SameAnswer, hr] at hsame
    cases hr' : step (compacted m s) event with
    | error e => simp [hr', Except.toOption] at hsame
    | ok r' =>
      refine ⟨hterm hr', ?_⟩
      cases he with
      | vote => exact .vote _ _
      | @append sender request hq ha =>
        refine .append hq ?_
        -- Below the snapshot the whole log accepts what the compacted one rejects.
        by_contra hb
        simp only [not_or, Nat.not_lt, Nat.not_le] at hb
        have haccept := answer_of_append_accepted hwf hc.base hq ha
          (hb.2.le.trans (hc.applied.trans hwf.applied_le_commit)) hb.1 hr m.lastIncludedIndex
        have hreject := @answer_of_append_rejected (compacted m s) r' sender request hb.2 hb.1 hr'
          m.lastIncludedIndex
        simp only [hr', Except.toOption, Option.map_some, Option.some.injEq] at hsame
        rw [hsame, haccept] at hreject
        cases hreject
  · intro hcond
    by_cases hserves : Serves s event
    · obtain ⟨ht, hreads⟩ := hcond hserves
      rw [SameAnswer, step_compacted hv hc ht hreads]
      cases hr : step s event with
      | error e => rfl
      | ok r =>
        have hwf' := (validate_eq_nil_iff.mp (step_eq_ok hr).2.1).1
        have hlog := filter_drop_log hwf' ((he.base hr).trans hc.base) m.lastIncludedIndex
        exact congrArg (fun log => some ((r.answerAbove m.lastIncludedIndex).1,
          r.state.volatileState.commitIndex, log)) hlog
    · -- An event that is not taken up is refused in both states.
      cases hr : step s event with
      | ok r => exact absurd ((step_returns_iff hv he).mp ⟨r, hr⟩) hserves
      | error e =>
        cases hr' : step (compacted m s) event with
        | error e' => simp [SameAnswer, hr, hr', Except.toOption]
        | ok r' =>
          have hserves' := (step_returns_iff (step_eq_ok hr').1 he).mp ⟨r', hr'⟩
          exact absurd (serves_compacted he hc hv (hterm hr') hserves') hserves

end

/-! ## An append that starts below the snapshot -/

/-- A follower in term 1 with two entries, both applied. -/
def follower : State where
  node := 1
  peers := [2, 3]
  persistent := {
    currentTerm := 1
    log := [⟨1, 1, ⟨⟨1, 1⟩, 0, []⟩⟩, ⟨1, 2, ⟨⟨1, 2⟩, 0, []⟩⟩] }
  volatileState := { commitIndex := 2, lastApplied := 2 }

/-- Its snapshot of the first entry. -/
def firstSnapshot : SnapshotMetadata where
  lastIncludedIndex := 1
  lastIncludedTerm := 1
  storeRevision := 1
  compactionRevision := 0
  membership := ⟨[1, 2, 3], []⟩
  formatVersion := 1

/-- The leader sends a third entry. -/
def thirdEntry : AppendEntriesRequest :=
  ⟨1, 2, 2, 1, [⟨1, 3, ⟨⟨1, 3⟩, 0, []⟩⟩], 3, none⟩

/-- The leader, which has not heard of the follower's progress, sends the whole log. -/
def wholeLog : AppendEntriesRequest :=
  ⟨1, 2, 0, 0, follower.persistent.log, 2, none⟩

theorem follower_compacts : Compacts follower firstSnapshot :=
  ⟨rfl, by decide, by decide, rfl⟩

theorem compaction_invisible_follower :
    SameAnswer follower firstSnapshot (.receiveAppendEntries 2 thirdEntry) ∧
      ¬ SameAnswer follower firstSnapshot (.receiveAppendEntries 2 wholeLog) := by
  have hv : validate follower = [] := by decide +kernel
  constructor
  · refine (compaction_invisible_iff hv follower_compacts (.append rfl ⟨fun _ => rfl, ?_⟩)).mpr
      fun _ => ⟨by decide, .append rfl (.inr (by decide))⟩
    simp [thirdEntry, follower]
  · intro h
    obtain ⟨_, hreads⟩ := (compaction_invisible_iff hv follower_compacts
      (.append rfl ⟨fun _ => rfl, fun e he _ => he⟩)).mp h ⟨rfl, by decide, rfl, by decide⟩
    cases hreads with
    | append _ hb => revert hb; decide

/-- The compacted follower rejects a log it has, which it accepted before the compaction. -/
theorem step_compacted_rejects :
    validate follower = [] ∧ Compacts follower firstSnapshot ∧
      Election.validateAppendRequest wholeLog = .ok () ∧ AgreesWithCommitted follower wholeLog ∧
      ∃ r r', step follower (.receiveAppendEntries 2 wholeLog) = .ok r ∧
        step (compacted firstSnapshot follower) (.receiveAppendEntries 2 wholeLog) = .ok r' ∧
        .sendAppendEntriesResponse 2 ⟨1, true, 2, none⟩ ∈ r.effects ∧
        .sendAppendEntriesResponse 2 ⟨1, false, 0, none⟩ ∈ r'.effects := by
  refine ⟨by decide +kernel, follower_compacts, rfl, ⟨fun _ => rfl, fun e he _ => he⟩, ?_⟩
  have h : ((step follower (.receiveAppendEntries 2 wholeLog)).toOption.any fun r =>
      (step (compacted firstSnapshot follower) (.receiveAppendEntries 2 wholeLog)).toOption.any
        fun r' => decide (.sendAppendEntriesResponse 2 ⟨1, true, 2, none⟩ ∈ r.effects ∧
          .sendAppendEntriesResponse 2 ⟨1, false, 0, none⟩ ∈ r'.effects)) = true := by
    decide +kernel
  cases hs : step follower (.receiveAppendEntries 2 wholeLog) with
  | error e => simp [hs, Except.toOption] at h
  | ok r =>
    cases hs' : step (compacted firstSnapshot follower) (.receiveAppendEntries 2 wholeLog) with
    | error e => simp [hs, hs', Except.toOption] at h
    | ok r' =>
      simp only [hs, hs', Except.toOption, Option.any_some, decide_eq_true_eq] at h
      exact ⟨r, r', rfl, rfl, h⟩

end KuraMetadata.Figure2
