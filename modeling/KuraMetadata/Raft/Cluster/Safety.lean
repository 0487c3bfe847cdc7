import KuraMetadata.Raft.Cluster.Invariant
import KuraMetadata.Library.OrderedMap
import KuraMetadata.Raft.Core.Applications

/-! # Safety of the cluster

What the history of a run says about the cores the run shows: one leader per term, one entry
per applied index, later leaders that have everything committed, logs that agree where their
terms do, and replication progress that the disks of the peers back. -/

namespace KuraMetadata.Election

open List Option
open Figure2 (entryAt base termAt State entryAt_eq_ok LeaderState PeerProgress)

open Replica (Hist Tracks Seen quorums run_history diskOf Stored)
open Consensus (History)

variable {m m' : Moment} {c c' : Core} {requestId : Nat} {r : StepResult} {H : Hist} {call : Call}
variable {e : LogEntry} {n p : NodeId} {leader : LeaderState} {progress : PeerProgress}

section

variable {τ : Topology} {moments : List Moment} {s : Cluster} {index : Nat}

theorem exists_shows {Q : Core → Bool} (h : moments.any (fun m => (m.post.core? n).any Q) = true) :
    ∃ m ∈ moments, ∃ c, m.Shows n c ∧ Q c = true := by
  obtain ⟨m, hm, h⟩ := any_eq_true.mp h
  cases hc : m.post.core? n with
  | none => simp [hc] at h
  | some c => exact ⟨m, hm, c, .inl hc, by simpa [hc] using h⟩

/-! ## Election safety -/

/-- **Election safety.** In every run at most one node ever leads a term. -/
theorem election_safety (run : Run τ moments s) (hm : m ∈ moments)
    (hm' : m' ∈ moments) {n n' : NodeId} (hc : m.Shows n c) (hc' : m'.Shows n' c')
    (hl : c.state.role = .leader) (hl' : c'.state.role = .leader)
    (ht : c.state.persistent.currentTerm = c'.state.persistent.currentTerm) : n = n' := by
  obtain ⟨H, _, hseen, _⟩ := run_history run
  obtain ⟨H₁, F₁, hle₁, _, _, hn₁, h₁⟩ := hseen m hm n c hc
  obtain ⟨H₂, F₂, hle₂, _, _, hn₂, h₂⟩ := hseen m' hm' n' c' hc'
  have hleader := hle₁.leader _ _ (h₁.sound.role.leader hl).2.leader
  have hleader' := hle₂.leader _ _ (h₂.sound.role.leader hl').2.leader
  rw [ht, hleader', Option.some.injEq] at hleader
  rw [← hn₁, ← hn₂, hleader]

theorem election_safety_handedOver :
    ∃ moments s m c, Run trio moments s ∧ m ∈ moments ∧ m.Shows 2 c ∧ c.state.role = .leader ∧
      ∀ m' ∈ moments, ∀ n c', m'.Shows n c' → c'.state.role = .leader →
        c'.state.persistent.currentTerm = c.state.persistent.currentTerm → n = 2 := by
  obtain ⟨moments, s, run, h⟩ := @Run.of_play trio handedOver
    (fun moments _ => moments.any fun (m : Moment) => (m.post.core? 2).any fun (c : Core) =>
      decide (c.state.role = .leader)) (by decide +kernel)
  obtain ⟨m, hm, c, hc, hl⟩ := exists_shows h
  have hl := of_decide_eq_true hl
  exact ⟨moments, s, m, c, run, hm, hc, hl, fun m' hm' n c' hc' hl' ht =>
    election_safety run hm' hm hc' hc hl' hl ht⟩

/-! ## State-machine safety -/

/-- The call completes the application of `e` at `index`. -/
def Call.Applies (call : Call) (index : Nat) (e : LogEntry) : Prop :=
  ∃ requestId p, call.input = .logEntryApplied requestId index ∧
    call.before.pendingApplication = some p ∧ p.request.entry = e

/-- The call completes the installation of a received snapshot that ends at `index`. -/
def Call.Installs (call : Call) (index : Nat) (m : SnapshotMetadata) : Prop :=
  ∃ requestId p, call.input = .raftSnapshotRestored requestId index ∧
    call.before.pendingSnapshotRestore = some p ∧ p.snapshot.metadata = m

/-- What the calls of a run do to the state machines. -/
structure OneStateMachine (moments : List Moment) : Prop where
  /-- An accepted completion is that of an entry, or of a snapshot, at its index. -/
  applies : ∀ m ∈ moments, ∀ call ∈ m.calls, ∀ requestId index,
    call.input = .logEntryApplied requestId index → ∃ e, call.Applies index e ∧ e.index = index
  installs : ∀ m ∈ moments, ∀ call ∈ m.calls, ∀ requestId index,
    call.input = .raftSnapshotRestored requestId index →
      ∃ metadata, call.Installs index metadata ∧ metadata.lastIncludedIndex = index
  entries : ∀ m ∈ moments, ∀ m' ∈ moments, ∀ call ∈ m.calls, ∀ call' ∈ m'.calls,
    ∀ index e e', call.Applies index e → call'.Applies index e' → e = e'
  snapshots : ∀ m ∈ moments, ∀ m' ∈ moments, ∀ call ∈ m.calls, ∀ call' ∈ m'.calls,
    ∀ index e metadata, call.Applies index e → call'.Installs index metadata →
      metadata.lastIncludedTerm = e.term
  /-- No entry is handed out before it is committed. -/
  committed : ∀ m ∈ moments, ∀ call ∈ m.calls, ∀ q, .applyLogEntry q ∈ call.result.effects →
    q.entry.index ≤ call.after.state.volatileState.commitIndex

theorem Core.step_applied (h : c.step (.logEntryApplied requestId index) = .ok (c', r)) :
    ∃ p, c.pendingApplication = some p ∧ p.request.entry.index = index := by
  obtain ⟨_, hd⟩ := Core.step_eq_ok h
  cases hd with
  | applied _ _ h =>
    obtain ⟨p, _, _, hp, _, _, hx, _⟩ := Core.logEntryApplied_eq_ok h
    exact ⟨p, hp, hx⟩
  | unblocked hi => cases hi

theorem Core.step_restored (h : c.step (.raftSnapshotRestored requestId index) = .ok (c', r)) :
    ∃ p, c.pendingSnapshotRestore = some p ∧ p.snapshot.metadata.lastIncludedIndex = index := by
  obtain ⟨_, hd⟩ := Core.step_eq_ok h
  cases hd with
  | snapshotRestored h =>
    obtain ⟨_, _, hinst, _⟩ := Core.afterSnapshot_eq_ok h
    obtain ⟨p, hp, _, hx, _⟩ := Core.completeSnapshotRestore_eq_ok hinst
    exact ⟨p, hp, hx.symm⟩
  | unblocked hi => cases hi

/-- The entry being applied is one a leader has declared committed. -/
theorem applies_decided (hcall : Replica.CallSeen τ H n call)
    (h : call.Applies index e) :
    0 < index ∧ ∃ T, index ≤ H.commit T ∧ (H.led T)[index - 1]? = some e := by
  obtain ⟨requestId, p, hinput, hp, rfl⟩ := h
  obtain ⟨_, _, hrun⟩ := hcall.run
  obtain ⟨_, hstep⟩ := hrun.before
  rw [hinput] at hstep
  obtain ⟨p', hp', hx⟩ := Core.step_applied hstep
  obtain rfl : p = p' := Option.some.inj (hp.symm.trans hp')
  obtain ⟨H₀, F, hle, hv, _, _, hF⟩ := hcall.before
  obtain ⟨hindex, hlt, hget⟩ := hF.application p hp
  rw [hx] at hindex
  obtain ⟨T, hT, he⟩ := (hF.sound.decided_of_lt hlt).decided.getElem? hv (Nat.lt_of_succ_le hlt)
    hget
  refine ⟨by omega, T, ?_, ?_⟩
  · have := hle.commit T
    omega
  · rw [hindex, Nat.add_sub_cancel]
    exact Replica.getElem?_of_isPrefix (hle.led T) he

/-- A received snapshot ends with an entry a leader has declared committed. -/
theorem installs_decided (hcall : Replica.CallSeen τ H n call)
    {m : SnapshotMetadata} (h : call.Installs index m) :
    ∃ T e, index ≤ H.commit T ∧ (H.led T)[index - 1]? = some e ∧ e.term = m.lastIncludedTerm := by
  obtain ⟨requestId, p, hinput, hp, rfl⟩ := h
  obtain ⟨_, _, hrun⟩ := hcall.run
  obtain ⟨_, hstep⟩ := hrun.before
  rw [hinput] at hstep
  obtain ⟨p', hp', rfl⟩ := Core.step_restored hstep
  obtain rfl : p = p' := Option.some.inj (hp.symm.trans hp')
  obtain ⟨H₀, F, hle, hv, _, _, hF⟩ := hcall.before
  obtain ⟨hpos, ⟨e, he, ht⟩, hdecided⟩ := (hF.restoring p hp).snapshot
  obtain ⟨T, hT, he⟩ := hdecided.decided.getElem? hv (by omega) he
  exact ⟨T, e, hT.trans (hle.commit T), Replica.getElem?_of_isPrefix (hle.led T) he, ht⟩

/-- **State-machine safety.** Whatever two nodes, or two incarnations of one node, apply or
install at one index is the same. -/
theorem state_machine_safety (run : Run τ moments s) : OneStateMachine moments := by
  obtain ⟨H, hsafe, _, hcalls⟩ := run_history run
  have hv := hsafe.valid
  refine ⟨fun m hm call hcall requestId index hinput => ?_,
    fun m hm call hcall requestId index hinput => ?_,
    fun m hm m' hm' call hcall call' hcall' index e e' ha ha' => ?_,
    fun m hm m' hm' call hcall call' hcall' index e metadata ha hi => ?_,
    fun m hm call hcall q hq => ?_⟩
  · obtain ⟨_, _, hrun⟩ := (hcalls m hm call hcall).run
    have hstep := hrun.before.2
    rw [hinput] at hstep
    obtain ⟨p, hp, hx⟩ := Core.step_applied hstep
    exact ⟨_, ⟨requestId, p, hinput, hp, rfl⟩, hx⟩
  · obtain ⟨_, _, hrun⟩ := (hcalls m hm call hcall).run
    have hstep := hrun.before.2
    rw [hinput] at hstep
    obtain ⟨p, hp, hx⟩ := Core.step_restored hstep
    exact ⟨_, ⟨requestId, p, hinput, hp, rfl⟩, hx⟩
  · obtain ⟨hpos, T, hT, he⟩ := applies_decided (hcalls m hm call hcall) ha
    obtain ⟨_, T', hT', he'⟩ := applies_decided (hcalls m' hm' call' hcall') ha'
    exact hv.getElem?_commit (by omega) (by omega) he he'
  · obtain ⟨hpos, T, hT, he⟩ := applies_decided (hcalls m hm call hcall) ha
    obtain ⟨T', e', hT', he', ht⟩ := installs_decided (hcalls m' hm' call' hcall') hi
    rw [← ht, hv.getElem?_commit (by omega) (by omega) he he']
  · obtain ⟨_, _, hrun⟩ := (hcalls m hm call hcall).run
    obtain ⟨hbefore, hstep⟩ := hrun.before
    exact (hrun.applying.2.1 _ (hbefore.handed hstep hq)).2.2

theorem exists_applies
    (h : moments.any (fun m => decide (m.action.node = n) && m.calls.any fun call =>
      decide (call.input = .logEntryApplied applicationRequestBase index)) = true)
    (hm : OneStateMachine moments) :
    ∃ m ∈ moments, m.action.node = n ∧ ∃ call ∈ m.calls, ∃ e, call.Applies index e := by
  obtain ⟨m, hmem, h⟩ := any_eq_true.mp h
  simp only [Bool.and_eq_true, decide_eq_true_eq, List.any_eq_true] at h
  obtain ⟨hn, call, hcall, hinput⟩ := h
  obtain ⟨e, he, _⟩ := hm.applies m hmem call hcall _ _ hinput
  exact ⟨m, hmem, hn, call, hcall, e, he⟩

/-- Two nodes apply the first entry. -/
theorem state_machine_safety_handedOver :
    ∃ moments s, Run trio moments s ∧ OneStateMachine moments ∧
      (∃ m ∈ moments, m.action.node = 1 ∧ ∃ call ∈ m.calls, ∃ e, call.Applies 1 e) ∧
      ∃ m ∈ moments, m.action.node = 2 ∧ ∃ call ∈ m.calls, ∃ e, call.Applies 1 e := by
  obtain ⟨moments, s, run, h⟩ := @Run.of_play trio handedOver
    (fun moments _ => [1, 2].all fun n => moments.any fun (m : Moment) =>
      decide (m.action.node = n) &&
      m.calls.any fun call => decide (call.input = .logEntryApplied applicationRequestBase 1))
    (by decide +kernel)
  have hm := state_machine_safety run
  exact ⟨moments, s, run, hm, exists_applies (all_eq_true.mp h 1 (by simp)) hm,
    exists_applies (all_eq_true.mp h 2 (by simp)) hm⟩

/-! ## Leader completeness -/

/-- The log and the snapshot of the state have the entries `ℓ` at their indexes: each is in the
log, or the snapshot covers it, with its term where it is the last one covered. -/
def Contains (s : State) (ℓ : List LogEntry) : Prop :=
  ∀ i e, ℓ[i]? = some e → entryAt s (i + 1) = .ok e ∨
    ∃ m, s.persistent.snapshot = some m ∧ i + 1 ≤ m.lastIncludedIndex ∧
      (i + 1 = m.lastIncludedIndex → m.lastIncludedTerm = e.term)

theorem contains_of_isPrefix {st : State} {F ℓ : List LogEntry} (hF : Replica.Full st F)
    (hp : ℓ <+: F) : Contains st ℓ := by
  intro i e he
  have hget := Replica.getElem?_of_isPrefix hp he
  by_cases hlt : base st < i + 1
  · exact .inl (hF.entryAt.mpr ⟨hlt, by simpa using hget⟩)
  · cases hs : st.persistent.snapshot with
    | none => simp [base, hs] at hlt
    | some m =>
      simp only [base, hs, not_lt] at hlt
      refine .inr ⟨m, rfl, hlt, fun heq => ?_⟩
      obtain ⟨_, e', he', ht⟩ := hF.boundary m hs
      rw [← heq, Nat.add_sub_cancel, hget] at he'
      rw [← ht, Option.some.inj he']

/-- **Leader completeness.** What a leader has ever taken for committed is in the log, or under
the snapshot, of every leader of a later term. -/
theorem leader_completeness (run : Run τ moments s) (hm : m ∈ moments)
    (hc : m.Shows n c) (hl : c.state.role = .leader) :
    ∃ committed : List LogEntry, committed.length = c.state.volatileState.commitIndex ∧
      Contains c.state committed ∧
      ∀ m' ∈ moments, ∀ n' c', m'.Shows n' c' → c'.state.role = .leader →
        c.state.persistent.currentTerm < c'.state.persistent.currentTerm →
        Contains c'.state committed := by
  obtain ⟨H, hsafe, hseen, _⟩ := run_history run
  obtain ⟨H₁, F₁, hle₁, hv₁, _, _, h₁⟩ := hseen m hm n c hc
  have hdecided := h₁.sound.decided hl
  refine ⟨F₁.take c.state.volatileState.commitIndex, ?_,
    contains_of_isPrefix h₁.sound.full (List.take_prefix _ _), ?_⟩
  · rw [List.length_take, min_eq_left (History.Decided.le_length hv₁ hdecided.decided)]
  · intro m' hm' n' c' hc' hl' hlt
    obtain ⟨H₂, F₂, hle₂, hv₂, _, _, h₂⟩ := hseen m' hm' n' c' hc'
    have hlead := (h₂.sound.role.leader hl').2
    have hne : H₂.leader c'.state.persistent.currentTerm ≠ none := by
      rw [hlead.leader]
      exact some_ne_none _
    refine contains_of_isPrefix h₂.sound.full ?_
    -- The later leader started with everything decided in an earlier term.
    have hstart := (hdecided.mono hv₁ hle₁).prefix_start hsafe.valid hlt (hle₂.leader_ne_none hne)
    rw [hle₂.start _ hne] at hstart
    rw [hlead.log]
    exact hstart.trans (hv₂.start_prefix _)

/-- Node 2 has the entry node 1 committed when it leads the next term. -/
theorem leader_completeness_handedOver :
    ∃ moments s m c, Run trio moments s ∧ m ∈ moments ∧ m.Shows 2 c ∧ c.state.role = .leader ∧
      c.state.persistent.currentTerm = 2 ∧
      ∃ e, e.term = 1 ∧ Contains c.state [e] := by
  obtain ⟨moments, s, run, h⟩ := @Run.of_play trio handedOver
    (fun moments _ =>
      (moments.any fun (m : Moment) => (m.post.core? 1).any fun (c : Core) =>
        decide (c.state.role = .leader ∧
        c.state.persistent.currentTerm = 1 ∧ c.state.volatileState.commitIndex = 1 ∧
        c.state.persistent.snapshot = none ∧ c.state.persistent.log.map LogEntry.term = [1])) &&
      moments.any fun (m : Moment) => (m.post.core? 2).any fun (c : Core) =>
        decide (c.state.role = .leader ∧
        c.state.persistent.currentTerm = 2)) (by decide +kernel)
  simp only [Bool.and_eq_true] at h
  obtain ⟨m, hm, c, hc, hQ⟩ := exists_shows h.1
  obtain ⟨m', hm', c', hc', hQ'⟩ := exists_shows h.2
  obtain ⟨hl, ht, hcommit, hsnap, hlog⟩ := of_decide_eq_true hQ
  obtain ⟨hl', ht'⟩ := of_decide_eq_true hQ'
  obtain ⟨committed, hlen, hown, hlater⟩ := leader_completeness run hm hc hl
  rw [hcommit] at hlen
  obtain ⟨e, rfl⟩ := List.length_eq_one_iff.mp hlen
  refine ⟨moments, s, m', c', run, hm', hc', hl', ht', e, ?_,
    hlater m' hm' 2 c' hc' hl' (by omega)⟩
  rcases hown 0 e rfl with he | ⟨m, hm, _⟩
  · have := (entryAt_eq_ok.mp he).2
    have hterm := congrArg (Option.map LogEntry.term) this
    rw [← getElem?_map, hlog] at hterm
    simpa [base, hsnap] using hterm.symm
  · rw [hsnap] at hm
    cases hm

/-! ## Log matching -/

/-- **Log matching.** Where two nodes have recorded the same term, in their log or as the
boundary of their snapshot, they have the same entries up to there. -/
theorem log_matching (run : Run τ moments s) (hm : m ∈ moments)
    (hm' : m' ∈ moments) {a b : NodeId} (hc : m.Shows a c) (hc' : m'.Shows b c')
    {i t : Nat} (ht : termAt c.state i = .ok t)
    (ht' : termAt c'.state i = .ok t) {j : Nat} (hj : j ≤ i) {e e' : LogEntry}
    (he : entryAt c.state j = .ok e) (he' : entryAt c'.state j = .ok e') :
    e = e' := by
  obtain ⟨H, _, hseen, _⟩ := run_history run
  obtain ⟨H₁, F₁, hle₁, _, _, _, h₁⟩ := hseen m hm a c hc
  obtain ⟨H₂, F₂, hle₂, _, _, _, h₂⟩ := hseen m' hm' b c' hc'
  obtain ⟨hbase, he⟩ := h₁.sound.full.entryAt.mp he
  obtain ⟨_, he'⟩ := h₂.sound.full.entryAt.mp he'
  have h0 : i ≠ 0 := by omega
  obtain ⟨_, x, hx, hxt⟩ := h₁.sound.full.termAt ht h0
  obtain ⟨_, y, hy, hyt⟩ := h₂.sound.full.termAt ht' h0
  have heq := (h₁.sound.coherent.mono hle₁.led).take_eq (h₂.sound.coherent.mono hle₂.led) hx hy
    (hxt.trans hyt.symm)
  have hlt : j - 1 < i - 1 + 1 := by omega
  rw [← getElem?_take_of_lt hlt, heq, getElem?_take_of_lt hlt, he'] at he
  exact (Option.some.inj he).symm

/-- Nodes 1 and 2 have one entry of term 1 each, the same one. -/
theorem log_matching_handedOver :
    ∃ moments s m m' c c' e e', Run trio moments s ∧ m ∈ moments ∧ m' ∈ moments ∧
      m.Shows 1 c ∧ m'.Shows 2 c' ∧ entryAt c.state 1 = .ok e ∧
      entryAt c'.state 1 = .ok e' ∧ e = e' := by
  have key : ∀ c : Core, decide (c.state.persistent.snapshot = none ∧
      c.state.persistent.log.map LogEntry.term = [1]) = true →
      termAt c.state 1 = .ok 1 ∧ ∃ e, entryAt c.state 1 = .ok e := by
    intro c hc
    obtain ⟨hsnap, hlog⟩ := of_decide_eq_true hc
    obtain ⟨e, he, ht⟩ := List.map_eq_singleton_iff.mp hlog
    have hentry : entryAt c.state 1 = .ok e :=
      entryAt_eq_ok.mpr (by simp [base, hsnap, he])
    exact ⟨by simp [termAt, hsnap, hentry, Except.map, ht], e, hentry⟩
  obtain ⟨moments, s, run, h⟩ := @Run.of_play trio handedOver
    (fun moments _ => [1, 2].all fun n => moments.any fun (m : Moment) =>
      (m.post.core? n).any fun (c : Core) =>
      decide (c.state.persistent.snapshot = none ∧
        c.state.persistent.log.map LogEntry.term = [1])) (by decide +kernel)
  obtain ⟨m, hm, c, hc, hQ⟩ := exists_shows (all_eq_true.mp h 1 (by simp))
  obtain ⟨m', hm', c', hc', hQ'⟩ := exists_shows (all_eq_true.mp h 2 (by simp))
  obtain ⟨ht, e, he⟩ := key c hQ
  obtain ⟨ht', e', he'⟩ := key c' hQ'
  exact ⟨moments, s, m, m', c, c', e, e', run, hm, hm', hc, hc', he, he',
    log_matching run hm hm' hc hc' ht ht' le_rfl he he'⟩

/-! ## Replication progress -/

/-- The disk has the entries the state records up to `k`: each is in the last completed log
image, or the last completed snapshot covers it. What the state has compacted is known by its
boundary only. -/
def Backs (disk : Recovered) (st : State) (k : Nat) : Prop :=
  ∀ i, 0 < i → i ≤ k → i ≤ Replica.snapshotIndex disk ∨
    ∃ e ∈ disk.log, e.index = i ∧
      (∀ e', entryAt st i = .ok e' → e = e') ∧
      ∀ t, termAt st i = .ok t → e.term = t

/-- **Replication progress is sound.** As long as a peer has not moved to a later term, its disk
backs the match index any leader of the run has recorded for it. -/
theorem progress_sound (run : Run τ moments s) (hm : m ∈ moments)
    (hc : m.Shows n c) (hl : c.state.role = .leader)
    (hleader : c.state.leader = some leader)
    (hp : (p, progress) ∈ leader.progress)
    (hterm : (diskOf (s.hosts p)).hardState.currentTerm ≤ c.state.persistent.currentTerm) :
    Backs (diskOf (s.hosts p)) c.state progress.matchIndex := by
  obtain ⟨H, hsafe, hseen, _⟩ := run_history run
  obtain ⟨H₁, F, hle, _, hi₁, _, hF⟩ := hseen m hm n c hc
  have hlead := (hF.sound.role.leader hl).2
  have hst := (hsafe.hosts p).stored
  have hv := hsafe.valid
  intro i hpos hi
  have hack : i ≤ H.ack p c.state.persistent.currentTerm :=
    (hi.trans (hlead.matched leader hleader _ hp)).trans (hle.ack _ _)
  -- A peer that has acknowledged something in the term, and is in no later one, is in it.
  have hsame : H.term p = c.state.persistent.currentTerm := by
    rw [hst.hardState] at hterm
    exact le_antisymm hterm (hv.ack_term p _ (by omega))
  have hprefix := hv.ack_log p
  rw [hsame] at hprefix
  obtain ⟨E, b, hlog, hE, hb, hcase⟩ := hst.log
  have hlen : H.ack p c.state.persistent.currentTerm ≤ (H.log p).length := by
    have := hprefix.length_le
    rw [List.length_take, min_eq_left (hv.ack_length p _)] at this
    exact this
  by_cases hcovered : i ≤ Replica.snapshotIndex (diskOf (s.hosts p))
  · exact .inl hcovered
  · rcases hcase with rfl | ⟨hend, _⟩
    · obtain ⟨e, he⟩ : ∃ e, (H.log p)[i - 1]? = some e :=
        ⟨_, getElem?_eq_getElem (by omega)⟩
      have hled : (H.led c.state.persistent.currentTerm)[i - 1]? = some e := by
        obtain ⟨t, ht⟩ := hprefix
        have hlt : i - 1 < ((H.led c.state.persistent.currentTerm).take
            (H.ack p c.state.persistent.currentTerm)).length := by
          rw [List.length_take, min_eq_left (hv.ack_length p _)]
          omega
        rw [← ht, getElem?_append_left hlt, getElem?_take_of_lt (by omega)] at he
        exact he
      have hwhole : ∀ e', F[i - 1]? = some e' → e = e' := by
        intro e' he'
        rw [hlead.log] at he'
        have := Replica.getElem?_of_isPrefix (hle.led _) he'
        rw [hled] at this
        exact Option.some.inj this
      refine .inr ⟨e, ?_, ?_, fun e' he' => ?_, fun t ht => ?_⟩
      · rw [hlog]
        refine mem_of_getElem? (i := i - 1 - b) ?_
        rw [getElem?_drop, ← he]
        congr 1
        omega
      · have := hsafe.indexed.of_coherent hE (i - 1) e he
        omega
      · exact hwhole e' (hF.sound.full.entryAt.mp he').2
      · obtain ⟨_, e', he', ht⟩ := hF.sound.full.termAt ht (by omega)
        rw [hwhole e' he', ht]
    · omega

/-- The match index a leader has recorded for a peer. -/
def Core.matched (c : Core) (p : NodeId) : Option (LeaderState × PeerProgress) :=
  c.state.leader.bind fun leader =>
    (leader.progress.find? fun x => x.1 = p).map fun x => (leader, x.2)

theorem Core.matched_eq_some (h : c.matched p = some (leader, progress)) :
    c.state.leader = some leader ∧ (p, progress) ∈ leader.progress := by
  obtain ⟨l, hl, h⟩ := bind_eq_some_iff.mp h
  obtain ⟨x, hx, h⟩ := map_eq_some_iff.mp h
  obtain ⟨rfl, rfl⟩ := Prod.mk.inj h
  have hp : x.1 = p := by simpa using find?_some hx
  exact ⟨hl, hp ▸ mem_of_find?_eq_some hx⟩

/-- Node 2 has acknowledged the entry of node 1. -/
theorem progress_sound_replicated :
    ∃ moments s m c, Run trio moments s ∧ m ∈ moments ∧ m.Shows 1 c ∧ c.state.role = .leader ∧
      (c.matched 2).map (fun x => x.2.matchIndex) = some 1 ∧
      (diskOf (s.hosts 2)).hardState.currentTerm ≤ c.state.persistent.currentTerm ∧
      Backs (diskOf (s.hosts 2)) c.state 1 := by
  obtain ⟨moments, s, run, h⟩ := @Run.of_play trio replicated
    (fun moments s => moments.any fun (m : Moment) => (m.post.core? 1).any fun (c : Core) =>
      decide (c.state.role = .leader ∧ (c.matched 2).map (fun x => x.2.matchIndex) = some 1 ∧
        (diskOf (s.hosts 2)).hardState.currentTerm ≤ c.state.persistent.currentTerm))
    (by decide +kernel)
  obtain ⟨m, hm, c, hc, hQ⟩ := exists_shows h
  obtain ⟨hl, hmatch, ht⟩ := of_decide_eq_true hQ
  obtain ⟨⟨leader, progress⟩, hfound, hone⟩ := map_eq_some_iff.mp hmatch
  obtain ⟨hleader, hp⟩ := Core.matched_eq_some hfound
  refine ⟨moments, s, m, c, run, hm, hc, hl, hmatch, ht, ?_⟩
  rw [← hone]
  exact progress_sound run hm hc hl hleader hp ht

/-- A leader that has been overtaken keeps a match index its peer no longer backs. -/
theorem progress_overtaken :
    ¬ ∀ (τ : Topology) (moments : List Moment) (s : Cluster), Run τ moments s →
      ∀ n c leader p progress, s.core? n = some c → c.state.role = .leader →
        c.state.leader = some leader → (p, progress) ∈ leader.progress →
        Backs (diskOf (s.hosts p)) c.state progress.matchIndex := by
  intro hall
  obtain ⟨moments, s, run, h⟩ := @Run.of_play quintet overtaken
    (fun _ s => (s.core? 1).any fun (c : Core) => decide (c.state.role = .leader ∧
      (c.matched 2).map (fun x => x.2.matchIndex) = some 1 ∧
      c.state.persistent.snapshot = none ∧ c.state.persistent.log.map LogEntry.term = [1] ∧
      Replica.snapshotIndex (diskOf (s.hosts 2)) = 0 ∧
      (diskOf (s.hosts 2)).log.map LogEntry.term = [2])) (by decide +kernel)
  cases hc : s.core? 1 with
  | none => simp [hc] at h
  | some c =>
    simp only [hc, any_some] at h
    obtain ⟨hl, hmatch, hsnap, hlog, hnone, hdisk⟩ := of_decide_eq_true h
    obtain ⟨⟨leader, progress⟩, hfound, hone⟩ := map_eq_some_iff.mp hmatch
    obtain ⟨hleader, hp⟩ := Core.matched_eq_some hfound
    obtain ⟨e, he, ht⟩ := List.map_eq_singleton_iff.mp hlog
    obtain ⟨e', he', ht'⟩ := List.map_eq_singleton_iff.mp hdisk
    rcases hall quintet moments s run 1 c leader 2 progress hc hl hleader hp 1 (by omega)
      (by rw [← hone]) with hle | ⟨x, hx, _, hsame, _⟩
    · omega
    · rw [he', mem_singleton] at hx
      have := hsame e (entryAt_eq_ok.mpr (by simp [base, hsnap, he]))
      rw [hx] at this
      rw [this, ht] at ht'
      cases ht'

/-! ## Durability of commits -/

theorem backs_of_stored {disk : Recovered} (hi : Replica.Indexed H)
    (hst : Stored H p disk) {st : State} {F : List LogEntry} (hF : Replica.Full st F)
    {k : Nat} (hp : F.take k <+: H.log p) (hk : k ≤ F.length) : Backs disk st k := by
  intro i hpos hik
  obtain ⟨e, he⟩ : ∃ e, F[i - 1]? = some e := ⟨_, getElem?_eq_getElem (by omega)⟩
  have hlog : (H.log p)[i - 1]? = some e :=
    Replica.getElem?_of_isPrefix hp (by rw [getElem?_take_of_lt (by omega), he])
  obtain ⟨E, b, hdisk, hE, hb, hcase⟩ := hst.log
  by_cases hcovered : i ≤ Replica.snapshotIndex disk
  · exact .inl hcovered
  have hlt := (List.getElem?_eq_some_iff.mp hlog).1
  rcases hcase with rfl | ⟨hend, _⟩
  · refine .inr ⟨e, ?_, ?_, fun e' he' => ?_, fun t ht => ?_⟩
    · rw [hdisk]
      refine mem_of_getElem? (i := i - 1 - b) ?_
      rw [getElem?_drop, ← hlog]
      congr 1
      omega
    · have := hi.of_coherent hE (i - 1) e hlog
      omega
    · rw [(hF.entryAt.mp he').2] at he
      exact (Option.some.inj he).symm
    · obtain ⟨_, e', he', ht⟩ := hF.termAt ht (by omega)
      rw [he'] at he
      rw [← Option.some.inj he, ht]
  · omega

/-- **Commits are durable.** At any later time, whatever has crashed in between, everything a
leader has ever taken for committed is on the disks of a majority. -/
theorem committed_durable (run : Run τ moments s) (hm : m ∈ moments)
    (hc : m.Shows n c) (hl : c.state.role = .leader) :
    ∃ Q ⊆ τ.nodes.toFinset, τ.nodes.length < 2 * Q.card ∧
      ∀ p ∈ Q, Backs (diskOf (s.hosts p)) c.state c.state.volatileState.commitIndex := by
  obtain ⟨H, hsafe, hseen, _⟩ := run_history run
  obtain ⟨H₁, F, hle, hv₁, _, _, hF⟩ := hseen m hm n c hc
  have hv := hsafe.valid
  have hdecided := (hF.sound.decided hl).decided
  have hlen := hdecided.le_length hv₁
  obtain ⟨T, hk, hp⟩ := hdecided.mono hv₁ hle
  by_cases hzero : c.state.volatileState.commitIndex = 0
  · refine ⟨τ.nodes.toFinset, subset_rfl, ?_, fun p _ i hpos hi => by omega⟩
    rw [toFinset_card_of_nodup τ.nodup]
    have := τ.three_le
    omega
  · obtain ⟨hown, Q, ⟨hQ, hcard⟩, hack⟩ := hv.commit_committed T (by omega)
    rw [toFinset_card_of_nodup τ.nodup] at hcard
    refine ⟨Q, hQ, hcard, fun p hpQ => ?_⟩
    have hkept := hv.kept p T _ (hv.commit_committed T (by omega)).choosable (hack p hpQ)
    refine backs_of_stored hsafe.indexed (hsafe.hosts p).stored hF.sound.full ?_ hlen
    rw [History.Decided.take_eq hv ⟨T, hk, hp⟩ hk]
    exact (take_prefix_take_left hk).trans hkept

/-- The entry node 1 has committed in term 1 is still on two disks after node 2 has taken over. -/
theorem committed_durable_handedOver :
    ∃ moments s m c, Run trio moments s ∧ m ∈ moments ∧ m.Shows 1 c ∧
      c.state.volatileState.commitIndex = 1 ∧
      ∃ Q ⊆ trio.nodes.toFinset, trio.nodes.length < 2 * Q.card ∧
        ∀ p ∈ Q, Backs (diskOf (s.hosts p)) c.state 1 := by
  obtain ⟨moments, s, run, h⟩ := @Run.of_play trio handedOver
    (fun moments _ => moments.any fun (m : Moment) => (m.post.core? 1).any fun (c : Core) =>
      decide (c.state.role = .leader ∧ c.state.volatileState.commitIndex = 1)) (by decide +kernel)
  obtain ⟨m, hm, c, hc, hQ⟩ := exists_shows h
  obtain ⟨hl, hcommit⟩ := of_decide_eq_true hQ
  have hdurable := committed_durable run hm hc hl
  rw [hcommit] at hdurable
  exact ⟨moments, s, m, c, run, hm, hc, hcommit, hdurable⟩

/-! ## Logs of leaders -/

/-- **Leader append-only.** As long as a term lasts, its leader never changes or drops an entry.
The log of the node that leads it after a run reaches at least as far as the log of one seen
leading it earlier in the run, and has every entry of that log that it has not compacted. -/
theorem leader_append_only (run : Run τ moments s) (hm : m ∈ moments)
    {n' : NodeId} (hc : m.Shows n c) (hc' : s.core? n' = some c')
    (hl : c.state.role = .leader) (hl' : c'.state.role = .leader)
    (ht : c.state.persistent.currentTerm = c'.state.persistent.currentTerm) :
    Figure2.lastIndex c.state ≤ Figure2.lastIndex c'.state ∧
      ∀ i e, entryAt c.state i = .ok e →
        entryAt c'.state i = .ok e ∨ i ≤ base c'.state := by
  obtain ⟨H, hsafe, hseen, _⟩ := run_history run
  obtain ⟨H₁, F₁, hle, _, hi, _, h₁⟩ := hseen m hm n c hc
  obtain ⟨F₂, h₂⟩ := (hsafe.core hc').tracks
  -- Both logs are logs of the term's leader, the first in an earlier history.
  have hprefix := hle.led c.state.persistent.currentTerm
  rw [← (h₁.sound.role.leader hl).2.log, ht, ← (h₂.sound.role.leader hl').2.log] at hprefix
  refine ⟨?_, fun i e he => ?_⟩
  · rw [h₁.sound.full.lastIndex (hi.of_coherent h₁.sound.coherent),
      h₂.sound.full.lastIndex (hsafe.indexed.of_coherent h₂.sound.coherent)]
    exact hprefix.length_le
  · by_cases hbase : base c'.state < i
    · refine .inl (h₂.sound.full.entryAt.mpr ⟨hbase, ?_⟩)
      exact Replica.getElem?_of_isPrefix hprefix (h₁.sound.full.entryAt.mp he).2
    · exact .inr (by omega)

/-- The entry of node 1 is the same before and after it is committed. -/
theorem leader_append_only_replicated :
    ∃ moments s m c c' e, Run trio moments s ∧ m ∈ moments ∧ m.Shows 1 c ∧
      s.core? 1 = some c' ∧ c.state.volatileState.commitIndex = 0 ∧
      c'.state.volatileState.commitIndex = 1 ∧ entryAt c.state 1 = .ok e ∧
      entryAt c'.state 1 = .ok e := by
  obtain ⟨moments, s, run, h⟩ := @Run.of_play trio replicated
    (fun moments s => moments.any (fun (m : Moment) => (m.post.core? 1).any fun (c : Core) =>
        decide (c.state.role = .leader ∧ c.state.persistent.currentTerm = 1 ∧
          c.state.volatileState.commitIndex = 0 ∧ c.state.persistent.snapshot = none ∧
          c.state.persistent.log.length = 1)) &&
      (s.core? 1).any fun (c : Core) => decide (c.state.role = .leader ∧
        c.state.persistent.currentTerm = 1 ∧ c.state.volatileState.commitIndex = 1 ∧
        c.state.persistent.snapshot = none)) (by decide +kernel)
  obtain ⟨hfirst, hlater⟩ := Bool.and_eq_true_iff.mp h
  obtain ⟨m, hm, c, hc, hQ⟩ := exists_shows hfirst
  obtain ⟨c', hc', hQ'⟩ := (Option.any_eq_true _ _).mp hlater
  obtain ⟨hl, ht, hcommit, hsnap, hlen⟩ := of_decide_eq_true hQ
  obtain ⟨hl', ht', hcommit', hsnap'⟩ := of_decide_eq_true hQ'
  obtain ⟨e, he⟩ := List.length_eq_one_iff.mp hlen
  have hentry : entryAt c.state 1 = .ok e :=
    entryAt_eq_ok.mpr (by simp [base, hsnap, he])
  refine ⟨moments, s, m, c, c', e, run, hm, hc, hc', hcommit, hcommit', hentry, ?_⟩
  rcases (leader_append_only run hm hc hc' hl hl' (ht.trans ht'.symm)).2 1 e hentry with h | h
  · exact h
  · simp [base, hsnap'] at h

/-! ## Messages -/

/-- The entries of a request stand at their indexes in the log they are a segment of. -/
theorem getElem?_of_segment {G : List LogEntry} (hG : Figure2.Contiguous 1 G)
    {q : AppendEntriesRequest} (h : Replica.Segment G q) (he : e ∈ q.entries) :
    0 < e.index ∧ G[e.index - 1]? = some e := by
  obtain ⟨j, hj⟩ := mem_iff_getElem?.mp he
  have hget := h.getElem? hj
  have hindex := hG _ e hget
  refine ⟨by omega, ?_⟩
  rw [← hget]
  congr 1
  omega

/-- What the messages ever sent in a run say to each other. -/
structure OneVoice (network : List Envelope) : Prop where
  /-- A node grants its vote of a term to one candidate, also across its restarts. -/
  votes : ∀ x ∈ network, ∀ y ∈ network, ∀ q q', x.message = .requestVoteResponse q →
    y.message = .requestVoteResponse q' → x.source = y.source → q.term = q'.term →
    q.granted = true → q'.granted = true → x.dest = y.dest
  /-- One node replicates in a term, and it sends one entry for an index. -/
  entries : ∀ x ∈ network, ∀ y ∈ network, ∀ q q', x.message = .appendEntries q →
    y.message = .appendEntries q' → q.term = q'.term →
    x.source = y.source ∧ ∀ e ∈ q.entries, ∀ e' ∈ q'.entries, e.index = e'.index → e = e'
  /-- An entry announced as committed is the one that every later term sends for its index. -/
  committed : ∀ x ∈ network, ∀ y ∈ network, ∀ q q', x.message = .appendEntries q →
    y.message = .appendEntries q' → q.term < q'.term →
    ∀ e ∈ q.entries, ∀ e' ∈ q'.entries, e.index ≤ q.leaderCommit → e.index = e'.index → e = e'
  /-- Snapshots that end at one index, of whatever terms, end with an entry of one term. -/
  snapshots : ∀ x ∈ network, ∀ y ∈ network, ∀ q q', x.message = .installSnapshot q →
    y.message = .installSnapshot q' →
    q.metadata.lastIncludedIndex = q'.metadata.lastIncludedIndex →
    q.metadata.lastIncludedTerm = q'.metadata.lastIncludedTerm

/-- In every run, whatever is lost, repeated or reordered and whoever crashes, the messages speak
with one voice. -/
theorem messages_consistent (run : Run τ moments s) : OneVoice s.network := by
  obtain ⟨H, hsafe, _, _⟩ := run_history run
  have hv := hsafe.valid
  have hsent : ∀ x ∈ s.network, ∀ message, x.message = message →
      Replica.Sent H x.source x.dest message := fun x hx message h => h ▸ hsafe.network x hx
  refine ⟨fun x hx y hy q q' hq hq' hs ht hg hg' => ?_, fun x hx y hy q q' hq hq' ht => ?_,
    fun x hx y hy q q' hq hq' hlt e he e' he' hcommit hindex => ?_,
    fun x hx y hy q q' hq hq' hindex => ?_⟩
  · have hvote := hsent x hx _ hq hg
    rw [hs, ht, hsent y hy _ hq' hg'] at hvote
    exact (Option.some.inj hvote).symm
  · obtain ⟨hleader, hseg, _⟩ := hsent x hx _ hq
    obtain ⟨hleader', hseg', _⟩ := hsent y hy _ hq'
    rw [ht] at hleader hseg
    refine ⟨Option.some.inj (hleader.symm.trans hleader'), fun e he e' he' hindex => ?_⟩
    have hget := (getElem?_of_segment (hsafe.indexed _) hseg he).2
    rw [hindex, (getElem?_of_segment (hsafe.indexed _) hseg' he').2] at hget
    exact (Option.some.inj hget).symm
  · obtain ⟨_, hseg, hdecided⟩ := hsent x hx _ hq
    obtain ⟨hleader', hseg', _⟩ := hsent y hy _ hq'
    obtain ⟨hpos, hget⟩ := getElem?_of_segment (hsafe.indexed _) hseg he
    have hget' := (getElem?_of_segment (hsafe.indexed _) hseg' he').2
    -- the later leader started with everything decided in an earlier term
    have hprefix := (hdecided.prefix_start hv hlt (by rw [hleader']; exact some_ne_none _)).trans
      (hv.start_prefix _)
    have hkept := Replica.getElem?_of_isPrefix hprefix
      (i := e.index - 1) (by rw [getElem?_take_of_lt (by omega), hget])
    rw [hindex, hget'] at hkept
    exact (Option.some.inj hkept).symm
  · obtain ⟨_, hpos, ⟨e, he, hterm⟩, hdecided⟩ := hsent x hx _ hq
    obtain ⟨_, _, ⟨e', he', hterm'⟩, hdecided'⟩ := hsent y hy _ hq'
    rw [← hindex] at he' hdecided'
    have hagree := hdecided.decided.agree hv hdecided'.decided
    have hlt : q.metadata.lastIncludedIndex - 1 < q.metadata.lastIncludedIndex := by omega
    rw [← getElem?_take_of_lt hlt, hagree, getElem?_take_of_lt hlt, he'] at he
    rw [← hterm, ← hterm', Option.some.inj he]

/-- Node 2 has voted for node 1 in term 1, so it has voted for no other node in that term. -/
theorem messages_consistent_handedOver :
    ∃ moments s, Run trio moments s ∧ ⟨2, 1, .requestVoteResponse ⟨1, true⟩⟩ ∈ s.network ∧
      OneVoice s.network := by
  obtain ⟨moments, s, run, h⟩ := @Run.of_play trio handedOver
    (fun _ s => decide (⟨2, 1, .requestVoteResponse ⟨1, true⟩⟩ ∈ s.network)) (by decide +kernel)
  exact ⟨moments, s, run, of_decide_eq_true h, messages_consistent run⟩

/-! ## Outstanding requests -/

/-- **No completion is lost.** What a core waits for is outstanding at its host, and it is the
request that the completion with its identifier finds. -/
theorem awaited_outstanding (run : Run τ moments s) (hc : s.core? n = some c)
    {q : DurableRecord} (hq : c.Awaits q) :
    (s.hosts n).outstanding.find? (fun r => r.requestId = q.requestId) = some q := by
  obtain ⟨H, hsafe, _⟩ := run_history run
  obtain ⟨node, hnode, hcore⟩ := bind_eq_some_iff.mp hc
  have hmem := (((hsafe.hosts n).node node hnode).core c hcore).2 q hq
  exact (find?_key_eq_some (hsafe.hosts n).distinct).mpr ⟨hmem, rfl⟩

/-- Node 1 stands for election and waits for the write of its vote. -/
theorem awaited_outstanding_campaign :
    ∃ moments s, Run trio moments s ∧ ((s.hosts 1).outstanding.find? fun r => r.requestId = 1)
      = some ⟨1, .hardState ⟨1, some 1⟩⟩ := by
  obtain ⟨moments, s, run, h⟩ := @Run.of_play trio (replicated.take 4)
    (fun _ s => decide ((s.core? 1).map (fun c => c.state.pendingHardState.map (·.request))
      = some (some ⟨1, ⟨1, some 1⟩⟩))) (by decide +kernel)
  obtain ⟨c, hc, hp⟩ := map_eq_some_iff.mp (of_decide_eq_true h)
  obtain ⟨p, hp, hrequest⟩ := map_eq_some_iff.mp hp
  have hfind := awaited_outstanding run hc (.hardState hp)
  rw [hrequest] at hfind
  exact ⟨moments, s, run, hfind⟩

end

end KuraMetadata.Election
