import KuraMetadata.Raft.Replica.Applications

/-! # Snapshots and log writes on disk

A snapshot of the node's own log takes nothing away. A received snapshot becomes part of the
disk before the state machine has restored it: from that moment on the node's log is the
leader's up to the snapshot, unless it already held that much. -/

namespace KuraMetadata.Replica

open List Option

open Figure2 (base State Contiguous)
open Election (Core Effect Recovered Replaced PendingSnapshotPersistence PendingSnapshotRestore
  PendingLogPersistence OwnSnapshot compactedLog)
open Consensus (History QuorumSystem)

/-- The state `compact_to` leaves. -/
def compactState (s : State) (m : SnapshotMetadata) : State :=
  { s with
    persistent := { s.persistent with log := compactedLog s m, snapshot := some m }
    volatileState := {
      commitIndex := max s.volatileState.commitIndex m.lastIncludedIndex
      lastApplied := max s.volatileState.lastApplied m.lastIncludedIndex } }

section

variable {H : Hist} {𝒬 : QuorumSystem NodeId} {F : List LogEntry} {c : Core} {disk : Recovered}
variable {s : State} {m : SnapshotMetadata} {w : Option PersistRaftHardState} {n : NodeId} {T : Nat}
variable {effects : List Effect} {p : PendingSnapshotRestore} {e : LogEntry} {state : List UInt8}
variable {pending : PendingSnapshotPersistence} {snapshot : RaftSnapshot}

theorem Full.own_boundary (h : Full s F) (ho : OwnSnapshot s m) :
    ∃ e, F[m.lastIncludedIndex - 1]? = some e ∧ e.term = m.lastIncludedTerm := by
  obtain ⟨hlt, _, e, he, ht⟩ := ho
  rw [h.log, getElem?_drop,
    show base s + (m.lastIncludedIndex - base s - 1) = m.lastIncludedIndex - 1 by omega] at he
  exact ⟨e, he, ht⟩

theorem Full.compact (h : Full s F) (hlt : base s < m.lastIncludedIndex)
    (he : F[m.lastIncludedIndex - 1]? = some e) (ht : e.term = m.lastIncludedTerm) :
    Full (compactState s m) F := by
  have hlen := (List.getElem?_eq_some_iff.mp he).1
  have hlog : s.persistent.log[m.lastIncludedIndex - base s - 1]? = some e := by
    rw [h.log, getElem?_drop,
      show base s + (m.lastIncludedIndex - base s - 1) = m.lastIncludedIndex - 1 by omega, he]
  refine ⟨?_, ?_, fun m' hm' => ?_⟩
  · show m.lastIncludedIndex ≤ F.length
    omega
  · show compactedLog s m = F.drop m.lastIncludedIndex
    rw [Election.compactedLog_own hlt hlog ht, h.log, drop_drop]
    congr 1
    omega
  · cases hm'
    exact ⟨by omega, e, he, ht⟩

theorem Sound.compact_own (h : Sound H 𝒬 s F w) (ho : OwnSnapshot s m) :
    Sound H 𝒬 (compactState s m) F w := by
  obtain ⟨e, he, ht⟩ := h.full.own_boundary ho
  obtain ⟨hlt, hle, _⟩ := ho
  have hcommit : max s.volatileState.commitIndex m.lastIncludedIndex =
      s.volatileState.commitIndex := max_eq_left (hle.trans h.applied_le)
  have happlied : max s.volatileState.lastApplied m.lastIncludedIndex =
      s.volatileState.lastApplied := max_eq_left hle
  exact {
    full := h.full.compact hlt he ht
    coherent := h.coherent
    hard := { h.hard with }
    role := by
      refine ⟨fun hr => ⟨(h.role.leader hr).1, ?_⟩, fun hr => ?_⟩
      · have hl := (h.role.leader hr).2
        exact ⟨hl.vote, hl.leader, hl.log, hl.matched, hl.commit.trans (le_max_left _ _)⟩
      · have hc := h.role.candidate hr
        exact { hc with }
    commit := by
      rcases h.commit with hd | ⟨T, hT, hs⟩
      · refine .inl ?_
        show H.DecidedBy _ F (max _ _)
        rw [hcommit]
        exact hd
      · refine .inr ⟨T, hcommit.trans_le hT, ?_, hs.role, hs.campaign⟩
        show max _ _ = max _ _
        rw [hcommit, happlied]
        exact hs.applied
    base_le := le_max_right _ _
    applied_le := max_le_max h.applied_le le_rfl }

/-- The snapshot on disk is the one the state starts from. -/
theorem Tracks.snapshotIndex_eq (h : Tracks H 𝒬 c F) (hh : Holds c disk)
    (hr : c.pendingSnapshotRestore = none) : snapshotIndex disk = base c.state := by
  have := (hh.same hr).trans h.snapshot
  cases hd : disk.snapshot with
  | none =>
    rw [hd, map_none] at this
    simp [snapshotIndex, hd, base, ← this]
  | some d =>
    rw [hd, map_some] at this
    simp [snapshotIndex, hd, base, ← this]

/-- A snapshot of the node's own log reaches the disk. -/
theorem Stored.own_snapshot (h : Stored H n disk) (hbase : snapshotIndex disk < m.lastIncludedIndex)
    (he : (H.log n)[m.lastIncludedIndex - 1]? = some e) (ht : e.term = m.lastIncludedTerm)
    (hT : m.lastIncludedIndex ≤ H.commit T) :
    Stored H n { disk with snapshot := some ⟨m, state, crc32c state⟩ } where
  __ := h
  snapshot d hd := by
    cases hd
    exact ⟨by show 0 < m.lastIncludedIndex; omega, ⟨e, he, ht⟩, T, hT⟩
  log := by
    obtain ⟨E, b, hlog, hE, hb, hcase⟩ := h.log
    have hlen := (List.getElem?_eq_some_iff.mp he).1
    refine ⟨E, b, hlog, hE, hb.trans hbase.le, .inl ?_⟩
    rcases hcase with heq | ⟨hlast, _⟩
    · exact heq
    · omega

theorem Commit.exists_le {s : State} (h : Commit H 𝒬 s F w) :
    ∃ T, s.volatileState.commitIndex ≤ H.commit T := by
  rcases h with ⟨T, _, hT, _⟩ | ⟨T, hT, _⟩
  · exact ⟨T, hT⟩
  · exact ⟨T, hT⟩

theorem Tracks.persistedLocal (hv : H.Valid 𝒬) (hi : Indexed H) (h : Tracks H 𝒬 c F)
    (hst : Stored H c.state.node disk) (hh : Holds c disk)
    (hp : c.pendingSnapshot = some pending)
    (hl : pending.localCreation = true) (hm : snapshot.metadata = pending.request.snapshot.metadata)
    (ho : (({ c with pendingSnapshot := none } : Core).compactTo snapshot).Orderly)
    (he : ∀ e ∈ effects, e.message? = none) :
    Reached 𝒬 H H c.state.node (({ c with pendingSnapshot := none } : Core).compactTo snapshot)
      { disk with
        snapshot := some ⟨snapshot.metadata, snapshot.state, crc32c snapshot.state⟩ } effects := by
  have hu := h.orderly.unblocked_of_publishing hp
  have hlog : c.pendingLog = none := hu.log
  have hrest : c.pendingSnapshotRestore = none := hu.restore
  have hpub := h.publishing pending hp
  have hn := hpub.settled
  have hown := hpub.own hl
  rw [← hm] at hown
  obtain ⟨e, heF, hte⟩ := h.sound.full.own_boundary hown
  have hF : F = H.log c.state.node := (h.log hrest).clean (not_dirty hlog hn)
  obtain ⟨T, hT⟩ := h.sound.commit.exists_le
  have hidx : snapshot.metadata.lastIncludedIndex ≤ c.state.volatileState.lastApplied := hown.2.1
  refine .stay hv hi (F := F) ?_ ?_ ⟨fun _ => rfl, fun p hp => ?_⟩ he
  · exact {
      orderly := ho
      sound := h.sound.compact_own hown
      log := fun _ => .of_settled hlog hn hF
      waiting := fun p hp => (by cases hn.symm.trans hp)
      deferred := fun p hp => (by cases hlog.symm.trans hp)
      written := fun p hp => (by cases hlog.symm.trans hp)
      publishing := fun p hp => (by cases hp)
      restoring := fun p hp => (by cases hrest.symm.trans hp)
      install := h.install
      application := fun p hp => by
        obtain ⟨hsome, _⟩ := filter_eq_some_iff.mp hp
        obtain ⟨h₁, h₂, h₃⟩ := h.application p hsome
        show _ = max _ _ + 1 ∧ max _ _ < max _ _ ∧ F[max _ _]? = _
        rw [max_eq_left hidx, max_eq_left (hidx.trans h.sound.applied_le)]
        exact ⟨h₁, h₂, h₃⟩
      snapshot := rfl }
  · refine hst.own_snapshot ?_ (hF ▸ heF) hte ((hidx.trans h.sound.applied_le).trans hT)
    rw [h.snapshotIndex_eq hh hrest]
    exact hown.1
  · cases hrest.symm.trans hp

/-! ## A received snapshot on disk -/

/-- The log of a node once a snapshot of its leader is on disk. -/
theorem exists_install (hv : H.Valid 𝒬) (hi : Indexed H) (n : NodeId) (k : Nat) :
    ∃ H', Extends 𝒬 n H H' ∧ H'.term = H.term ∧ H'.vote = H.vote ∧ H'.led = H.led ∧
      H'.commit = H.commit ∧
      ((H'.log n = H.log n ∧ (H.led (H.term n)).take k <+: H.log n) ∨
        (H'.log n = (H.led (H.term n)).take k ∧
          ¬ (H.led (H.term n)).take k <+: H.log n)) := by
  by_cases hp : (H.led (H.term n)).take k <+: H.log n
  · exact ⟨H, ⟨hv, hi, .refl n H⟩, rfl, rfl, rfl, rfl, .inl ⟨rfl, hp⟩⟩
  · refine ⟨H.overwrite n k,
      ⟨History.overwrite_valid hv hp, hi, History.overwrite_local n _⟩,
      rfl, rfl, rfl, rfl, .inr ⟨?_, hp⟩⟩
    simp [History.overwrite]

theorem SnapshotOf.length_take (h : SnapshotOf H T m) :
    ((H.led T).take m.lastIncludedIndex).length = m.lastIncludedIndex := by
  rw [List.length_take, min_eq_left h.le_length]

theorem SnapshotOf.boundary_take (h : SnapshotOf H T m) :
    ∃ e, ((H.led T).take m.lastIncludedIndex)[m.lastIncludedIndex - 1]? = some e ∧
      e.term = m.lastIncludedTerm := by
  obtain ⟨e, he, ht⟩ := h.boundary
  have := h.pos
  exact ⟨e, by rw [getElem?_take_of_lt (by omega), he], ht⟩

theorem SnapshotOf.decided_take (h : SnapshotOf H T m) :
    H.Decided ((H.led T).take m.lastIncludedIndex) m.lastIncludedIndex := by
  obtain ⟨T₀, _, hk, hp⟩ := h.decided
  refine ⟨T₀, hk, ?_⟩
  have := hp.take m.lastIncludedIndex
  rwa [take_take, min_self] at this

/-- A received snapshot reaches the disk. -/
theorem Stored.received_snapshot {H' : Hist} (hv : H.Valid 𝒬) (hle : H.Le H')
    (hterm : H'.term = H.term) (hvote : H'.vote = H.vote)
    (hs : SnapshotOf H (H.term n) m) (h : Stored H n disk)
    (hidx : snapshotIndex disk < m.lastIncludedIndex)
    (hcase : (H'.log n = H.log n ∧ (H.led (H.term n)).take m.lastIncludedIndex <+: H.log n) ∨
      (H'.log n = (H.led (H.term n)).take m.lastIncludedIndex ∧
        ¬ (H.led (H.term n)).take m.lastIncludedIndex <+: H.log n)) :
    Stored H' n { disk with snapshot := some ⟨m, state, crc32c state⟩ } where
  hardState := by
    rw [hterm, hvote]
    exact h.hardState
  applied := by
    obtain ⟨T, hT⟩ := h.applied
    exact ⟨T, hT.trans (hle.commit T)⟩
  snapshot d hd := by
    cases hd
    obtain ⟨T₀, _, hk, _⟩ := hs.decided
    refine ⟨hs.pos, ?_, T₀, hk.trans (hle.commit T₀)⟩
    obtain ⟨e, he, ht⟩ := hs.boundary_take
    refine ⟨e, ?_, ht⟩
    rcases hcase with ⟨hlog, hp⟩ | ⟨hlog, _⟩
    · rw [hlog]
      exact getElem?_of_isPrefix hp he
    · rw [hlog]
      exact he
  log := by
    obtain ⟨E, b, hdisk, hE, hb, hold⟩ := h.log
    refine ⟨E, b, hdisk, hE.mono hle.led, hb.trans hidx.le, ?_⟩
    show E = H'.log n ∨ ((H'.log n).length = m.lastIncludedIndex ∧ b < m.lastIncludedIndex ∧
      ¬ H'.log n <+: E ∧ H'.Decided (H'.log n) m.lastIncludedIndex)
    rcases hcase with ⟨hlog, hp⟩ | ⟨hlog, hnot⟩ <;> rw [hlog]
    · -- The log already held the snapshot, so the log on disk does.
      refine hold.imp id fun ⟨hlast, _⟩ => ?_
      have := hp.length_le
      rw [hs.length_take] at this
      omega
    · refine .inr ⟨hs.length_take, hb.trans_lt hidx, fun hp => ?_, hs.decided_take.mono hv hle⟩
      rcases hold with rfl | ⟨hlast, _, hnot', hdec⟩
      · exact hnot hp
      · -- The older snapshot is a prefix of the new one, but not of the log on disk.
        have hagree := (hs.decided_take.of_le hidx.le).agree hv hdec
        rw [← hlast, take_length, take_take] at hagree
        refine hnot' (hagree ▸ List.IsPrefix.trans ?_ hp)
        exact take_prefix_take_left (min_le_right _ _)

theorem Tracks.persistedReceived (hv : H.Valid 𝒬) (hi : Indexed H) (h : Tracks H 𝒬 c F)
    (hst : Stored H c.state.node disk) (hh : Holds c disk)
    {id : Nat} {replyTo : NodeId} {response : InstallSnapshotResponse}
    (hp : c.pendingSnapshot = some pending) (hl : pending.localCreation = false)
    (hm : snapshot.metadata = pending.request.snapshot.metadata)
    (hr : pending.reply = some (replyTo, response)) (ho : ({ c with
      pendingSnapshot := none
      pendingSnapshotRestore := some ⟨id, snapshot, replyTo, response⟩ } : Core).Orderly)
    (he : ∀ e ∈ effects, e.message? = none) :
    ∃ H', Reached 𝒬 H H' c.state.node
      { c with
        pendingSnapshot := none
        pendingSnapshotRestore := some ⟨id, snapshot, replyTo, response⟩ }
      { disk with
        snapshot := some ⟨snapshot.metadata, snapshot.state, crc32c snapshot.state⟩ } effects := by
  have hu := h.orderly.unblocked_of_publishing hp
  have hlog : c.pendingLog = none := hu.log
  have hrest : c.pendingSnapshotRestore = none := hu.restore
  have hpub := h.publishing pending hp
  have hn := hpub.settled
  obtain ⟨hfol, hof, happlied, hreply⟩ := hpub.received hl
  obtain ⟨hrt, hri⟩ := hreply _ hr
  rw [← hm] at hof happlied hri
  have hF : F = H.log c.state.node := (h.log hrest).clean (not_dirty hlog hn)
  have hsound := h.sound
  rw [Tracks.writeOf_eq hn] at hsound
  obtain ⟨hterm, hvote⟩ := hsound.hard.settled rfl
  have hof' := hof
  rw [← hterm] at hof'
  -- on disk the snapshot replaces a log that does not hold its last entry
  obtain ⟨H', hext, ht', hv', hled, hcommit, hcase⟩ :=
    exists_install hv hi c.state.node snapshot.metadata.lastIncludedIndex
  have hle := hext.locally.toLe
  have hsound' : Sound H' 𝒬 c.state F none := by
    refine ⟨hsound.full, hsound.coherent.mono hle.led, .of_settled ?_,
      ⟨fun hr => (by cases hfol.symm.trans hr), fun hr => (by cases hfol.symm.trans hr)⟩, ?_,
      hsound.base_le, hsound.applied_le⟩
    · rw [ht', hv']
      exact ⟨hterm, hvote⟩
    · refine hsound.commit.imp (fun hd => hd.mono hv hle) fun ⟨T, hT, hs⟩ => ?_
      exact ⟨T, hT.trans (hle.commit T), hs.applied, hs.role,
        fun hr => (by cases hfol.symm.trans hr)⟩
  refine ⟨H', hext, ⟨F, ?_⟩, ?_, ⟨fun hr => (by cases hr), fun p hp => ?_⟩,
    fun e hmem dest m hm => ?_⟩
  · exact {
      orderly := ho
      sound := by
        show Sound H' 𝒬 c.state F (writeOf c.state)
        rw [Tracks.writeOf_eq hn]
        exact hsound'
      log := fun hr => (by cases hr)
      waiting := fun p hp => (by cases hn.symm.trans hp)
      deferred := fun p hp => (by cases hlog.symm.trans hp)
      written := fun p hp => (by cases hlog.symm.trans hp)
      publishing := fun p hp => (by cases hp)
      restoring := fun p hp => by
        cases hp
        refine ⟨hn, hfol, hof.mono hv hle, happlied, hrt, hri, ?_⟩
        show (F = H'.log c.state.node ∧ _) ∨ (H'.log c.state.node = _ ∧ _)
        rw [hled, ← hterm, hF]
        rcases hcase with ⟨hsame, hp⟩ | ⟨hnew, hnot⟩
        · exact .inl ⟨hsame.symm, hp⟩
        · exact .inr ⟨hnew, hnew ▸ hnot⟩
      install := fun x hx => (h.install x hx).mono hv hle
      application := h.application
      snapshot := h.snapshot }
  · refine hst.received_snapshot hv hle ht' hv' hof' ?_ hcase
    rw [h.snapshotIndex_eq hh hrest]
    exact h.sound.base_le.trans_lt happlied
  · cases hp
    rfl
  · rw [he e hmem] at hm
    cases hm

/-! ## The restored snapshot -/

/-- A log that already holds the received snapshot, or one that it replaces. -/
theorem Restoring.full (hv : H.Valid 𝒬) (h : Sound H 𝒬 s F none) (hp : Restoring H s F p) :
    Full (compactState s p.snapshot.metadata) (H.log s.node) ∧
      (H.led s.persistent.currentTerm).take p.snapshot.metadata.lastIncludedIndex <+:
        H.log s.node := by
  have hlt : base s < p.snapshot.metadata.lastIncludedIndex := h.base_le.trans_lt hp.applied
  obtain ⟨e, he, ht⟩ := hp.snapshot.boundary_take
  rcases hp.log with ⟨hF, hpre⟩ | ⟨hlog, hnot⟩
  · rw [← hF]
    exact ⟨h.full.compact hlt (getElem?_of_isPrefix hpre he) ht, hpre⟩
  · rw [hlog]
    refine ⟨⟨?_, ?_, fun m' hm' => ?_⟩, prefix_refl _⟩
    · show p.snapshot.metadata.lastIncludedIndex ≤ _
      rw [hp.snapshot.length_take]
    · show compactedLog s p.snapshot.metadata = List.drop p.snapshot.metadata.lastIncludedIndex _
      rw [drop_eq_nil_of_le (by rw [hp.snapshot.length_take])]
      rcases Election.compactedLog_cases s p.snapshot.metadata with
        hnil | ⟨hbase, _⟩ | ⟨_, ⟨e', he', ht'⟩, _⟩
      · exact hnil
      · omega
      · -- An entry of the boundary's term would make the log hold the snapshot.
        rw [h.full.log, getElem?_drop, show base s +
          (p.snapshot.metadata.lastIncludedIndex - base s - 1) =
          p.snapshot.metadata.lastIncludedIndex - 1 by omega] at he'
        obtain ⟨e'', he'', ht''⟩ := hp.snapshot.boundary
        have := h.coherent.take_eq (hv.coherent_led _) he' he'' (ht'.trans ht''.symm)
        rw [Nat.sub_add_cancel hp.snapshot.pos] at this
        rw [hlog, ← this] at hnot
        exact absurd (List.take_prefix _ _) hnot
    · cases hm'
      exact ⟨hp.snapshot.pos, e, he, ht⟩

/-- What is committed after the restore is a prefix of the log on disk. -/
theorem Restoring.decided (hv : H.Valid 𝒬) (h : Sound H 𝒬 s F none) (hp : Restoring H s F p)
    (hpre : (H.led s.persistent.currentTerm).take p.snapshot.metadata.lastIncludedIndex <+:
      H.log s.node) :
    H.DecidedBy s.persistent.currentTerm (H.log s.node)
      (max s.volatileState.commitIndex p.snapshot.metadata.lastIncludedIndex) := by
  have hsnap : H.DecidedBy s.persistent.currentTerm (H.log s.node)
      p.snapshot.metadata.lastIncludedIndex := by
    refine hp.snapshot.decided.of_take_eq hv ?_
    have := List.prefix_iff_eq_take.mp hpre
    rw [hp.snapshot.length_take] at this
    exact this.symm
  rcases le_total s.volatileState.commitIndex p.snapshot.metadata.lastIncludedIndex with hle | hle
  · rw [max_eq_right hle]
    exact hsnap
  · rw [max_eq_left hle]
    have hdec := h.decided_of_lt (hp.applied.trans_le hle)
    rcases hp.log with ⟨hF, _⟩ | ⟨hlog, hnot⟩
    · rw [← hF]
      exact hdec
    · -- Both are decided up to the snapshot, so the log would hold it.
      have hagree := (hdec.decided.of_le hle).agree hv hp.snapshot.decided_take
      rw [take_take, min_self] at hagree
      rw [hlog, ← hagree] at hnot
      exact absurd (List.take_prefix _ _) hnot

theorem Tracks.restored (hv : H.Valid 𝒬) (hi : Indexed H) (h : Tracks H 𝒬 c F)
    (hst : Stored H c.state.node disk) (hh : Holds c disk) (hp : c.pendingSnapshotRestore = some p)
    (ho : (({ c with pendingSnapshotRestore := none } : Core).compactTo p.snapshot).Orderly) :
    ∃ H', Reached 𝒬 H H' c.state.node
      (({ c with pendingSnapshotRestore := none } : Core).compactTo p.snapshot) disk
      [.truncateRaftLogPrefix p.snapshot.metadata.lastIncludedIndex,
        .sendInstallSnapshotResponse p.replyTo p.response] := by
  have hu := h.orderly.unblocked_of_restoring hp
  have hlog : c.pendingLog = none := hu.log
  have hpub : c.pendingSnapshot = none := hu.snapshot
  have hr := h.restoring p hp
  have hn := hr.settled
  have hsound := h.sound
  rw [Tracks.writeOf_eq hn] at hsound
  obtain ⟨hfull, hpre⟩ := hr.full hv hsound
  have hw : writeOf (compactState c.state p.snapshot.metadata) = none := by
    show c.state.pendingHardState.map _ = none
    rw [hn]
    rfl
  have htr : Tracks H 𝒬 (({ c with pendingSnapshotRestore := none } : Core).compactTo p.snapshot)
      (H.log c.state.node) := {
    orderly := ho
    sound := by
      show Sound H 𝒬 (compactState c.state p.snapshot.metadata) (H.log c.state.node)
        (writeOf (compactState c.state p.snapshot.metadata))
      rw [hw]
      have hfol : (compactState c.state p.snapshot.metadata).role = .follower := hr.role
      exact {
        full := hfull
        coherent := hv.coherent_log _
        hard := .of_settled (hsound.hard.settled rfl)
        role := ⟨fun hl => (by cases hfol.symm.trans hl), fun hc => (by cases hfol.symm.trans hc)⟩
        commit := .inl (hr.decided hv hsound hpre)
        base_le := le_max_right _ _
        applied_le := max_le_max hsound.applied_le le_rfl }
    log := fun _ => .of_settled hlog hn rfl
    waiting := fun q hq => (by cases hn.symm.trans hq)
    deferred := fun q hq => (by cases hlog.symm.trans hq)
    written := fun q hq => (by cases hlog.symm.trans hq)
    publishing := fun q hq => (by cases hpub.symm.trans hq)
    restoring := fun q hq => (by cases hq)
    install := h.install
    application := fun q hq => by
      -- The entry being applied lies below the snapshot.
      obtain ⟨hsome, hlt⟩ := filter_eq_some_iff.mp hq
      have hindex := (h.application q hsome).1
      have happlied := hr.applied
      simp only [decide_eq_true_eq] at hlt
      omega
    snapshot := rfl }
  have hidle : (({ c with pendingSnapshotRestore := none } : Core).compactTo p.snapshot).Idle :=
    ⟨⟨hlog, hpub, rfl⟩, hn⟩
  refine ⟨_, Reached.say (e := .sendInstallSnapshotResponse p.replyTo p.response) hv hi htr hst
    ⟨fun _ => hh.ahead p hp, fun q hq => (by cases hq)⟩ hidle ?_ ⟨hr.term, fun _ => ?_⟩⟩
  · intro e he
    simp only [mem_cons, not_mem_nil, or_false] at he
    exact he.imp (fun h => by rw [h]; rfl) id
  · rw [hr.term, hr.index]
    exact ⟨hr.snapshot.le_length, hpre⟩

/-! ## A completed log write -/

theorem Stored.log_write {H' : Hist} (hle : H.Le H') (hterm : H'.term = H.term)
    (hvote : H'.vote = H.vote) (h : Stored H n disk) (hF : H'.log n = F) (hcoh : H'.Coherent F)
    (hsnap : ∀ d, disk.snapshot = some d → ∃ e, F[d.metadata.lastIncludedIndex - 1]? = some e ∧
      e.term = d.metadata.lastIncludedTerm) {log : List LogEntry}
    (hlog : log = F.drop (snapshotIndex disk)) : Stored H' n { disk with log := log } where
  hardState := by
    rw [hterm, hvote]
    exact h.hardState
  applied := by
    obtain ⟨T, hT⟩ := h.applied
    exact ⟨T, hT.trans (hle.commit T)⟩
  snapshot d hd := by
    obtain ⟨hpos, _, T, hT⟩ := h.snapshot d hd
    rw [hF]
    exact ⟨hpos, hsnap d hd, T, hT.trans (hle.commit T)⟩
  log := ⟨F, snapshotIndex disk, hlog, hcoh, le_rfl, .inl hF.symm⟩

theorem Tracks.logPersisted (hv : H.Valid 𝒬) (hi : Indexed H) (h : Tracks H 𝒬 c F)
    (hst : Stored H c.state.node disk) (hh : Holds c disk) {pending : PendingLogPersistence}
    (hp : c.pendingLog = some pending) {c₁ : Core}
    (hs : ({ c with pendingLog := none } : Core).Alike c₁)
    (he : Replaced { c with pendingLog := none } pending.deferredEffects effects) :
    ∃ H', Reached 𝒬 H H' c.state.node c₁ { disk with log := pending.request.log } effects := by
  obtain ⟨hn, hpub, hrest⟩ := h.orderly.writing pending hp
  have hsound := h.sound
  rw [Tracks.writeOf_eq hn] at hsound
  obtain ⟨hterm, hvote⟩ := hsound.hard.settled rfl
  obtain ⟨hpre, hnot⟩ := (h.log hrest).ahead (.inl (by rw [hp]; rfl))
  rw [← hterm] at hpre
  have htake : (H.led (H.term c.state.node)).take F.length = F :=
    (List.prefix_iff_eq_take.mp hpre).symm
  -- the completed write is the rule `overwrite` with the leader's log up to the length of `F`
  have hval := History.overwrite_valid hv (htake.symm ▸ hnot)
  have hle : H.Le (H.overwrite c.state.node F.length) := History.overwrite_le _ _
  have hnew : (H.overwrite c.state.node F.length).log c.state.node = F := by
    simp [History.overwrite, htake]
  have hcand : c.state.role ≠ .candidate := by
    intro hr
    rw [(hsound.role.candidate hr).log] at hnot
    exact hnot (prefix_refl _)
  have hsound' : Sound (H.overwrite c.state.node F.length) 𝒬 c.state F none := by
    refine ⟨hsound.full, hsound.coherent, .of_settled ⟨hterm, hvote⟩,
      ⟨fun hr => ⟨rfl, ?_⟩, fun hr => absurd hr hcand⟩, ?_, hsound.base_le, hsound.applied_le⟩
    · have hl := (hsound.role.leader hr).2
      exact { hl with }
    · exact hsound.commit.imp (fun hd => hd) fun ⟨T, hT, hs⟩ =>
        ⟨T, hT, hs.applied, hs.role, fun hr => absurd hr hcand⟩
  have htr₀ : Tracks (H.overwrite c.state.node F.length) 𝒬 { c with pendingLog := none } F := {
    orderly := by
      have ho' := h.orderly
      exact ⟨ho'.peers, ho'.contiguous, ho'.held, ho'.install, fun p hp => (by cases hp),
        ho'.exclusive⟩
    sound := by
      show Sound _ 𝒬 c.state F (writeOf c.state)
      rw [Tracks.writeOf_eq hn]
      exact hsound'
    log := fun _ => .of_settled rfl hn hnew.symm
    waiting := fun q hq => (by cases hn.symm.trans hq)
    deferred := fun q hq => (by cases hq)
    written := fun q hq => (by cases hq)
    publishing := fun q hq => (by cases hpub.symm.trans hq)
    restoring := fun q hq => (by cases hrest.symm.trans hq)
    install := fun x hx => (h.install x hx).mono hv hle
    application := h.application
    snapshot := h.snapshot }
  have htr := htr₀.of_alike hs
  have hstate : c₁.state = c.state := hs.state
  have hidle : c₁.Idle := ⟨⟨hs.pendingLog, hs.pendingSnapshot.trans hpub,
    hs.pendingSnapshotRestore.trans hrest⟩, by rw [hstate]; exact hn⟩
  have hext : Extends 𝒬 c.state.node H (H.overwrite c.state.node F.length) :=
    ⟨hval, hi, History.overwrite_local _ _⟩
  have hindex := h.snapshotIndex_eq hh hrest
  refine ⟨_, hext.settle, ⟨F, htr.settle hval _⟩, Stored.settle hval ?_ _, ?_, ?_⟩
  · refine hst.log_write hle rfl rfl hnew hsound.coherent (fun d hd => ?_) ?_
    · have hmeta := (hh.same hrest).trans h.snapshot
      rw [hd, map_some] at hmeta
      exact (hsound.full.boundary _ hmeta.symm).2
    · rw [h.written pending hp, hsound.full.log, hindex]
  · refine ⟨fun _ => ?_,
      fun q hq => (by cases (hs.pendingSnapshotRestore.trans hrest).symm.trans hq)⟩
    rw [show c₁.durableSnapshot = c.durableSnapshot from hs.durableSnapshot]
    exact hh.same hrest
  · intro e hmem dest m hm
    have hb : Backed (H.overwrite c.state.node F.length) c₁.state F e := by
      rw [hstate]
      rcases he.from_effects e hmem with hmem | ⟨dest', append, q, _, hinst, rfl⟩
      · exact (h.deferred pending hp e hmem).mono hv hle
      · exact htr₀.installs hinst dest'
    have := htr.sent hval hidle hb hm
    rw [hstate] at this
    exact this

end

end KuraMetadata.Replica
