import KuraMetadata.Raft.Replica.Moves

/-! # Moves that write nothing but a marker

Bookkeeping, following a leader, answering or publishing a snapshot, and the application of
committed entries. The history stays as it is, up to acknowledgements. -/

namespace KuraMetadata.Replica

open Figure2 (base State Contiguous Ungated LogFirst)
open Election (Core Effect Recovered Translated Incoming PendingApplication OwnSnapshot
  ClientAnswered appliedState)
open Consensus (History QuorumSystem)

section

variable {H : Hist} {𝒬 : QuorumSystem NodeId} {F : List LogEntry} {c c₁ : Core} {disk : Recovered}
variable {effects : List Effect} {s : State} {w : Option PersistRaftHardState}
variable {leader : Option Figure2.LeaderState} {index : Nat}

theorem Tracks.of_alike (h : Tracks H 𝒬 c F) (hs : c.Alike c₁) : Tracks H 𝒬 c₁ F where
  orderly := h.orderly.of_alike hs
  sound := by rw [hs.state]; exact h.sound
  log := by rw [hs.state, hs.pendingLog, hs.pendingSnapshotRestore]; exact h.log
  waiting := by rw [hs.state]; exact h.waiting
  deferred := by rw [hs.state, hs.pendingLog]; exact h.deferred
  written := by rw [hs.state, hs.pendingLog]; exact h.written
  publishing := by rw [hs.state, hs.pendingSnapshot]; exact h.publishing
  restoring := by rw [hs.state, hs.pendingSnapshotRestore]; exact h.restoring
  install := by rw [hs.state, hs.installAfterHardState]; exact h.install
  application := by rw [hs.state, hs.pendingApplication]; exact h.application
  snapshot := by rw [hs.state, hs.durableSnapshot]; exact h.snapshot

theorem Holds.of_alike (h : Holds c disk) (hs : c.Alike c₁) : Holds c₁ disk where
  same := by rw [hs.pendingSnapshotRestore, hs.durableSnapshot]; exact h.same
  ahead := by rw [hs.pendingSnapshotRestore]; exact h.ahead

theorem Reached.stay (hv : H.Valid 𝒬) (hi : Indexed H) {n : NodeId}
    (h : Tracks H 𝒬 c F) (hst : Stored H n disk) (hh : Holds c disk)
    (he : ∀ e ∈ effects, e.message? = none) : Reached 𝒬 H H n c disk effects where
  valid := hv
  indexed := hi
  locally := .refl n H
  tracks := ⟨F, h⟩
  stored := hst
  holds := hh
  sent e hmem dest m hm := by
    rw [he e hmem] at hm
    cases hm

theorem Reached.say {e : Effect} (hv : H.Valid 𝒬) (hi : Indexed H) (h : Tracks H 𝒬 c F)
    (hst : Stored H c.state.node disk) (hh : Holds c disk) (hidle : c.Idle)
    (heff : ∀ e' ∈ effects, e'.message? = none ∨ e' = e)
    (hb : Backed H c.state F e) :
    Reached 𝒬 H (H.settle c.state.node) c.state.node c disk effects where
  toExtends := Extends.settle ⟨hv, hi, .refl _ H⟩
  tracks := ⟨F, h.settle hv _⟩
  stored := hst.settle hv _
  holds := hh
  sent e' hmem dest m hm := by
    rcases heff e' hmem with hnone | rfl
    · rw [hnone] at hm
      cases hm
    · exact h.sent hv hidle hb hm

/-! ## Snapshot messages -/

/-- The receiver of a snapshot follows its sender. -/
theorem Tracks.follow (hv : H.Valid 𝒬) (hi : Indexed H) (h : Tracks H 𝒬 c F)
    (hst : Stored H c.state.node disk) (hh : Holds c disk) (hu : c.Unblocked)
    (hn : c.state.pendingHardState = none) (sender : NodeId)
    {visible : List Figure2.Effect}
    (ht : Translated c ⟨Figure2.following c.state sender, [], [.resetElectionTimer]⟩
      c.state.role c₁ visible effects) (ho : c₁.Orderly) :
    ∃ H', Reached 𝒬 H H' c.state.node c₁ disk effects := by
  have hsound := h.sound
  rw [Tracks.writeOf_eq hn] at hsound
  have hstage : Stage H 𝒬 (Figure2.following c.state sender) F [.resetElectionTimer] := by
    refine .of_quiet (hsound.following sender (by simp)) (h.log_eq hu hn) (by simp [Ungated])
      (by simp) fun f hf e he => ?_
    rw [List.mem_singleton.mp hf] at he
    cases he
  have hpassed : Passed ⟨Figure2.following c.state sender, [], [.resetElectionTimer]⟩
      ⟨Figure2.following c.state sender, [], [.resetElectionTimer]⟩ :=
    .through rfl (by simp [Ungated]) hn
  have hinstall : c₁.installAfterHardState = c.installAfterHardState :=
    ht.same.installAfterHardState
  have htr : Tracks H 𝒬 { c₁ with installAfterHardState := c₁.installAfterHardState } F := by
    refine hstage.tracks (r := ⟨_, [], [.resetElectionTimer]⟩) hpassed hu ht ho ?_ h.application
      h.snapshot
    rw [hinstall]
    exact h.install
  have hnode : c₁.state.node = c.state.node := by
    rw [show c₁.state = Figure2.following c.state sender from ht.same.state]
    rfl
  exact hstage.reached (r := ⟨_, [], [.resetElectionTimer]⟩) ⟨hv, hi, .refl _ H⟩
    (.of_not_mem (by simp)) hpassed hu ht htr hnode hst hh

/-- A node that has the snapshot a leader sends has the leader's log up to it. -/
theorem Tracks.covers (hv : H.Valid 𝒬) (h : Tracks H 𝒬 c F) {d : RaftSnapshot} {T : Nat}
    (hd : c.durableSnapshot = some d) (hs : SnapshotOf H T d.metadata) :
    d.metadata.lastIncludedIndex ≤ (H.led T).length ∧
      (H.led T).take d.metadata.lastIncludedIndex <+: F := by
  refine ⟨hs.le_length, ?_⟩
  have hsnap := h.snapshot
  rw [hd, Option.map_some] at hsnap
  obtain ⟨hpos, e, he, ht⟩ := h.sound.full.boundary _ hsnap.symm
  obtain ⟨e', he', ht'⟩ := hs.boundary
  have := h.sound.coherent.take_eq (hv.coherent_led T) he he' (ht.trans ht'.symm)
  rw [Nat.sub_add_cancel hpos] at this
  rw [← this]
  exact List.take_prefix _ _

/-- An answer to a snapshot message that changes nothing. -/
theorem Tracks.respond (hv : H.Valid 𝒬) (hi : Indexed H) (h : Tracks H 𝒬 c F)
    (hst : Stored H c.state.node disk) (hh : Holds c disk) (hidle : c.Idle)
    {sender : NodeId} {request : InstallSnapshotRequest} {response : InstallSnapshotResponse}
    (hsent : Sent H sender c.state.node (.installSnapshot request))
    (ht : response.term = c.state.persistent.currentTerm)
    (hs : response.succeeded = true → request.term = c.state.persistent.currentTerm ∧
      ∃ d, c.durableSnapshot = some d ∧ request.metadata = d.metadata ∧
        response.lastIncludedIndex = d.metadata.lastIncludedIndex) :
    ∃ H', Reached 𝒬 H H' c.state.node c disk
      [.sendInstallSnapshotResponse sender response] := by
  refine ⟨_, Reached.say (e := .sendInstallSnapshotResponse sender response) hv hi h hst hh hidle
    (fun e he => .inr (List.mem_singleton.mp he)) ⟨ht, fun hsucc => ?_⟩⟩
  obtain ⟨hterm, d, hd, hmeta, hindex⟩ := hs hsucc
  have hof := hsent.2
  rw [hmeta, hterm, ← ht] at hof
  rw [hindex]
  exact h.covers hv hd hof

theorem Tracks.publish (h : Tracks H 𝒬 c F) (hu : c.Unblocked) {snapshot : RaftSnapshot}
    {reply : Option (NodeId × InstallSnapshotResponse)} {localCreation : Bool}
    (hp : Publishing H c.state ⟨⟨c.nextSnapshotRequestId, snapshot⟩, reply, localCreation⟩) :
    Tracks H 𝒬 (c.publishing snapshot reply localCreation) F where
  orderly := h.orderly.publishing hu _ _ _
  __ := h
  publishing p hp' := by
    cases hp'
    exact hp

/-! ## Applications -/

/-- As long as something remains to be applied, the commit index is covered by the log. -/
theorem Sound.decided_of_lt (h : Sound H 𝒬 s F w)
    (hlt : s.volatileState.lastApplied < s.volatileState.commitIndex) :
    H.DecidedBy s.persistent.currentTerm F s.volatileState.commitIndex := by
  rcases h.commit with h | ⟨_, _, hs⟩
  · exact h
  · exact absurd hs.applied hlt.ne

theorem Sound.applied (h : Sound H 𝒬 s F w)
    (hlt : s.volatileState.lastApplied < s.volatileState.commitIndex)
    (hl : ClientAnswered s.leader leader (s.volatileState.lastApplied + 1)) :
    Sound H 𝒬 (appliedState s (s.volatileState.lastApplied + 1) leader) F w where
  full := h.full.congr rfl rfl
  coherent := h.coherent
  hard := { h.hard with }
  role := by
    refine ⟨fun hr => ⟨(h.role.leader hr).1, ?_⟩, fun hr => ?_⟩
    · have hlead := (h.role.leader hr).2
      refine ⟨hlead.vote, hlead.leader, hlead.log, fun l hl' => ?_, hlead.commit⟩
      have hl' : leader = some l := hl'
      rcases hl with hsame | ⟨l₀, hsome, hnew⟩
      · exact hlead.matched l (hsame.symm.trans hl')
      · cases hnew.symm.trans hl'
        exact hlead.matched l₀ hsome
    · have hc := h.role.candidate hr
      exact { hc with }
  commit := .inl (h.decided_of_lt hlt)
  base_le := h.base_le.trans (Nat.le_succ _)
  applied_le := hlt

theorem Backed.applied {e : Effect} (h : Backed H s F e) (index : Nat)
    (leader : Option Figure2.LeaderState) : Backed H (appliedState s index leader) F e := by
  cases e <;> exact h

theorem Tracks.applied (h : Tracks H 𝒬 c F) (hsnap : c.pendingSnapshot = none)
    (hrest : c.pendingSnapshotRestore = none) {pending : PendingApplication}
    (hp : c.pendingApplication = some pending)
    (hx : pending.request.entry.index = index)
    (hl : ClientAnswered c.state.leader leader index)
    (ho : ({ c with state := appliedState c.state index leader
                    pendingApplication := none } : Core).Orderly) :
    Tracks H 𝒬 { c with state := appliedState c.state index leader
                        pendingApplication := none } F := by
  obtain ⟨hindex, hlt, _⟩ := h.application pending hp
  rw [hindex] at hx
  subst hx
  exact {
    orderly := ho
    sound := h.sound.applied hlt hl
    log := fun hr => ⟨(h.log hr).clean, (h.log hr).ahead⟩
    waiting := fun p hp f hf e he => (h.waiting p hp f hf e he).applied _ _
    deferred := fun p hp e he => (h.deferred p hp e he).applied _ _
    __ := h
    publishing := fun p hp => (by cases hsnap.symm.trans hp)
    restoring := fun p hp => (by cases hrest.symm.trans hp)
    application := fun p hp => (by cases hp)
    snapshot := h.snapshot }

/-- The marker of an application reaches the disk. -/
theorem Stored.applied_marker {n : NodeId} (h : Stored H n disk) {T : Nat}
    (hT : index ≤ H.commit T) : Stored H n { disk with applied := index } where
  __ := h
  applied := ⟨T, hT⟩

/-- A core that differs only in its application, which is the next entry. -/
theorem Tracks.apply (h : Tracks H 𝒬 c F) {request : ApplyLogEntry} {blocked : Bool} {id : Nat}
    (ho : ({ c with nextApplicationRequestId := id
                    pendingApplication := some ⟨request, blocked⟩ } : Core).Orderly)
    (hindex : request.entry.index = c.state.volatileState.lastApplied + 1)
    (hlt : c.state.volatileState.lastApplied < c.state.volatileState.commitIndex)
    (he : F[c.state.volatileState.lastApplied]? = some request.entry) :
    Tracks H 𝒬 { c with nextApplicationRequestId := id
                        pendingApplication := some ⟨request, blocked⟩ } F where
  orderly := ho
  __ := h
  application p hp := by
    cases hp
    exact ⟨hindex, hlt, he⟩

/-- The next entry of a core, as its whole log has it. -/
theorem Tracks.next_entry (hi : Indexed H) (h : Tracks H 𝒬 c F) {entry : LogEntry}
    (he : Figure2.entryAt c.state (c.state.volatileState.lastApplied + 1) = .ok entry) :
    entry.index = c.state.volatileState.lastApplied + 1 ∧
      F[c.state.volatileState.lastApplied]? = some entry := by
  obtain ⟨_, hF⟩ := h.sound.full.entryAt.mp he
  rw [Nat.add_sub_cancel] at hF
  have := hi.of_coherent h.sound.coherent _ entry hF
  exact ⟨by omega, hF⟩

end

end KuraMetadata.Replica
