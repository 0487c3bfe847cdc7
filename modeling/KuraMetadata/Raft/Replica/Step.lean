import KuraMetadata.Raft.Replica.Snapshots
import KuraMetadata.Raft.Cluster

/-! # A step of a core

Every move of a core keeps what the history says about it (`Move.reached`), so a whole step
does (`Tracks.step`): the history grows by rules of the node, and every message of the step is
true. -/

namespace KuraMetadata.Replica

open List

open Figure2 (State base Contiguous Dirty)
open Election (Core Effect Input Record Recovered Move Moves Incoming StepResult withContext
  OwnSnapshot Recovery SimulationConfig DurableRecord logAfterSnapshot)
open Consensus (History QuorumSystem)

variable {result : StepResult} {d : RaftSnapshot} {a : Recovery} {r r' disk : Recovered}
variable {𝒬 : QuorumSystem NodeId}

/-- What a node may rely on when it handles an input: messages were sent, and only completions
arrive while it waits for its disk. -/
structure Offered (H : Hist) (n : NodeId) (c : Core) (input : Input) : Prop where
  heard : ∀ sender m, input = .ofMessage sender m → Sent H sender n m
  early : c.installsEarly input = false
  own : ∀ q, input = .createRaftSnapshot q → c.state.pendingHardState = none
  waiting : ∀ x, c.installAfterHardState = some x → Sent H x.1 n (.installSnapshot x.2)

section

variable {H : Hist} {F : List LogEntry} {origin c c' : Core} {input : Input} {effects : List Effect}
variable {records : List Record} {n : NodeId}

theorem Offered.mono {H' : Hist} (hv : H.Valid 𝒬) (hle : H.Le H') (h : Offered H n c input) :
    Offered H' n c input where
  heard sender m hm := (h.heard sender m hm).mono hv hle
  __ := h
  waiting x hx := (h.waiting x hx).mono hv hle

theorem Offered.incoming (h : Offered H n origin input) {sender : NodeId}
    {request : InstallSnapshotRequest} (hi : Incoming origin input sender request) :
    Sent H sender n (.installSnapshot request) := by
  rcases hi with hi | ⟨_, hi⟩
  · exact h.heard sender (.installSnapshot request) hi
  · exact h.waiting _ hi

theorem Offered.settled (h : Offered H n origin input)
    (hh : c.state.pendingHardState = none ∨ origin.installsEarly input = true) :
    c.state.pendingHardState = none := by
  rcases hh with hh | hh
  · exact hh
  · rw [h.early] at hh
    cases hh

theorem Offered.delivered (h : Offered H n origin input) {event : Figure2.Event}
    (hi : input.Causes event) : Delivered H n event := by
  intro sender m hm
  cases hi with
  | requestVote | requestVoteResponse | appendEntries | appendEntriesResponse =>
    cases hm
    exact h.heard _ _ rfl
  | installed _ response hs =>
    cases hm
    exact fun _ => h.heard _ (.installSnapshotResponse response) rfl hs
  | _ => cases hm

theorem sent_of_context {dest : NodeId} {m : Message} {context : Option Nat} {e : Effect}
    (hsent : ∀ dest m, e.message? = some (dest, m) → Sent H n dest m)
    (hm : (withContext context e).message? = some (dest, m)) : Sent H n dest m := by
  cases context with
  | none => exact hsent dest m hm
  | some context =>
    cases e with
    | sendAppendEntries _ request =>
      cases hm
      obtain ⟨hl, hseg, hd⟩ := hsent dest _ rfl
      exact ⟨hl, ⟨hseg.previous_le, hseg.previous, hseg.entries⟩, hd⟩
    | sendInstallSnapshot _ request =>
      cases hm
      exact hsent dest (.installSnapshot request) rfl
    | _ => exact hsent dest m hm

theorem Reached.context {H' : Hist} (context : Option Nat) (h : Reached 𝒬 H H' n c disk effects) :
    Reached 𝒬 H H' n c disk (effects.map (withContext context)) where
  __ := h
  sent e he dest m hm := by
    obtain ⟨e₀, he₀, rfl⟩ := mem_map.mp he
    exact sent_of_context (h.sent e₀ he₀) hm

theorem message?_of_minor {e : Effect} (h : e.minor = true) : e.message? = none := by
  cases e <;> first | rfl | cases h

theorem Tracks.own_snapshot (h : Tracks H 𝒬 c F) {index : Nat} (h0 : index ≠ 0)
    (ha : index = c.state.volatileState.lastApplied) {snapshot : RaftSnapshot}
    (hd : ∀ d, c.durableSnapshot = some d → d.metadata.lastIncludedIndex < index)
    (hindex : snapshot.metadata.lastIncludedIndex = index)
    (hterm : Election.snapshotTerm c.state index = .ok snapshot.metadata.lastIncludedTerm) :
    OwnSnapshot c.state snapshot.metadata := by
  subst hindex
  refine Election.ownSnapshot_of_term (s := c.state) ?_ ha.le hterm
  rw [Figure2.base, ← h.snapshot]
  cases hds : c.durableSnapshot with
  | none => exact Nat.pos_of_ne_zero h0
  | some d => exact hd d hds

/-- **Every move is a sequence of rules of its node.** -/
theorem Move.reached (hv : H.Valid 𝒬) (hi : Indexed H) (hq : Quorate 𝒬 c.state)
    (h : Tracks H 𝒬 c F) (hst : Stored H c.state.node disk) (hh : Holds c disk)
    (ho : Offered H c.state.node origin input)
    (hm : Move origin input c c' effects records) :
    ∃ H', Reached 𝒬 H H' c.state.node c' (absorbAll disk records) effects := by
  have hord := h.orderly.move hm
  cases hm with
  | tidy hs he =>
    exact ⟨H, .stay hv hi (h.of_alike hs) hst (hh.of_alike hs)
      fun e hmem => message?_of_minor (he e hmem)⟩
  | @event event result _ _ _ context hu hin hstep ht =>
    obtain ⟨H', hr⟩ := h.handle hv hi hq hst hh hu hin.ne_apply hin.not_completion
      (ho.delivered hin) hstep (x := c.installAfterHardState) ht hord h.install
    exact ⟨H', hr.context context⟩
  | defer hu hin _ _ _ hstep ht =>
    refine h.handle hv hi hq hst hh hu (by simp) rfl ?_ hstep ht hord fun y hy => ?_
    · intro _ _ hm
      cases hm
    · cases hy
      exact ho.incoming hin
  | release hu _ hstep ht =>
    refine h.release hv hi hst hh hu hstep ht (fun y hy => ?_) hord
    split at hy
    · exact ht.same.installAfterHardState.symm.trans hy
    · cases hy
  | respond hu hin hh' ht hs =>
    exact h.respond hv hi hst hh ⟨hu, ho.settled hh'⟩ (ho.incoming hin) ht hs
  | @follow sender _ _ _ _ hu _ hh' _ _ _ ht =>
    exact h.follow hv hi hst hh hu (ho.settled hh') sender ht hord
  | publishReceived hu hin hh' _ hf ht _ _ _ ha =>
    obtain ⟨_, hof⟩ := ho.incoming hin
    rw [ht] at hof
    refine ⟨H, .stay hv hi (h.publish hu ⟨ho.settled hh', fun hl => (by cases hl), fun _ => ?_⟩)
      hst ⟨hh.same, hh.ahead⟩ (by simp [Effect.message?])⟩
    exact ⟨hf, hof, ha, fun x hx => by cases hx; exact ⟨rfl, rfl⟩⟩
  | publishLocal hu hin horigin h0 ha hd hindex hterm =>
    have hown : OwnSnapshot c.state _ := h.own_snapshot h0 ha hd hindex hterm
    refine ⟨H, .stay hv hi (h.publish hu ⟨?_, fun _ => hown, fun hl => (by cases hl)⟩) hst
      ⟨hh.same, hh.ahead⟩ (by simp [Effect.message?])⟩
    rw [horigin]
    exact ho.own _ hin
  | persistedLocal hin hp _ hl hm _ =>
    exact ⟨H, h.persistedLocal hv hi hst hh hp hl hm hord (by simp [Effect.message?])⟩
  | persistedReceived hin hp _ hl hm _ hr =>
    exact h.persistedReceived hv hi hst hh hp hl hm hr hord (by simp [Effect.message?])
  | restored _ hp _ _ => exact h.restored hv hi hst hh hp hord
  | applied _ hsnap hrest hp _ hx hl =>
    obtain ⟨hindex, hlt, _⟩ := h.application _ hp
    obtain ⟨T, hT⟩ := h.sound.commit.exists_le
    refine ⟨H, .stay hv hi (h.applied hsnap hrest hp hx hl hord) ?_ ⟨hh.same, hh.ahead⟩ (by simp)⟩
    refine hst.applied_marker (T := T) (le_trans ?_ hT)
    omega
  | @applyFailed _ _ pending _ hp | @retry pending _ hp =>
    obtain ⟨hindex, hlt, he⟩ := h.application pending hp
    exact ⟨H, .stay hv hi (h.apply hord hindex hlt he) hst ⟨hh.same, hh.ahead⟩
      (by simp [Effect.message?])⟩
  | logPersisted _ hp hs he => exact h.logPersisted hv hi hst hh hp hs he
  | schedule _ _ hlt he =>
    obtain ⟨hindex, hF⟩ := h.next_entry hi he
    exact ⟨H, .stay hv hi (h.apply hord hindex hlt hF) hst ⟨hh.same, hh.ahead⟩
      (by simp [Effect.message?])⟩

theorem Quorate.congr {s s' : State} (h : Quorate 𝒬 s) (hn : s'.node = s.node)
    (hp : s'.peers = s.peers) : Quorate 𝒬 s' := by
  intro Q hQ hcard
  rw [hn, hp] at hQ
  refine h Q hQ ?_
  rwa [Figure2.majority, hp] at hcard

theorem Reached.trans {H₁ H₂ : Hist} {disk₁ : Recovered} {effects' : List Effect}
    (h : Reached 𝒬 H H₁ n c disk effects) (h' : Reached 𝒬 H₁ H₂ n c' disk₁ effects') :
    Reached 𝒬 H H₂ n c' disk₁ (effects ++ effects') where
  toExtends := h.toExtends.trans h'.toExtends
  tracks := h'.tracks
  stored := h'.stored
  holds := h'.holds
  sent e he dest m hm := by
    rcases mem_append.mp he with he | he
    · exact (h.sent e he dest m hm).mono h.valid h'.locally.toLe
    · exact h'.sent e he dest m hm

theorem Moves.reached (hv : H.Valid 𝒬) (hi : Indexed H) (hq : Quorate 𝒬 c.state)
    (h : Tracks H 𝒬 c F) (hst : Stored H c.state.node disk) (hh : Holds c disk)
    (ho : Offered H c.state.node origin input)
    (hm : Moves origin input c c' effects records) :
    (c'.state.node = c.state.node ∧ c'.state.peers = c.state.peers) ∧
      ∃ H', Reached 𝒬 H H' c.state.node c' (absorbAll disk records) effects := by
  induction hm with
  | refl => exact ⟨⟨rfl, rfl⟩, H, .stay hv hi h hst hh (by simp)⟩
  | @tail c₁ c₂ effects effects' records records' _ hm ih =>
    obtain ⟨⟨hn, hp⟩, H₁, hr⟩ := ih
    obtain ⟨F₁, ht⟩ := hr.tracks
    obtain ⟨hn', hp'⟩ := ht.orderly.move_members hm
    have hst₁ := hr.stored
    have ho₁ := ho.mono hv hr.locally.toLe
    rw [← hn] at hst₁ ho₁
    obtain ⟨H₂, hr₂⟩ := Move.reached hr.valid hr.indexed (hq.congr hn hp) ht hst₁ hr.holds ho₁ hm
    rw [hn] at hr₂
    refine ⟨⟨hn'.trans hn, hp'.trans hp⟩, H₂, ?_⟩
    rw [absorbAll, foldl_append]
    exact hr.trans hr₂

/-- **A step of a core is a sequence of rules of its node.** -/
theorem Tracks.step (hv : H.Valid 𝒬) (hi : Indexed H)
    (hq : Quorate 𝒬 c.state) (h : Tracks H 𝒬 c F) (hst : Stored H c.state.node disk)
    (hh : Holds c disk) (ho : Offered H c.state.node c input)
    (hs : c.step input = .ok (c', result)) :
    (c'.state.node = c.state.node ∧ c'.state.peers = c.state.peers) ∧
      ∃ H', Reached 𝒬 H H' c.state.node c' (absorbAll disk input.records) result.effects :=
  Moves.reached hv hi hq h hst hh ho (Election.Core.step_moves h.orderly hs)

end

/-! ## Restarting from a disk

A disk the history describes gives a core the history describes: the constructor of `Core`
finds the whole log of the node in the snapshot and the log image, whichever of the two is the
older one. -/

section

variable {H : Hist} {n : NodeId}

theorem snapshotIndex_none (h : disk.snapshot = none) : snapshotIndex disk = 0 := by
  simp [snapshotIndex, h]

theorem snapshotIndex_some (h : disk.snapshot = some d) :
    snapshotIndex disk = d.metadata.lastIncludedIndex := by
  simp [snapshotIndex, h]

theorem Stored.snapshotIndex_le (h : Stored H n disk) : snapshotIndex disk ≤ (H.log n).length := by
  cases hd : disk.snapshot with
  | none =>
    rw [snapshotIndex_none hd]
    exact Nat.zero_le _
  | some d =>
    obtain ⟨hpos, ⟨e, he, _⟩, _⟩ := h.snapshot d hd
    have := (List.getElem?_eq_some_iff.mp he).1
    rw [snapshotIndex_some hd]
    omega

theorem Stored.log_of_none (h : Stored H n disk) (hd : disk.snapshot = none) :
    disk.log = H.log n := by
  obtain ⟨E, b, hlog, _, hb, hcase⟩ := h.log
  rw [snapshotIndex_none hd] at hb hcase
  obtain rfl : b = 0 := by omega
  rcases hcase with rfl | ⟨_, hlt, _⟩
  · rw [hlog, drop_zero]
  · omega

/-- Behind a snapshot the constructor finds the rest of the log. -/
theorem Stored.log_after (hv : H.Valid 𝒬) (hi : Indexed H) (h : Stored H n disk)
    (hd : disk.snapshot = some d) {log : List LogEntry}
    (hlog : logAfterSnapshot disk.log d.metadata = .ok log) :
    log = (H.log n).drop d.metadata.lastIncludedIndex := by
  obtain ⟨E, b, himage, hE, hb, hcase⟩ := h.log
  obtain ⟨hpos, ⟨last, hlast, hterm⟩, _⟩ := h.snapshot d hd
  have hlen := h.snapshotIndex_le
  have hindexed := hi.of_coherent hE
  rw [snapshotIndex_some hd] at hb hcase hlen
  rcases Election.logAfterSnapshot_eq_ok hlog with
    ⟨before, entry, hsplit, _, hindex, ht⟩ | ⟨rfl, _, hfront⟩
  · -- The image has the last entry of the snapshot.
    have hget : E[b + before.length]? = some entry := by
      rw [← getElem?_drop, ← himage, hsplit]
      simp
    have hposition : b + before.length + 1 = d.metadata.lastIncludedIndex := by
      have := hindexed _ _ hget
      omega
    have hdrop : log = E.drop d.metadata.lastIncludedIndex := by
      rw [← hposition, Nat.add_assoc, ← drop_drop, ← himage, hsplit,
        ← drop_drop, drop_left, drop_one, tail_cons]
    rcases hcase with rfl | ⟨hend, _, hold, _⟩
    · exact hdrop
    · -- An older image would have the same entries up to there.
      refine absurd ?_ hold
      rw [show b + before.length = d.metadata.lastIncludedIndex - 1 by omega] at hget
      have heq := hE.take_eq (hv.coherent_log n) hget hlast (ht.trans hterm.symm)
      rw [Nat.sub_add_cancel hpos, ← hend, take_length] at heq
      rw [← heq]
      exact List.take_prefix _ _
  · -- The image starts after the snapshot, or is empty.
    rcases Nat.lt_or_ge b E.length with hlt | hge
    · have hhead : disk.log.head? = some (E.get ⟨b, hlt⟩) := by
        rw [himage, head?_drop]
        simp
      have hnext := hfront _ hhead
      have := hindexed b _ (getElem?_eq_getElem hlt)
      have hbase : b = d.metadata.lastIncludedIndex := by
        simp only [get_eq_getElem] at hnext
        omega
      rcases hcase with rfl | ⟨_, hlt', _⟩
      · rw [himage, hbase]
      · omega
    · rw [himage, drop_eq_nil_of_le hge, drop_eq_nil_of_le]
      rcases hcase with rfl | ⟨hend, _⟩
      · omega
      · exact hend.le

/-- The state the constructor recovers has the whole log of its node. -/
theorem Stored.full (hv : H.Valid 𝒬) (hi : Indexed H) (h : Stored H n disk)
    (hlog : a.recoveredLog = disk.log) (hsnap : a.recoveredSnapshot = disk.snapshot) {s : State}
    (hs : Election.recoverState a = .ok s) :
    base s = snapshotIndex disk ∧ Full s (H.log n) := by
  obtain ⟨_, _, _, _, _, hmeta, _, _, hnone, hsome⟩ := Election.recoverState_eq_ok hs
  rw [hsnap] at hmeta hnone hsome
  rw [hlog] at hnone hsome
  have hbase : base s = snapshotIndex disk := by
    rw [base, hmeta]
    cases hd : disk.snapshot with
    | none | some d => simp [snapshotIndex, hd]
  refine ⟨hbase, ?_, ?_, ?_⟩
  · rw [hbase]
    exact h.snapshotIndex_le
  · rw [hbase]
    cases hd : disk.snapshot with
    | none =>
      rw [snapshotIndex_none hd, drop_zero, (hnone hd).1]
      exact h.log_of_none hd
    | some d =>
      rw [snapshotIndex_some hd]
      exact h.log_after hv hi hd (hsome d hd).1
  · intro m hm
    rw [hmeta] at hm
    obtain ⟨d, hd, rfl⟩ := Option.map_eq_some_iff.mp hm
    exact ⟨(h.snapshot d hd).1, (h.snapshot d hd).2.1⟩

/-- What a restarted node takes for applied was committed. -/
theorem Stored.applied_le (h : Stored H n disk)
    (happlied : a.recoveredApplied = disk.applied) (hsnap : a.recoveredSnapshot = disk.snapshot)
    {s : State} (hs : Election.recoverState a = .ok s) :
    snapshotIndex disk ≤ s.volatileState.lastApplied ∧
      ∃ T, s.volatileState.lastApplied ≤ H.commit T := by
  obtain ⟨_, _, _, _, _, _, _, _, hnone, hsome⟩ := Election.recoverState_eq_ok hs
  rw [hsnap, happlied] at hnone hsome
  obtain ⟨T, hT⟩ := h.applied
  cases hd : disk.snapshot with
  | none =>
    rw [(hnone hd).2, snapshotIndex_none hd]
    exact ⟨Nat.zero_le _, T, hT⟩
  | some d =>
    obtain ⟨_, _, T', hT'⟩ := h.snapshot d hd
    rw [(hsome d hd).2, snapshotIndex_some hd]
    refine ⟨le_max_right _ _, ?_⟩
    rcases max_cases disk.applied d.metadata.lastIncludedIndex with ⟨he, _⟩ | ⟨he, _⟩
    · exact ⟨T, he.le.trans hT⟩
    · exact ⟨T', he.le.trans hT'⟩

/-- **A node that restarts is described by the history.** -/
theorem Stored.restart (hv : H.Valid 𝒬) (hi : Indexed H) (h : Stored H n disk)
    {config : SimulationConfig} {peers : List NodeId} {c₀ c : Core}
    (hmake : Core.make (config.recovery n peers disk) = .ok c₀)
    (hstart : c₀.start = .ok (c, result)) :
    Tracks H 𝒬 c (H.log n) ∧ Holds c disk ∧ c.state.node = n ∧ c.state.peers = peers := by
  have horderly := Election.Core.orderly_of_make hmake hstart
  obtain ⟨_, hrec, _, hlog, happ, hsnap, hrest, hinst, hdurable⟩ := Election.Core.make_eq_ok hmake
  obtain ⟨hsame, _⟩ := Election.Core.start_eq_ok hstart
  obtain ⟨hnode, hpeers, hrole, hterm, hvote, hmeta, hpend, hcommit, _⟩ :=
    Election.recoverState_eq_ok hrec
  obtain ⟨hbase, hfull⟩ := h.full hv hi (a := config.recovery n peers disk) rfl rfl hrec
  obtain ⟨hbase_le, T, hT⟩ := h.applied_le (a := config.recovery n peers disk) rfl rfl hrec
  have hstate : c.state = c₀.state := hsame.state
  have hdur : c.durableSnapshot = disk.snapshot := hsame.durableSnapshot.trans hdurable
  rw [← hstate] at hnode hpeers hrole hterm hvote hmeta hpend hcommit hbase hfull hbase_le hT
  have hrestore : c.pendingSnapshotRestore = none := hsame.pendingSnapshotRestore.trans hrest
  have hterm' : c.state.persistent.currentTerm = H.term n :=
    hterm.trans (congrArg RaftHardState.currentTerm h.hardState)
  have hvote' : c.state.persistent.votedFor = H.vote n (H.term n) :=
    hvote.trans (congrArg RaftHardState.votedFor h.hardState)
  have hnode' : c.state.node = n := hnode
  have hwrite : writeOf c.state = none := by rw [writeOf, hpend, Option.map_none]
  -- a restarted node is a follower with nothing outstanding
  have hfollower : c.state.role ≠ .leader ∧ c.state.role ≠ .candidate := by
    rw [hrole]
    exact ⟨by decide, by decide⟩
  refine ⟨?_, ⟨fun _ => by rw [hdur], fun p hp => ?_⟩, hnode, hpeers⟩
  · exact {
      orderly := horderly
      sound := {
        full := hfull
        coherent := hv.coherent_log n
        hard := by
          rw [hwrite]
          refine .of_settled ?_
          rw [hnode', hterm']
          exact ⟨rfl, hvote'.symm⟩
        role := ⟨fun hr => absurd hr hfollower.1, fun hr => absurd hr hfollower.2⟩
        commit := .inr ⟨T, hcommit ▸ hT, hcommit.symm, hfollower.1,
          fun hr => absurd hr hfollower.2⟩
        base_le := hbase ▸ hbase_le
        applied_le := hcommit.ge }
      log := fun _ => .of_settled (hsame.pendingLog.trans hlog) hpend (by rw [hnode'])
      waiting := fun p hp => by cases hpend.symm.trans hp
      deferred := fun p hp => by cases (hsame.pendingLog.trans hlog).symm.trans hp
      written := fun p hp => by cases (hsame.pendingLog.trans hlog).symm.trans hp
      publishing := fun p hp => by cases (hsame.pendingSnapshot.trans hsnap).symm.trans hp
      restoring := fun p hp => by cases hrestore.symm.trans hp
      install := fun x hx => by cases (hsame.installAfterHardState.trans hinst).symm.trans hx
      application := fun p hp => by cases (hsame.pendingApplication.trans happ).symm.trans hp
      snapshot := by rw [hdur, hmeta]; rfl }
  · rw [hrestore] at hp
    cases hp

end

/-! ## Reading the records of a disk -/

theorem read_eq_ok {record : Record} (h : r.read record = .ok r') : r' = absorb r record := by
  cases record with
  | hardState state =>
    simp only [Recovered.read, Except.bind_eq_ok, Except.pure_eq_ok] at h
    obtain ⟨_, _, rfl⟩ := h
    rfl
  | log log =>
    cases h
    rfl
  | applied index | snapshot metadata state =>
    simp only [Recovered.read, Except.ite_error_eq_ok] at h
    cases h.2
    rfl

/-- The records of a disk add up to what they leave on it one after the other. -/
theorem readAll_eq_ok {records : List DurableRecord}
    (h : r.readAll records = .ok r') : r' = absorbAll r (records.map DurableRecord.record) := by
  induction records generalizing r with
  | nil =>
    cases h
    rfl
  | cons record rest ih =>
    simp only [Recovered.readAll, Except.bind_eq_ok] at h
    obtain ⟨r₁, hr₁, h⟩ := h
    rw [ih h, read_eq_ok hr₁]
    rfl

theorem Stored.empty (n : NodeId) : Stored (History.empty : Hist) n {} where
  hardState := rfl
  applied := ⟨0, le_rfl⟩
  snapshot _ hd := by cases hd
  log := ⟨[], 0, rfl, fun _ _ he => (by cases he), le_rfl, .inl rfl⟩

end KuraMetadata.Replica
