import KuraMetadata.Raft.Replica.Outcomes

/-! # The gates

Between a handler and the core stand the two gates. What a `Stage` says about the effects of a
handler becomes, behind the gates, what `Tracks` says about the waiting effects; a message gets
through only when nothing is left to write, and then the node acknowledges all it can
(`History.settle`), which makes the message true. -/

namespace KuraMetadata.Replica

open Figure2 (base State Ungated LogFirst Dirty Gated Kept Outcome)
open Election (Core Effect Translated LogGate FromEffects Emitted Installs direct? Input Record
  Recovered Move Incoming withContext OwnSnapshot PendingSnapshotPersistence
  PendingSnapshotRestore)
open Consensus (History QuorumSystem)

variable {e : Effect} {𝒬 : QuorumSystem NodeId} {x : Option (NodeId × InstallSnapshotRequest)}
variable {F : List LogEntry} {w : Option PersistRaftHardState} {visible : List Figure2.Effect}
variable {q : PersistRaftHardState} {s : State} {previous : RaftRole} {H : Hist}

/-! ## The hard-state gate -/

/-- How the hard-state gate treats a result. -/
inductive Passed (r result : Figure2.StepResult) : Prop where
  | through (h : result = r) (hu : Ungated r.effects) (hn : r.state.pendingHardState = none)
  | cut {q : PersistRaftHardState} {rest : List Figure2.Effect}
      (he : r.effects = .persistRaftHardState q :: rest)
      (h : result = ⟨{ r.state with pendingHardState := some ⟨q, rest⟩ }, r.rules,
        [.persistRaftHardState q]⟩)

theorem Sound.pending (h : Sound H 𝒬 s F w) (p : Option Figure2.PendingHardStatePersistence) :
    Sound H 𝒬 { s with pendingHardState := p } F w where
  full := h.full.congr rfl rfl
  __ := h
  hard := { h.hard with }
  role :=
    ⟨fun hr => ⟨(h.role.leader hr).1, by
        have hl := (h.role.leader hr).2
        exact { hl with }⟩,
      fun hr => by
        have hc := h.role.candidate hr
        exact { hc with }⟩
  commit := h.commit.imp_right fun ⟨T, hle, hs⟩ => ⟨T, hle, hs.applied, hs.role, hs.campaign⟩

theorem Backed.pending (h : Backed H s F e) (p : Option Figure2.PendingHardStatePersistence) :
    Backed H { s with pendingHardState := p } F e := by
  cases e <;> exact h

theorem backed_of_bookkeeping (h : e.bookkeeping = true) : Backed H s F e := by
  cases e <;> first | exact trivial | cases h

theorem backed_from {l : List Figure2.Effect} {s' : State}
    (hb : ∀ f ∈ l, ∀ e, direct? f = some e → Backed H s F e)
    (h : FromEffects s' l e) : Backed H s F e := by
  rcases h with h | ⟨f, hf, h⟩ | ⟨_, id, rfl⟩
  · exact backed_of_bookkeeping h
  · exact hb f hf e h
  · exact trivial

/-! ## Behind the gates -/

section

variable {c c₁ : Core} {r result : Figure2.StepResult} {effects : List Effect}

/-- The part of `Tracks` that concerns the two gates. -/
structure Behind (H : Hist) (𝒬 : QuorumSystem NodeId) (c : Core) (F : List LogEntry) : Prop where
  sound : Sound H 𝒬 c.state F (writeOf c.state)
  log : LogState H c.state F (c.pendingLog.isSome ∨ Dirty c.state)
  waiting : ∀ p, c.state.pendingHardState = some p → ∀ f ∈ p.deferredEffects,
    ∀ e, direct? f = some e → Backed H c.state F e
  deferred : ∀ p, c.pendingLog = some p → ∀ e ∈ p.deferredEffects, Backed H c.state F e

theorem Stage.behind_through (hst : Stage H 𝒬 r.state F r.effects) (hun : Ungated r.effects)
    (hn : r.state.pendingHardState = none) (hu : c.Unblocked) (hs : c₁.state = r.state)
    (hg : LogGate c c₁ r.effects visible) : Behind H 𝒬 c₁ F := by
  have hclean : ¬ Dirty c₁.state := by
    rintro ⟨p, hp, _⟩
    rw [hs, hn] at hp
    cases hp
  refine ⟨?_, ?_, ?_, ?_⟩
  · have hw : writeOf c₁.state = firstWrite r.effects := by
      rw [writeOf, hs, hn, firstWrite_of_ungated hun]
      rfl
    rw [hw, hs]
    exact hst.sound
  · cases hg with
    | through hnot hl =>
      rw [hl, hu.log]
      exact .of_clean (hs ▸ hst.log.clean hnot) (by simpa using hclean)
    | cut he _ _ hl =>
      have hmem : .persistState ∈ r.effects := by simp [he]
      rw [hl]
      exact ⟨fun hn => absurd (by simp) hn, fun _ => hs ▸ hst.log.ahead hmem⟩
  · intro p hp
    rw [hs, hn] at hp
    cases hp
  · intro p hp e hmem
    cases hg with
    | through _ hl =>
      rw [hl, hu.log] at hp
      cases hp
    | cut he _ _ hl _ hfrom =>
      rw [hl] at hp
      cases hp
      rw [hs]
      exact backed_from (fun f hf => hst.backed f (by simp [he, hf])) (hfrom e hmem)

theorem Stage.behind_cut {rest : List Figure2.Effect}
    (hst : Stage H 𝒬 r.state F r.effects) (he : r.effects = .persistRaftHardState q :: rest)
    (hl : c₁.pendingLog = none)
    (hs : c₁.state = { r.state with pendingHardState := some ⟨q, rest⟩ }) : Behind H 𝒬 c₁ F := by
  have hpend : c₁.state.pendingHardState = some ⟨q, rest⟩ := by rw [hs]
  have hdirty : Dirty c₁.state ↔ .persistState ∈ r.effects := by
    rw [he]
    constructor
    · rintro ⟨p, hp, hmem⟩
      rw [hpend] at hp
      cases hp
      exact List.mem_cons_of_mem _ hmem
    · intro hmem
      rcases List.mem_cons.mp hmem with hmem | hmem
      · cases hmem
      · exact ⟨_, hpend, hmem⟩
  refine ⟨?_, ?_, ?_, ?_⟩
  · have hw : writeOf c₁.state = firstWrite r.effects := by
      rw [writeOf, hpend, he]
      rfl
    rw [hw, hs]
    exact hst.sound.pending _
  · rw [hl, hs]
    rw [hs] at hdirty
    simp only [Option.isSome_none, Bool.false_eq_true, false_or, hdirty]
    exact ⟨hst.log.clean, hst.log.ahead⟩
  · intro p hp f hf e hd
    rw [hpend] at hp
    cases hp
    rw [hs]
    exact (hst.backed f (by rw [he]; exact List.mem_cons_of_mem _ hf) e hd).pending _
  · intro p hp
    rw [hl] at hp
    cases hp

theorem not_persistState_write (q : PersistRaftHardState) :
    (.persistState : Figure2.Effect) ∉ [.persistRaftHardState q] := by
  simp

theorem Stage.behind (hst : Stage H 𝒬 r.state F r.effects) (hp : Passed r result)
    (hu : c.Unblocked) (ht : Translated c result previous c₁ visible effects) :
    Behind H 𝒬 c₁ F := by
  have hs : c₁.state = result.state := ht.same.state
  cases hp with
  | through h hun hn =>
    subst h
    exact hst.behind_through hun hn hu hs ht.gate
  | @cut q rest he h =>
    subst h
    refine hst.behind_cut he ?_ hs
    cases ht.gate with
    | through _ hl => exact hl.trans hu.log
    | cut he' =>
      have he' : [Figure2.Effect.persistRaftHardState q] = visible ++ _ := he'
      exact absurd (by rw [he']; simp) (not_persistState_write q)

theorem Passed.frame (hp : Passed r result) :
    result.state.volatileState = r.state.volatileState ∧ result.state.node = r.state.node ∧
      result.state.persistent = r.state.persistent := by
  cases hp with
  | through h | cut _ h => rw [h]; exact ⟨rfl, rfl, rfl⟩

/-- What a handler leaves behind the gates is tracked by the history. -/
theorem Stage.tracks (hst : Stage H 𝒬 r.state F r.effects) (hp : Passed r result)
    (hu : c.Unblocked) (ht : Translated c result previous c₁ visible effects)
    (ho : ({ c₁ with installAfterHardState := x } : Core).Orderly)
    (hx : ∀ y, x = some y → Sent H y.1 r.state.node (.installSnapshot y.2))
    (happ : ∀ p, c.pendingApplication = some p →
      p.request.entry.index = r.state.volatileState.lastApplied + 1 ∧
        r.state.volatileState.lastApplied < r.state.volatileState.commitIndex ∧
        F[r.state.volatileState.lastApplied]? = some p.request.entry)
    (hsnap : c.durableSnapshot.map RaftSnapshot.metadata = r.state.persistent.snapshot) :
    Tracks H 𝒬 { c₁ with installAfterHardState := x } F := by
  have hstate : c₁.state = result.state := ht.same.state
  have hpub : c₁.pendingSnapshot = none := ht.same.pendingSnapshot.trans hu.snapshot
  have hrest : c₁.pendingSnapshotRestore = none := ht.same.pendingSnapshotRestore.trans hu.restore
  obtain ⟨hvol, hnode, hper⟩ := hp.frame
  rw [← hstate] at hvol hnode hper
  have hb := hst.behind hp hu ht
  exact {
    orderly := ho
    sound := hb.sound
    log := fun _ => hb.log
    waiting := hb.waiting
    deferred := hb.deferred
    written := fun p hp => by
      cases ht.gate with
      | through _ hl =>
        have : c₁.pendingLog = some p := hp
        rw [hl, hu.log] at this
        cases this
      | cut _ _ _ hl hlog =>
        have : c₁.pendingLog = some p := hp
        rw [hl] at this
        cases this
        exact hlog
    publishing := fun p hp => (by cases hpub.symm.trans hp)
    restoring := fun p hp => (by cases hrest.symm.trans hp)
    install := fun y hy => hnode ▸ hx y hy
    application := fun p hp => hvol ▸ happ p (ht.same.pendingApplication.symm.trans hp)
    snapshot := by
      show c₁.durableSnapshot.map RaftSnapshot.metadata = c₁.state.persistent.snapshot
      rw [ht.same.durableSnapshot, hper]
      exact hsnap }

/-! ## Messages -/

theorem Tracks.installs (ht : Tracks H 𝒬 c F) {append : AppendEntriesRequest}
    {q : InstallSnapshotRequest} (h : Installs c append q) (dest : NodeId) :
    Sent H c.state.node dest (.installSnapshot q) := by
  obtain ⟨hr, ⟨snapshot, hd, hmeta, _⟩, hterm, _, _⟩ := h
  have hlead := (ht.sound.role.leader hr).2
  have hsnap := ht.snapshot
  rw [hd, Option.map_some] at hsnap
  have hbase : base c.state = snapshot.metadata.lastIncludedIndex := by
    rw [base, ← hsnap]
  obtain ⟨hpos, e, he, hte⟩ := ht.sound.full.boundary _ hsnap.symm
  refine ⟨by rw [hterm]; exact hlead.leader, ?_⟩
  rw [hmeta, hterm]
  refine ⟨hpos, ⟨e, by rw [← hlead.log]; exact he, hte⟩, ?_⟩
  rw [← hlead.log]
  refine (ht.sound.decided hr).of_le le_rfl ?_
  rw [← hbase]
  exact ht.sound.base_le.trans ht.sound.applied_le

/-- With nothing left to write, what is backed can be said. -/
theorem Tracks.sent (ht : Tracks H 𝒬 c F) (hv : H.Valid 𝒬) (hidle : c.Idle)
    (hb : Backed H c.state F e) {dest : NodeId} {m : Message}
    (hm : e.message? = some (dest, m)) :
    Sent (H.settle c.state.node) c.state.node dest m := by
  have hw : writeOf c.state = none := by rw [writeOf, hidle.hardState]; rfl
  obtain ⟨hterm, hvote⟩ := ht.sound.hard.settled hw
  have hlog : F = H.log c.state.node :=
    (ht.log hidle.restore).clean (not_dirty hidle.log hidle.hardState)
  have hle : H.Le (H.settle c.state.node) := (History.settle_local _).toLe
  have hack : ∀ {T k : Nat}, T = c.state.persistent.currentTerm → k ≤ (H.led T).length →
      (H.led T).take k <+: F → k ≤ (H.settle c.state.node).ack c.state.node T := by
    rintro T k rfl hk hp
    rw [← hterm] at hk hp ⊢
    exact History.le_ack_settle hk (hlog ▸ hp)
  cases e <;> cases hm
  case sendRequestVote q =>
    obtain ⟨hr, rfl⟩ := hb
    exact ⟨rfl, F, ((ht.sound.role.candidate hr).campaign hw).1, rfl, rfl⟩
  case sendRequestVoteResponse q =>
    intro hg
    have := hvote.trans (hb.2 hg)
    rw [← hb.1] at this
    exact this
  case sendAppendEntries q =>
    have hb : Sent H c.state.node dest (.appendEntries q) := hb
    exact hb.mono hv hle
  case sendAppendEntriesResponse q => exact fun hs => hack hb.1 (hb.2 hs).1 (hb.2 hs).2
  case sendInstallSnapshot q =>
    have hb : Sent H c.state.node dest (.installSnapshot q) := hb
    exact hb.mono hv hle
  case sendInstallSnapshotResponse q => exact fun hs => hack hb.1 (hb.2 hs).1 (hb.2 hs).2

/-- The messages a handler gets through the gates. -/
theorem Stage.messages (hst : Stage H 𝒬 r.state F r.effects) (hl : LogFirst r.effects)
    (hp : Passed r result) (hu : c.Unblocked)
    (ht : Translated c result previous c₁ visible effects)
    (htr : Tracks H 𝒬 { c₁ with installAfterHardState := x } F) (he : e ∈ effects)
    (hm : e.message? ≠ none) :
    ({ c₁ with installAfterHardState := x } : Core).Idle ∧ Backed H c₁.state F e := by
  have hs : c₁.state = result.state := ht.same.state
  obtain ⟨f, hf, hq⟩ := ht.message he hm
  -- The gates let only quiet effects through while something is being written.
  have hopen : result = r ∧ r.state.pendingHardState = none ∧ c₁.pendingLog = none ∧
      visible = r.effects := by
    cases hp with
    | through h _ hn =>
      subst h
      cases ht.gate with
      | through _ hlog hvis => exact ⟨rfl, hn, hlog.trans hu.log, hvis⟩
      | cut he' =>
        rw [hl visible _ he' f hf] at hq
        cases hq
    | cut _ h =>
      subst h
      have := ht.gate.subset hf
      rw [List.mem_singleton] at this
      rw [this] at hq
      cases hq
  obtain ⟨rfl, hn, hlog, hvis⟩ := hopen
  refine ⟨⟨⟨hlog, ht.same.pendingSnapshot.trans hu.snapshot,
    ht.same.pendingSnapshotRestore.trans hu.restore⟩,
    by show c₁.state.pendingHardState = none; rw [hs]; exact hn⟩, ?_⟩
  cases ht.emitted e he with
  | bookkeeping hb => exact backed_of_bookkeeping hb
  | direct hf hd =>
    rw [hs]
    exact hst.backed _ (hvis ▸ hf) e hd
  | log => exact trivial
  | @install dest append q hf h => exact htr.installs h dest

end

/-! ## The moves of a core as rules of the protocol

Every move of a core is a sequence of rules of its node: the completion of a hard-state write is
the rule that records it, a completed log write or a received snapshot on disk is an
`overwrite`, and the other moves change nothing on disk. `Reached` is what holds after a move:
the history has grown by rules of the node, it describes the core and the disk after the move,
and the messages of the move are true. -/

/-! ## The disk -/

/-- A record becomes part of the disk. -/
def absorb (disk : Recovered) : Record → Recovered
  | .hardState state => { disk with hardState := state }
  | .log log => { disk with log := log }
  | .applied index => { disk with applied := index }
  | .snapshot metadata state =>
    { disk with snapshot := some ⟨metadata, state, crc32c state⟩ }

def absorbAll (disk : Recovered) (records : List Record) : Recovered := records.foldl absorb disk

/-- What a move of the node `n` leads to. -/
structure Reached (𝒬 : QuorumSystem NodeId) (H H' : Hist) (n : NodeId) (c : Core)
    (disk : Recovered) (effects : List Effect) : Prop extends Extends 𝒬 n H H' where
  tracks : ∃ F, Tracks H' 𝒬 c F
  stored : Stored H' n disk
  holds : Holds c disk
  sent : ∀ e ∈ effects, ∀ dest m, e.message? = some (dest, m) → Sent H' n dest m

section

variable {c c₁ : Core} {disk : Recovered} {n : NodeId} {H' : Hist} {result r : Figure2.StepResult}
variable {effects : List Effect} {event : Figure2.Event}

theorem Extends.settle (h : Extends 𝒬 n H H') : Extends 𝒬 n H (H'.settle n) :=
  ⟨History.settle_valid h.valid n, h.indexed, h.locally.trans (History.settle_local n)⟩

theorem Tracks.settle (hv : H.Valid 𝒬) (h : Tracks H 𝒬 c F) (n : NodeId) :
    Tracks (H.settle n) 𝒬 c F :=
  h.mono hv (History.settle_sameFor n _)

theorem Stored.settle (hv : H.Valid 𝒬) (h : Stored H n disk) (m : NodeId) :
    Stored (H.settle m) n disk :=
  h.mono hv (History.settle_local m).toLe rfl rfl rfl

theorem Stored.steady (hv : H.Valid 𝒬) (hle : H.Le H') (hs : History.Steady H H')
    (h : Stored H n disk) : Stored H' n disk :=
  h.mono hv hle (by rw [hs.term]) (by rw [hs.vote]) (by rw [hs.log])

/-- A core with nothing to write has its log on disk. -/
theorem Tracks.log_eq (h : Tracks H 𝒬 c F) (hu : c.Unblocked)
    (hn : c.state.pendingHardState = none) : F = H.log c.state.node :=
  (h.log hu.restore).clean (not_dirty hu.log hn)

theorem Tracks.writeOf_eq (hn : c.state.pendingHardState = none) : writeOf c.state = none := by
  rw [writeOf, hn]
  rfl

/-! ## Events -/

/-- A leader without a write outstanding has acknowledged its whole log. -/
theorem Tracks.leader_settled (h : Tracks H 𝒬 c F) (hu : c.Unblocked)
    (hn : c.state.pendingHardState = none) (hr : c.state.role = .leader) :
    F.length ≤ (H.settle c.state.node).ack c.state.node c.state.persistent.currentTerm := by
  have hled := ((h.sound.role.leader hr).2).log
  have hterm := (h.sound.hard.settled (Tracks.writeOf_eq hn)).1
  rw [← hterm] at hled ⊢
  refine History.le_ack_settle (by rw [hled]) ?_
  rw [← hled, List.take_length, ← h.log_eq hu hn]

theorem Passed.of_outcome
    (ho : Outcome s event r) (he : event.isCompletion = false) (hn : s.pendingHardState = none)
    (hg : Gated r result) : Passed r result := by
  rcases (ho.writes he).gate (ho.logFirst he) hg with ⟨h, hu, _⟩ | ⟨q, rest, heff, h, _⟩
  · exact .through h hu ((ho.pending he).trans hn)
  · exact .cut heff h

/-- A core after its stage: what it has acknowledged makes its messages true. -/
theorem Stage.reached (hext : Extends 𝒬 n H H')
    (hstage : Stage H' 𝒬 r.state F r.effects) (hl : LogFirst r.effects) (hp : Passed r result)
    (hu : c.Unblocked) (ht : Translated c result previous c₁ visible effects)
    (htr : Tracks H' 𝒬 { c₁ with installAfterHardState := x } F) (hnode : c₁.state.node = n)
    (hst : Stored H' n disk) (hh : Holds c disk) :
    ∃ H'', Reached 𝒬 H H'' n { c₁ with installAfterHardState := x } disk effects := by
  have hrest : c₁.pendingSnapshotRestore = none := ht.same.pendingSnapshotRestore.trans hu.restore
  refine ⟨H'.settle n, hext.settle, ⟨F, htr.settle hext.valid n⟩, hst.settle hext.valid n,
    ⟨fun _ => ?_, fun p hp => (by cases hrest.symm.trans hp)⟩, fun e he dest m hm => ?_⟩
  · show _ = c₁.durableSnapshot.map _
    rw [ht.same.durableSnapshot]
    exact hh.same hu.restore
  · obtain ⟨hidle, hb⟩ := hstage.messages hl hp hu ht htr he (by simp [hm])
    have := htr.sent hext.valid hidle hb hm
    rw [← hnode]
    exact this

/-- A step of the specification other than a completion. -/
theorem Tracks.handle (hv : H.Valid 𝒬) (hi : Indexed H) (hq : Quorate 𝒬 c.state)
    (h : Tracks H 𝒬 c F) (hst : Stored H c.state.node disk) (hh : Holds c disk) (hu : c.Unblocked)
    (hne : event ≠ .applyCommitted) (hev : event.isCompletion = false)
    (hd : Delivered H c.state.node event) (hstep : Figure2.step c.state event = .ok result)
    (ht : Translated { c with installAfterHardState := x } result c.state.role c₁ visible effects)
    (ho : c₁.Orderly) (hx : ∀ y, x = some y → Sent H y.1 c.state.node (.installSnapshot y.2)) :
    ∃ H', Reached 𝒬 H H' c.state.node c₁ disk effects := by
  obtain ⟨hwf, _, hcompl, r, hout, hg⟩ := Figure2.step_outcome h.orderly.peers hne hstep
  have hn : c.state.pendingHardState = none := by simpa [hev] using hcompl
  have hle := (History.settle_local (H := H) c.state.node).toLe
  have h₀ := h.settle hv c.state.node
  have hsound := h₀.sound
  rw [Tracks.writeOf_eq hn] at hsound
  obtain ⟨H', F', hadv, hstage, hkeep⟩ := outcome_stage (History.settle_valid hv c.state.node) hi
    hq hwf h.orderly.peers hsound (h₀.log_eq hu hn) (h.leader_settled hu hn)
    (fun sender m hm => (hd sender m hm).mono hv hle) hev hout
  have hle' := hle.trans hadv.locally.toLe
  have hp := Passed.of_outcome hout hev hn hg
  have hframe := hout.frame
  have hu₀ : ({ c with installAfterHardState := x } : Core).Unblocked :=
    ⟨hu.log, hu.snapshot, hu.restore⟩
  have hinstall : c₁.installAfterHardState = x := ht.same.installAfterHardState
  have htr : Tracks H' 𝒬 { c₁ with installAfterHardState := x } F' := by
    refine hstage.tracks hp hu₀ ht ?_ ?_ ?_ ?_
    · rw [← hinstall]
      exact ho
    · intro y hy
      rw [hframe.node]
      exact (hx y hy).mono hv hle'
    · intro p hp
      obtain ⟨hindex, hlt, he⟩ := h.application p hp
      rw [hframe.lastApplied]
      exact ⟨hindex, hlt.trans_le hframe.commit, (hkeep _ hlt).trans he⟩
    · rw [hframe.snapshot]
      exact h.snapshot
  have hnode : c₁.state.node = c.state.node := by
    rw [show c₁.state = result.state from ht.same.state, hp.frame.2.1, hframe.node]
  obtain ⟨H'', hreached⟩ := hstage.reached
    ((Extends.settle ⟨hv, hi, .refl _ H⟩).trans hadv.toExtends) (hout.logFirst hev) hp hu₀ ht htr
    hnode ((hst.settle hv _).steady (History.settle_valid hv _) hadv.locally.toLe hadv.steady)
    ⟨hh.same, hh.ahead⟩
  refine ⟨H'', ?_⟩
  rw [← hinstall] at hreached
  exact hreached

/-! ## The completion of a hard-state write -/

/-- The rule the completion of a write stands for, and what is sound after it. -/
structure Recorded (𝒬 : QuorumSystem NodeId) (H H' : Hist) (s : State) (F : List LogEntry)
    (state : RaftHardState) (w : Option PersistRaftHardState) : Prop
    extends Extends 𝒬 s.node H H' where
  log : H'.log = H.log
  led : H'.led = H.led
  state : state = ⟨H'.term s.node, H'.vote s.node (H'.term s.node)⟩
  sound : Sound H' 𝒬 s F w

section

variable (hv : H.Valid 𝒬) (hi : Indexed H)
  (h : Sound H 𝒬 s F (some q)) (hterm : q.state.currentTerm = s.persistent.currentTerm)
include hv hi h hterm

theorem Sound.raise (hq : q.state.votedFor = none)
    (hw : (w = none ∧ s.persistent.votedFor = none) ∨
      ∃ id, w = some ⟨id, Figure2.hardState s⟩ ∧ s.persistent.votedFor ≠ none) :
    Recorded 𝒬 H (H.raiseTerm s.node s.persistent.currentTerm) s F q.state w := by
  obtain ⟨hlt, hne⟩ := h.hard.enter q rfl hq
  have hnew : (H.raiseTerm s.node s.persistent.currentTerm).term s.node =
      s.persistent.currentTerm := Function.update_self ..
  have hvote : H.vote s.node s.persistent.currentTerm = none := hv.vote_eq_none hlt
  have hcand : s.role ≠ .candidate := fun hr => hne (h.role.candidate hr).vote
  have hlead : s.role ≠ .leader := fun hr => (by cases (h.role.leader hr).1)
  refine ⟨⟨History.raiseTerm_valid hv hlt, hi, History.raiseTerm_local hlt⟩, rfl, rfl, ?_, ?_⟩
  · rw [hnew]
    show q.state = ⟨_, H.vote s.node s.persistent.currentTerm⟩
    rw [hvote, ← hterm, ← hq]
  exact {
    __ := h
    hard := by
      refine ⟨fun hn => ?_, fun q' hq' hn => ?_, fun q' hq' hn => ?_, fun q' C hq' _ _ => ?_,
        fun C _ => h.hard.ballot C (by simp)⟩
      · rcases hw with ⟨_, hnone⟩ | ⟨_, hsome, _⟩
        · exact ⟨hnew, hvote.trans hnone.symm⟩
        · cases hsome.symm.trans hn
      · rcases hw with ⟨hnone, _⟩ | ⟨_, hsome, hvoted⟩
        · cases hnone.symm.trans hq'
        · cases hsome.symm.trans hq'
          exact absurd hn hvoted
      · rcases hw with ⟨hnone, _⟩ | ⟨_, hsome, _⟩
        · cases hnone.symm.trans hq'
        · cases hsome.symm.trans hq'
          exact absurd hn hne
      · exact ⟨hnew, hvote⟩
    role := ⟨fun hr => absurd hr hlead, fun hr => absurd hr hcand⟩
    commit := by
      rcases h.commit with hdecided | ⟨T, hle, hs⟩
      · exact .inl hdecided
      · exact .inr ⟨T, hle, hs.applied, hs.role, fun hr => absurd hr hcand⟩
    applied_le := h.applied_le }

theorem Sound.run (hq : q.state.votedFor = some s.node)
    (hvoted : s.persistent.votedFor = some s.node) :
    Recorded 𝒬 H (H.runFor s.node s.persistent.currentTerm) s F q.state none := by
  obtain ⟨hlt, hr⟩ := h.hard.run q rfl hq
  have hc := h.role.candidate hr
  have hle := History.runFor_le hv hlt
  have hnew : (H.runFor s.node s.persistent.currentTerm).term s.node =
      s.persistent.currentTerm := Function.update_self ..
  have hvote : (H.runFor s.node s.persistent.currentTerm).vote s.node
      s.persistent.currentTerm = some s.node := by simp [History.runFor, History.update₂]
  refine ⟨⟨History.runFor_valid hv hlt, hi, History.runFor_local hv hlt⟩, rfl, rfl, ?_, ?_⟩
  · rw [hnew, hvote, ← hterm, ← hq]
  exact {
    __ := h
    hard := .of_settled ⟨hnew, hvote.trans hvoted.symm⟩
    role := by
      refine ⟨fun hl => absurd (hr.symm.trans hl) (by simp), fun _ => ⟨hvoted, hc.log, fun _ => ?_,
        fun v hmem hne => hle.vote _ _ _ (hc.votes v hmem hne)⟩⟩
      refine ⟨?_, fun hL => ?_⟩
      · rw [hc.log]
        simp [History.runFor, History.update₂]
      · -- A leader of this term has campaigned in it, and so far the node has not entered it.
        have := hv.leader_campaign _ _ hL
        rw [hv.campaign_eq_none hlt] at this
        cases this
    commit := by
      rcases h.commit with h | ⟨T, hT, hs⟩
      · exact .inl h
      · rcases Nat.eq_zero_or_pos s.volatileState.commitIndex with h0 | hpos
        · refine .inl ⟨0, Nat.zero_le _, by omega, ?_⟩
          rw [h0]
          exact List.nil_prefix
        · refine .inr ⟨T, hT, hs.applied, hs.role, fun _ _ => ?_⟩
          rcases Nat.lt_or_ge T s.persistent.currentTerm with hlt' | hge
          · exact .inl hlt'
          · exact .inr (hv.unelectable_runFor hlt hge (by omega))
    applied_le := h.applied_le }

theorem Sound.grant {C : NodeId} (hq : q.state.votedFor = some C) (hne : C ≠ s.node)
    (hvoted : s.persistent.votedFor = some C) :
    Recorded 𝒬 H (H.grant s.node C) s F q.state none := by
  obtain ⟨heq, hnone⟩ := h.hard.grant q C rfl hq hne
  obtain ⟨E, hE, hup⟩ := h.hard.ballot C (by simp) hvoted hne
  rw [← heq] at hnone hE
  have hvote : (H.grant s.node C).vote s.node (H.term s.node) = some C := by
    simp [History.grant, History.update₂]
  have hcand : s.role ≠ .candidate := by
    intro hr
    have := (h.role.candidate hr).vote
    rw [hvoted] at this
    exact hne (Option.some.inj this)
  have hlead : s.role ≠ .leader := fun hr => (by cases (h.role.leader hr).1)
  refine ⟨⟨History.grant_valid hv hnone hE hup, hi, History.grant_local hnone⟩, rfl, rfl, ?_, ?_⟩
  · show q.state = ⟨H.term s.node, (H.grant s.node C).vote s.node (H.term s.node)⟩
    rw [hvote, heq, ← hterm, ← hq]
  exact {
    __ := h
    hard := by
      refine .of_settled ⟨heq, ?_⟩
      rw [← heq, hvote, hvoted]
    role := ⟨fun hr => absurd hr hlead, fun hr => absurd hr hcand⟩
    commit := by
      rcases h.commit with hdecided | ⟨T, hle, hs⟩
      · exact .inl hdecided
      · exact .inr ⟨T, hle, hs.applied, hs.role, fun hr => absurd hr hcand⟩
    applied_le := h.applied_le }

end

/-- The rule behind the completion of the write `p`. -/
theorem Tracks.recorded (hv : H.Valid 𝒬) (hi : Indexed H) (h : Tracks H 𝒬 c F)
    {p : Figure2.PendingHardStatePersistence} (hp : c.state.pendingHardState = some p) :
    ∃ H', Recorded 𝒬 H H' c.state F p.request.state (firstWrite p.deferredEffects) := by
  have hk := h.orderly.held p hp
  have hsound := h.sound
  rw [show writeOf c.state = some p.request by rw [writeOf, hp]; rfl] at hsound
  rcases hk.writes with ⟨hs, hu⟩ | ⟨id, rest, he, _, _, hnone, hvoted⟩
  · rw [firstWrite_of_ungated hu]
    have hvoted : c.state.persistent.votedFor = p.request.state.votedFor := by rw [hs]; rfl
    cases hC : p.request.state.votedFor with
    | none => exact ⟨_, hsound.raise hv hi hk.term hC (.inl ⟨rfl, hvoted.trans hC⟩)⟩
    | some C =>
      by_cases hself : C = c.state.node
      · rw [hself] at hC
        exact ⟨_, hsound.run hv hi hk.term hC (hvoted.trans hC)⟩
      · exact ⟨_, hsound.grant hv hi hk.term hC hself (hvoted.trans hC)⟩
  · rw [he, firstWrite_cons]
    exact ⟨_, hsound.raise hv hi hk.term hnone (.inr ⟨id, rfl, hvoted⟩)⟩

theorem Tracks.release (hv : H.Valid 𝒬) (hi : Indexed H) (h : Tracks H 𝒬 c F)
    (hst : Stored H c.state.node disk) (hh : Holds c disk) (hu : c.Unblocked)
    {completion : PersistRaftHardState}
    (hstep : Figure2.step c.state (.raftHardStatePersisted completion) = .ok result)
    (ht : Translated c result c.state.role c₁ visible effects)
    (hx : ∀ y, x = some y → c.installAfterHardState = some y)
    (ho : ({ c₁ with installAfterHardState := x } : Core).Orderly) :
    ∃ H', Reached 𝒬 H H' c.state.node { c₁ with installAfterHardState := x }
      { disk with hardState := completion.state } effects := by
  obtain ⟨_, _, _, r, hout, hg⟩ := Figure2.step_outcome h.orderly.peers (by simp) hstep
  cases hout with
  | idle he | observe he => cases he
  | @released _ p hp hc =>
    subst hc
    obtain ⟨H', hrec⟩ := h.recorded hv hi hp
    have hle := hrec.locally.toLe
    have hk := h.orderly.held p hp
    have hdirty : c.pendingLog.isSome ∨ Dirty c.state ↔ .persistState ∈ p.deferredEffects := by
      rw [hu.log]
      constructor
      · rintro (hl | ⟨p', hp', hmem⟩)
        · cases hl
        · rw [hp] at hp'
          cases hp'
          exact hmem
      · exact fun hmem => .inr ⟨p, hp, hmem⟩
    have hlog := h.log hu.restore
    rw [hdirty] at hlog
    have hstage : Stage H' 𝒬 { c.state with pendingHardState := none } F p.deferredEffects := by
      refine ⟨hrec.sound.pending none, ⟨fun hn => ?_, fun hm => ?_⟩, fun f hf e he => ?_⟩
      · rw [hrec.log]
        exact hlog.clean hn
      · rw [hrec.log, hrec.led]
        exact hlog.ahead hm
      · exact ((h.waiting p hp f hf e he).mono hv hle).pending none
    have hpassed : Passed ⟨{ c.state with pendingHardState := none }, [], p.deferredEffects⟩
        result := by
      rcases hk.writes with ⟨_, hun⟩ | ⟨id, rest, he, _⟩
      · exact .through (hg.of_ungated hun) hun rfl
      · exact .cut he (hg.of_write he)
    have htr : Tracks H' 𝒬 { c₁ with installAfterHardState := x } F :=
      hstage.tracks (r := ⟨_, [], p.deferredEffects⟩) hpassed hu ht ho
        (fun y hy => (h.install y (hx y hy)).mono hv hle) h.application h.snapshot
    have hnode : c₁.state.node = c.state.node := by
      rw [show c₁.state = result.state from ht.same.state, hpassed.frame.2.1]
    exact hstage.reached (r := ⟨_, [], p.deferredEffects⟩) hrec.toExtends hk.logFirst hpassed
      hu ht htr hnode (hst.written hv hle (by rw [hrec.log]) hrec.state) ⟨hh.same, hh.ahead⟩

end

end KuraMetadata.Replica
