import KuraMetadata.Raft.Core.Orderly

/-! # Durability before application

Which log is on disk while a core runs, and that an entry is handed to the state machine only
from there. `Core.Durable L c` is the invariant of one core whose disk holds the log `L`; it
survives every accepted input, except that an application or snapshot completion must not be
accepted while a write is outstanding and committed entries are waiting: there the core
schedules the next entry without looking at the outstanding write. -/

namespace KuraMetadata.Election

open Election.Core List
open Figure2 (base Contiguous Dirty Stepped)

variable {q : ApplyLogEntry} {c c₀ : Core} {a : Recovery} {s : Figure2.State}
variable {visible : List Figure2.Effect} {r : StepResult}

/-! ## The invariant -/

/-- A snapshot created from the applied prefix of the log. -/
def OwnSnapshot (s : Figure2.State) (m : SnapshotMetadata) : Prop :=
  base s < m.lastIncludedIndex ∧ m.lastIncludedIndex ≤ s.volatileState.lastApplied ∧
    ∃ e, s.persistent.log[m.lastIncludedIndex - base s - 1]? = some e ∧
      e.term = m.lastIncludedTerm

/-- What holds of a core while the log on its disk is `L`. -/
structure Core.Logged (L : List LogEntry) (c : Core) : Prop where
  orderly : c.Orderly
  snapshot : c.durableSnapshot.map RaftSnapshot.metadata = c.state.persistent.snapshot
  /-- Unless a write is outstanding or waiting, the log is on disk. -/
  clean : c.pendingLog = none → ¬ Dirty c.state → c.state.persistent.log <:+ L
  writing : ∀ p, c.pendingLog = some p → p.request.log = c.state.persistent.log ∧
    ∀ q, .applyLogEntry q ∉ p.deferredEffects
  publishing : ∀ p, c.pendingSnapshot = some p →
    if p.localCreation then OwnSnapshot c.state p.request.snapshot.metadata
    else c.state.volatileState.lastApplied < p.request.snapshot.metadata.lastIncludedIndex
  restoring : ∀ p, c.pendingSnapshotRestore = some p →
    c.state.volatileState.lastApplied < p.snapshot.metadata.lastIncludedIndex

/-- In addition the entry being applied is the next one, and on disk. -/
structure Core.Durable (L : List LogEntry) (c : Core) : Prop extends Core.Logged L c where
  application : ∀ p, c.pendingApplication = some p →
    p.request.entry ∈ c.state.persistent.log ∧ p.request.entry ∈ L ∧
      p.request.entry.index = c.state.volatileState.lastApplied + 1 ∧
      p.request.entry.index ≤ c.state.volatileState.commitIndex

theorem FromEffects.not_apply {l : List Figure2.Effect} : ¬ FromEffects s l (.applyLogEntry q) := by
  rintro (h | ⟨f, _, h⟩ | ⟨_, _, h⟩)
  · cases h
  · cases f <;> cases h
  · cases h

theorem Emitted.not_apply : ¬ Emitted c visible (.applyLogEntry q) := by
  intro h
  cases h with
  | bookkeeping h => cases h
  | @direct f _ _ h => cases f <;> cases h

theorem withContext_eq_apply {context : Option Nat} {e : Effect}
    (h : withContext context e = .applyLogEntry q) : e = .applyLogEntry q := by
  cases context with
  | none => exact h
  | some => cases e <;> first | exact h | cases h

/-- The term of a local snapshot is that of a log entry. -/
theorem ownSnapshot_of_term {m : SnapshotMetadata} (hbase : base s < m.lastIncludedIndex)
    (happlied : m.lastIncludedIndex ≤ s.volatileState.lastApplied)
    (hterm : snapshotTerm s m.lastIncludedIndex = .ok m.lastIncludedTerm) : OwnSnapshot s m := by
  have hentry : (Figure2.entryAt s m.lastIncludedIndex).map LogEntry.term =
      .ok m.lastIncludedTerm := by
    simp only [snapshotTerm] at hterm
    split at hterm
    case h_1 m' hm => rwa [if_neg (by simp only [base, hm] at hbase; omega)] at hterm
    case h_2 => exact hterm
  obtain ⟨e, he, ht⟩ := Except.map_eq_ok.mp hentry
  exact ⟨hbase, happlied, e, (Figure2.entryAt_eq_ok.mp he).2, ht⟩

section

variable {L : List LogEntry} {origin c c₁ c' : Core} {input : Input} {records : List Record}
variable {result : Figure2.StepResult} {effects : List Effect} {previous : RaftRole}

section

variable (h : c.Logged L)
include h

theorem Core.Logged.of_alike (hs : c.Alike c') : c'.Logged L where
  orderly := h.orderly.of_alike hs
  snapshot := hs.state ▸ hs.durableSnapshot ▸ h.snapshot
  clean := by
    rw [hs.state, hs.pendingLog]
    exact h.clean
  writing := by
    rw [hs.state, hs.pendingLog]
    exact h.writing
  publishing := by
    rw [hs.state, hs.pendingSnapshot]
    exact h.publishing
  restoring := by
    rw [hs.state, hs.pendingSnapshotRestore]
    exact h.restoring

/-- A translated step keeps the invariant, whatever snapshot waits before and after it. -/
theorem Core.Logged.translated (hu : c.Unblocked) (hst : Stepped c.state result)
    (x y : Option (NodeId × InstallSnapshotRequest))
    (ht : Translated { c with installAfterHardState := x } result previous c₁ visible effects)
    (ho : ({ c₁ with installAfterHardState := y } : Core).Orderly) :
    ({ c₁ with installAfterHardState := y } : Core).Logged L := by
  have hstate : c₁.state = result.state := ht.same.state
  exact {
    orderly := ho
    snapshot := by
      show c₁.durableSnapshot.map _ = c₁.state.persistent.snapshot
      rw [hstate, hst.frame.snapshot, ht.same.durableSnapshot]
      exact h.snapshot
    clean := by
      intro hnone hclean
      have hnone : c₁.pendingLog = none := hnone
      have hclean : ¬ Dirty c₁.state := hclean
      show c₁.state.persistent.log <:+ L
      rw [hstate] at hclean ⊢
      cases ht.gate with
      | cut _ _ _ hl =>
        rw [hl] at hnone
        cases hnone
      | through hp =>
        obtain ⟨hlog, hd⟩ := (hst.written.resolve_left hp).resolve_left hclean
        rw [hlog]
        exact h.clean hu.log hd
    writing := by
      intro p hp
      have hp : c₁.pendingLog = some p := hp
      cases ht.gate with
      | through _ hl => cases hu.log.symm.trans (hl.symm.trans hp)
      | cut _ _ _ hl hlog hfrom =>
        rw [hl] at hp
        cases hp
        exact ⟨hlog, fun q hq => (hfrom _ hq).not_apply⟩
    publishing := fun p hp =>
      by cases hu.snapshot.symm.trans (ht.same.pendingSnapshot.symm.trans hp)
    restoring := fun p hp =>
      by cases hu.restore.symm.trans (ht.same.pendingSnapshotRestore.symm.trans hp) }

theorem Core.Logged.compactTo (hu : c.Unblocked) (snapshot : RaftSnapshot) :
    (c.compactTo snapshot).Logged L where
  orderly := h.orderly.compactTo hu snapshot
  snapshot := rfl
  clean _ hd := (compactedLog_suffix _ _).trans (h.clean hu.log hd)
  writing _ hp := by cases hu.log.symm.trans hp
  publishing _ hp := by cases hu.snapshot.symm.trans hp
  restoring _ hp := by cases hu.restore.symm.trans hp

theorem Core.Logged.forget_publishing {p : PendingSnapshotPersistence}
    (hp : c.pendingSnapshot = some p) : ({ c with pendingSnapshot := none } : Core).Logged L :=
  { h with
    orderly := { h.orderly with
      writing := fun l hl => by cases hp.symm.trans (h.orderly.writing l hl).2.1
      exclusive := .inl rfl }
    publishing := fun _ hp => by cases hp }

theorem Core.Logged.forget_restoring {p : PendingSnapshotRestore}
    (hp : c.pendingSnapshotRestore = some p) :
    ({ c with pendingSnapshotRestore := none } : Core).Logged L :=
  { h with
    orderly := { h.orderly with
      writing := fun l hl => by cases hp.symm.trans (h.orderly.writing l hl).2.2
      exclusive := .inr rfl }
    restoring := fun _ hp => by cases hp }

theorem Core.Logged.move (hne : ∀ q, input ≠ .raftLogPersisted q)
    (hm : Move origin input c c' effects records) :
    c'.Logged L := by
  have ho := h.orderly.move hm
  cases hm with
  | tidy hs => exact h.of_alike hs
  | event hu hi hstep ht =>
    exact h.translated hu (h.orderly.stepped hi.ne_apply hstep)
      c.installAfterHardState c'.installAfterHardState ht ho
  | defer hu _ _ _ _ hstep ht =>
    exact h.translated hu (h.orderly.stepped (by simp) hstep)
      _ c'.installAfterHardState ht ho
  | release hu _ hstep ht =>
    exact h.translated hu (h.orderly.stepped (by simp) hstep)
      c.installAfterHardState _ ht ho
  | respond => exact h
  | follow hu _ _ _ _ _ ht =>
    exact h.translated hu (h.orderly.following)
      c.installAfterHardState c'.installAfterHardState ht ho
  | publishReceived hu _ _ _ _ _ _ _ _ ha =>
    refine { h with
      orderly := ho
      publishing := fun p hp => ?_ }
    rw [← Option.some.inj hp]
    exact ha
  | publishLocal hu _ _ h0 ha hd hindex hterm =>
    refine { h with
      orderly := ho
      publishing := fun p hp => ?_ }
    rw [← Option.some.inj hp, if_pos rfl]
    rw [← hindex] at h0 ha hd hterm
    refine ownSnapshot_of_term (s := c.state) ?_ ha.le hterm
    rw [base, ← h.snapshot]
    cases hds : c.durableSnapshot with
    | none => exact Nat.pos_of_ne_zero h0
    | some d => exact hd d hds
  | persistedLocal _ hp =>
    exact (h.forget_publishing hp).compactTo (h.orderly.unblocked_of_publishing hp) _
  | persistedReceived _ hp _ hloc hmeta =>
    have hpub := h.publishing _ hp
    rw [if_neg (by simp [hloc])] at hpub
    refine { h with
      orderly := ho
      publishing := fun _ hp => by cases hp
      restoring := fun q hq => ?_ }
    rw [← Option.some.inj hq]
    simpa [hmeta] using hpub
  | restored _ hp =>
    exact (h.forget_restoring hp).compactTo (h.orderly.unblocked_of_restoring hp) _
  | applied _ hsnap hrest =>
    exact { h with
      orderly := ho
      publishing := fun p hp => by cases hsnap.symm.trans hp
      restoring := fun p hp => by cases hrest.symm.trans hp }
  | applyFailed | retry | schedule => exact { h with orderly := ho }
  | logPersisted hi => exact absurd hi (hne _)

end

/-! ## The entry being applied -/

theorem Core.Durable.of_alike (h : c.Durable L) (hs : c.Alike c') : c'.Durable L :=
  { h.toLogged.of_alike hs with
    application := by
      rw [hs.state, hs.pendingApplication]
      exact h.application }

theorem Core.Durable.applying (h : c.Durable L) (hst : Stepped c.state result) (hl : c'.Logged L)
    (hstate : c'.state = result.state) (happ : c'.pendingApplication = c.pendingApplication) :
    c'.Durable L := by
  refine { hl with application := fun p hp => ?_ }
  obtain ⟨hlog, hL, hindex, hle⟩ := h.application p (happ ▸ hp)
  rw [hstate, hst.frame.lastApplied]
  exact ⟨hst.committed _ hlog hle, hL, hindex, hle.trans hst.frame.commit⟩

theorem Translated.not_apply (ht : Translated c result previous c₁ visible effects) :
    ∀ e ∈ effects, ∀ q, e = .applyLogEntry q → q.entry ∈ L := by
  rintro e hmem q rfl
  exact absurd (ht.emitted _ hmem) Emitted.not_apply

/-- Taking a snapshot out of the log: one of the node's own log, or one ahead of it. -/
theorem Core.Durable.compacting (h : c.Durable L) {snapshot : RaftSnapshot}
    (hfit : OwnSnapshot c.state snapshot.metadata ∨
      c.state.volatileState.lastApplied < snapshot.metadata.lastIncludedIndex)
    (hl : (c.compactTo snapshot).Logged L) : (c.compactTo snapshot).Durable L := by
  refine { hl with application := fun p hp => ?_ }
  obtain ⟨hsome, hlt⟩ := Option.filter_eq_some_iff.mp hp
  have hlt : snapshot.metadata.lastIncludedIndex < p.request.entry.index := by simpa using hlt
  obtain ⟨hlog, hL, hindex, hle⟩ := h.application p hsome
  rcases hfit with ⟨hbase, happlied, e, he, ht⟩ | hahead
  · refine ⟨?_, hL, ?_, hle.trans (le_max_left _ _)⟩
    · show _ ∈ compactedLog _ _
      rw [compactedLog_own hbase he ht]
      obtain ⟨hget, _⟩ := h.orderly.contiguous.getElem? hlog
      refine mem_iff_getElem?.mpr
        ⟨p.request.entry.index - snapshot.metadata.lastIncludedIndex - 1, ?_⟩
      rw [getElem?_drop, ← hget]
      congr 1
      omega
    · rw [hindex]
      exact congrArg (· + 1) (max_eq_left happlied).symm
  · omega

/-- Scheduling from a core with nothing outstanding takes an entry from the disk. -/
theorem Core.Durable.scheduled (h : c.Durable L) (hl : c.pendingLog = none)
    (hhs : c.state.pendingHardState = none) {r' : StepResult} (hs : Scheduled c r c' r') :
    c'.Durable L ∧ ∀ q, .applyLogEntry q ∈ r'.effects →
      .applyLogEntry q ∈ r.effects ∨ q.entry ∈ L := by
  cases hs with
  | idle => exact ⟨h, fun q hq => .inl hq⟩
  | @apply entry hn hlt he =>
    obtain ⟨hindex, hmem⟩ := Figure2.entryAt_index h.orderly.contiguous he
    have hL : entry ∈ L := (h.clean hl fun ⟨p, hp, _⟩ => by cases hhs.symm.trans hp).subset hmem
    refine ⟨{ h with
      orderly := { h.orderly with }
      application := fun p hp => ?_ }, fun q hq => ?_⟩
    · rw [← Option.some.inj hp]
      exact ⟨hmem, hL, hindex, by rw [hindex]; exact hlt⟩
    · simp only [StepResult.emit, mem_append, mem_singleton,
        Effect.applyLogEntry.injEq] at hq
      rcases hq with hq | rfl
      · exact .inl hq
      · exact .inr hL

theorem Core.Durable.move (h : c.Durable L) (hne : ∀ q, input ≠ .raftLogPersisted q)
    (hearly : origin.appliesEarly input = false) (hm : Move origin input c c' effects records) :
    c'.Durable L ∧ ∀ e ∈ effects, ∀ q, e = .applyLogEntry q → q.entry ∈ L := by
  have hl := h.toLogged.move hne hm
  cases hm with
  | tidy hs he =>
    refine ⟨h.of_alike hs, fun e hmem q hq => ?_⟩
    rw [hq] at hmem
    cases he _ hmem
  | event hu hi hstep ht =>
    refine ⟨h.applying (h.orderly.stepped hi.ne_apply hstep)
      hl ht.same.state ht.same.pendingApplication, ?_⟩
    intro e hmem q hq
    obtain ⟨e₁, hmem, he⟩ := mem_map.mp hmem
    exact ht.not_apply e₁ hmem q (withContext_eq_apply (he.trans hq))
  | defer hu _ _ _ _ hstep ht | release hu _ hstep ht =>
    exact ⟨h.applying (h.orderly.stepped (by simp) hstep)
      hl ht.same.state ht.same.pendingApplication, ht.not_apply⟩
  | respond => exact ⟨h, by simp⟩
  | follow hu _ _ _ _ _ ht =>
    exact ⟨h.applying (h.orderly.following)
      hl ht.same.state ht.same.pendingApplication, ht.not_apply⟩
  | publishReceived | publishLocal | persistedReceived =>
    exact ⟨{ hl with application := h.application }, by simp⟩
  | persistedLocal _ hp _ hloc hmeta =>
    have hpub := h.publishing _ hp
    rw [if_pos hloc, ← hmeta] at hpub
    have h₀ : ({ c with pendingSnapshot := none } : Core).Durable L :=
      { h.forget_publishing hp with application := h.application }
    exact ⟨h₀.compacting (.inl hpub) hl, by simp⟩
  | restored _ hp =>
    have h₀ : ({ c with pendingSnapshotRestore := none } : Core).Durable L :=
      { h.forget_restoring hp with application := h.application }
    exact ⟨h₀.compacting (.inr (h.restoring _ hp)) hl, by simp⟩
  | applied => exact ⟨{ hl with application := fun _ hp => by cases hp }, by simp⟩
  | @applyFailed _ _ pending _ hp =>
    refine ⟨{ hl with application := fun p hp' => ?_ }, by simp⟩
    rw [← Option.some.inj hp']
    exact h.application pending hp
  | @retry pending _ hp =>
    refine ⟨{ hl with application := fun p hp' => ?_ }, fun e hmem q hq => ?_⟩
    · rw [← Option.some.inj hp']
      exact h.application pending hp
    · rw [mem_singleton.mp hmem, Effect.applyLogEntry.injEq] at hq
      rw [← hq]
      exact (h.application pending hp).2.1
  | logPersisted hi => exact absurd hi (hne _)
  | schedule hg hn hlt he =>
    obtain ⟨hl, hhs⟩ := hg.resolve_right (by simp [hearly])
    obtain ⟨h', hq⟩ := h.scheduled hl hhs (.apply (r := {}) hn hlt he)
    refine ⟨h', fun e hmem q heq => (hq q ?_).resolve_left (by simp)⟩
    rw [← heq]
    exact hmem

/-- The completion of a log write makes the written log the durable one. -/
theorem Core.Logged.forget_writing (h : c.Logged L) {p : PendingLogPersistence}
    (hp : c.pendingLog = some p) :
    ({ c with pendingLog := none } : Core).Logged p.request.log :=
  { h with
    orderly := { h.orderly with writing := fun _ hp => by cases hp }
    clean := fun _ _ => (h.writing p hp).1 ▸ suffix_refl _
    writing := fun _ hp => by cases hp }

theorem Core.Durable.raftLogPersisted (h : c.Durable L) {completion : PersistRaftLog}
    (hs : c.raftLogPersisted completion = .ok (c', r)) :
    c'.Durable completion.log ∧
      ∀ q, .applyLogEntry q ∈ r.effects → q.entry ∈ completion.log := by
  obtain ⟨p, c₁, effects, hp, rfl, hsame, hrepl, hsched⟩ := raftLogPersisted_eq_ok hs
  obtain ⟨hlog, hdef⟩ := h.writing p hp
  have h₀ : ({ c with pendingLog := none } : Core).Durable p.request.log :=
    { h.toLogged.forget_writing hp with
      application := fun q hq => by
        obtain ⟨hmem, _, hrest⟩ := h.application q hq
        exact ⟨hmem, hlog ▸ hmem, hrest⟩ }
  obtain ⟨h', hq⟩ := (h₀.of_alike hsame).scheduled hsame.pendingLog
    (hsame.state ▸ (h.orderly.writing p hp).1) hsched
  refine ⟨h', fun q hmem => (hq q hmem).resolve_left fun hmem => ?_⟩
  rcases hrepl.from_effects _ hmem with hmem | ⟨_, _, _, _, _, habs⟩
  · exact hdef q hmem
  · cases habs

/-- A step completes the write of a log or leaves the durable log as it is. -/
theorem Core.step_log (L : List LogEntry) (hs : c.step input = .ok (c', r)) :
    (∃ q, input = .raftLogPersisted q ∧ c.raftLogPersisted q = .ok (c', r))
      ∨ (∀ q, input ≠ .raftLogPersisted q) ∧ input.durableLog L = L := by
  by_cases hl : ∃ q, input = .raftLogPersisted q
  · obtain ⟨q, rfl⟩ := hl
    cases (Core.step_eq_ok hs).2 with
    | logPersisted _ _ hs => exact .inl ⟨q, rfl, hs⟩
    | unblocked hi => cases hi
  · have hne : ∀ q, input ≠ .raftLogPersisted q := fun q hq => hl ⟨q, hq⟩
    refine .inr ⟨hne, ?_⟩
    cases input <;> first | rfl | exact absurd rfl (hne _)

theorem Core.Durable.step (h : c.Durable L) (hearly : c.appliesEarly input = false)
    (hs : c.step input = .ok (c', r)) :
    c'.Durable (input.durableLog L) ∧
      ∀ q, .applyLogEntry q ∈ r.effects → q.entry ∈ input.durableLog L := by
  rcases step_log L hs with ⟨q, rfl, hlog⟩ | ⟨hne, hL⟩
  · exact h.raftLogPersisted hlog
  · obtain ⟨h', hq⟩ := (step_moves h.orderly hs).forall_effects
      (Q := fun e => ∀ q, e = .applyLogEntry q → q.entry ∈ L)
      (fun h => h.move hne hearly) h
    rw [hL]
    exact ⟨h', fun q hmem => hq _ hmem q rfl⟩

end

/-! ## Runs -/

theorem Core.logged_of_make (hm : make a = .ok c₀)
    (hs : c₀.start = .ok (c, r)) : c.Logged a.recoveredLog := by
  obtain ⟨_, hrec, _, hlog, _, hsnap, hrest, _, hdur⟩ := make_eq_ok hm
  have ho := orderly_of_make hm hs
  obtain ⟨hsame, _⟩ := start_eq_ok hs
  obtain ⟨_, _, _, _, _, hsn, _, _, hno, hyes⟩ := recoverState_eq_ok hrec
  exact {
    orderly := ho
    snapshot := by
      rw [hsame.state, hsame.durableSnapshot]
      show c₀.durableSnapshot.map _ = c₀.state.persistent.snapshot
      rw [hdur, hsn]
    clean := fun _ _ => by
      rw [hsame.state]
      show c₀.state.persistent.log <:+ _
      cases h : a.recoveredSnapshot with
      | none => exact (hno h).1 ▸ suffix_refl _
      | some snapshot => exact logAfterSnapshot_suffix (hyes snapshot h).1
    writing := fun p hp => by cases hlog.symm.trans (hsame.pendingLog.symm.trans hp)
    publishing := fun p hp => by cases hsnap.symm.trans (hsame.pendingSnapshot.symm.trans hp)
    restoring := fun p hp =>
      by cases hrest.symm.trans (hsame.pendingSnapshotRestore.symm.trans hp) }

theorem Core.durable_of_make (hm : make a = .ok c₀)
    (hs : c₀.start = .ok (c, r)) : c.Durable a.recoveredLog := by
  obtain ⟨_, _, _, _, happ, _⟩ := make_eq_ok hm
  obtain ⟨hsame, _⟩ := start_eq_ok hs
  exact { logged_of_make hm hs with
    application := fun p hp =>
      by cases happ.symm.trans (hsame.pendingApplication.symm.trans hp) }

theorem confirmedLog_append (a : Recovery) (calls : List Call) (call : Call) :
    confirmedLog a (calls ++ [call]) = call.input.durableLog (confirmedLog a calls) := by
  simp [confirmedLog]

theorem CoreRun.durable {calls : List Call} (run : CoreRun a calls c)
    (hearly : ∀ call ∈ calls, call.before.appliesEarly call.input = false) :
    c.Durable (confirmedLog a calls) := by
  induction run with
  | start hm hs => exact durable_of_make hm hs
  | step _ h ih =>
    rw [confirmedLog_append]
    exact ((ih fun call hc => hearly call (mem_append_left _ hc)).step
      (hearly _ (mem_append_right _ (mem_singleton_self _))) h).1

/-- **Log durability precedes application.** As long as no application or snapshot completion
is accepted while a hard-state or log write is outstanding and committed entries are waiting,
every entry handed to the state machine, and every entry of a pending application, is in the
log the disk holds. -/
theorem application_durable {calls later : List Call} {call : Call}
    (run : CoreRun a (calls ++ call :: later) c)
    (hearly : ∀ x ∈ calls ++ call :: later, x.before.appliesEarly x.input = false) :
    (∀ q, .applyLogEntry q ∈ call.result.effects →
      q.entry ∈ confirmedLog a (calls ++ [call])) ∧
      ∀ p, call.after.pendingApplication = some p →
        p.request.entry ∈ confirmedLog a (calls ++ [call]) := by
  obtain ⟨hrun, hstep⟩ := run.before
  have hd := hrun.durable fun x hx => hearly x (mem_append_left _ hx)
  obtain ⟨h', hq⟩ := hd.step (hearly call (by simp)) hstep
  rw [confirmedLog_append]
  exact ⟨hq, fun p hp => (h'.application p hp).2.1⟩

/-! ## A follower that applies early -/

/-- A client command of the examples. -/
def sampleCommand (sequence : Nat) : CommandEnvelope := ⟨⟨1, sequence⟩, 0, []⟩

/-- The first node of a cluster of three, with an empty disk. -/
def firstNode : Recovery := { self := 1, peers := [2, 3] }

/-- Node 2 leads term 1 and sends its first entry, which is made durable. -/
def followerInputs : List Input :=
  [.receiveAppendEntries 2 ⟨1, 2, 0, 0, [⟨1, 1, sampleCommand 1⟩], 1, none⟩,
    .raftHardStatePersisted ⟨1, ⟨1, none⟩⟩]

def firstLogWrite : Input :=
  .raftLogPersisted ⟨logRequestBase, [⟨1, 1, sampleCommand 1⟩]⟩

/-- The entries a call hands to the state machine. -/
def Call.appliedEntries (call : Call) : List LogEntry :=
  call.result.effects.filterMap fun e =>
    match e with
    | .applyLogEntry q => some q.entry
    | _ => none

theorem Call.mem_appliedEntries {call : Call} {entry : LogEntry} (h : entry ∈ call.appliedEntries) :
    ∃ q, .applyLogEntry q ∈ call.result.effects ∧ q.entry = entry := by
  obtain ⟨e, he, heq⟩ := mem_filterMap.mp h
  split at heq
  case h_1 q => exact ⟨q, he, Option.some.inj heq⟩
  case h_2 => cases heq

theorem application_durable_follower :
    ∃ calls call, CoreRun firstNode (calls ++ [call]) call.after ∧
      (∀ x ∈ calls ++ [call], x.before.appliesEarly x.input = false) ∧
      call.appliedEntries = [⟨1, 1, sampleCommand 1⟩] ∧
      (∀ q, .applyLogEntry q ∈ call.result.effects →
        q.entry ∈ confirmedLog firstNode (calls ++ [call])) := by
  obtain ⟨calls, call, run, h⟩ := @CoreRun.of_accepts firstNode followerInputs firstLogWrite
    (fun calls call => (calls ++ [call]).all (fun x => !x.before.appliesEarly x.input) &&
      decide (call.appliedEntries = [⟨1, 1, sampleCommand 1⟩])) (by decide +kernel)
  simp only [Bool.and_eq_true, all_eq_true, Bool.not_eq_true', decide_eq_true_eq] at h
  exact ⟨calls, call, run, h.1, h.2, (application_durable run h.1).1⟩

/-- The second entry arrives, committed, while the first is being applied; the completion of
the first application hands out the second entry although its log write is outstanding. -/
theorem application_not_durable :
    ¬ ∀ (a : Recovery) (calls : List Call) (call : Call) (c : Core),
      CoreRun a (calls ++ [call]) c → ∀ q, .applyLogEntry q ∈ call.result.effects →
        q.entry ∈ confirmedLog a (calls ++ [call]) := by
  intro hall
  obtain ⟨calls, call, run, h⟩ := @CoreRun.of_accepts firstNode
    (followerInputs ++ [firstLogWrite,
      .receiveAppendEntries 2 ⟨1, 2, 1, 1, [⟨1, 2, sampleCommand 2⟩], 2, none⟩])
    (.logEntryApplied applicationRequestBase 1)
    (fun calls call => decide (⟨1, 2, sampleCommand 2⟩ ∈ call.appliedEntries ∧
      ⟨1, 2, sampleCommand 2⟩ ∉ confirmedLog firstNode (calls ++ [call]))) (by decide +kernel)
  obtain ⟨hmem, hnot⟩ := of_decide_eq_true h
  obtain ⟨q, hq, heq⟩ := Call.mem_appliedEntries hmem
  exact hnot (heq ▸ hall firstNode calls call call.after run q hq)

end KuraMetadata.Election
