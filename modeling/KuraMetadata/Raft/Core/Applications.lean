import KuraMetadata.Raft.Core.Durability
import KuraMetadata.Raft.SimulationNode

/-! # Ordered application

The core hands the committed entries to the state machine one at a time and in the order of the
log. `Core.step_settled` says what an accepted input does to the application in flight: it
settles it or leaves it alone, and may then hand out the next entry. Every run and every
recovery inherits the order from there. -/

namespace KuraMetadata.Election

open Election.Core List Except Option
open Figure2 (base Stepped)

variable {q : ApplyLogEntry} {before between : Option PendingApplication} {L : List LogEntry}
variable {input : Input}

/-! ## The entry in flight -/

/-- The application in flight is that of the next committed entry. -/
def Core.Applying (c : Core) : Prop :=
  ∀ p, c.pendingApplication = some p → p.request.entry ∈ c.state.persistent.log ∧
    p.request.entry.index = c.state.volatileState.lastApplied + 1 ∧
    p.request.entry.index ≤ c.state.volatileState.commitIndex

/-- The applications among the effects. -/
def applications (effects : List Effect) : List ApplyLogEntry :=
  effects.filterMap fun
    | .applyLogEntry request => some request
    | _ => none

/-- The effects hand out no entry, or one when none was in flight. -/
def Handed (before after : Option PendingApplication) (effects : List Effect) : Prop :=
  (applications effects = [] ∧ after = before) ∨
    (before = none ∧ ∃ q, applications effects = [q] ∧ after = some ⟨q, false⟩)

/-- What an input does to the application in flight, and the applied index after it. -/
inductive Core.Settled (c : Core) : Input → Option PendingApplication → Nat → Prop where
  | applied {p : PendingApplication} (hp : c.pendingApplication = some p)
      (hb : p.blocked = false) :
      Settled c (.logEntryApplied p.request.requestId (c.state.volatileState.lastApplied + 1)) none
        (c.state.volatileState.lastApplied + 1)
  | failed {p : PendingApplication} (hp : c.pendingApplication = some p) (hb : p.blocked = false) :
      Settled c (.logEntryApplyFailed p.request.requestId p.request.entry.index)
        (some { p with blocked := true }) c.state.volatileState.lastApplied
  | retried {q : ApplyLogEntry} (hp : c.pendingApplication = some ⟨q, true⟩) :
      Settled c .retryApplication none c.state.volatileState.lastApplied
  | restored {requestId index : Nat} (hlt : c.state.volatileState.lastApplied < index) :
      Settled c (.raftSnapshotRestored requestId index) none index
  | other {input : Input} (ha : ∀ requestId index, input ≠ .logEntryApplied requestId index)
      (hf : ∀ requestId index, input ≠ .logEntryApplyFailed requestId index)
      (ht : input ≠ .retryApplication)
      (hr : ∀ requestId index, input ≠ .raftSnapshotRestored requestId index) :
      Settled c input c.pendingApplication c.state.volatileState.lastApplied

section

variable {origin c c₁ c' : Core} {effects effects' : List Effect} {records : List Record}
variable {r r' : StepResult} {result : Figure2.StepResult}

theorem mem_applications : q ∈ applications effects ↔ .applyLogEntry q ∈ effects := by
  simp only [applications, mem_filterMap]
  constructor
  · rintro ⟨e, he, hq⟩
    cases e <;> cases hq
    exact he
  · exact fun he => ⟨_, he, rfl⟩

theorem applications_append :
    applications (effects ++ effects') = applications effects ++ applications effects' :=
  filterMap_append

theorem applications_eq_nil (h : ∀ q, .applyLogEntry q ∉ effects) : applications effects = [] :=
  List.eq_nil_iff_forall_not_mem.mpr fun q hq => h q (mem_applications.mp hq)

theorem Handed.trans {after : Option PendingApplication}
    (h : Handed before between effects) (h' : Handed between after effects') :
    Handed before after (effects ++ effects') := by
  rw [Handed, applications_append]
  rcases h with ⟨he, rfl⟩ | ⟨hnone, q, he, rfl⟩
  · rw [he, nil_append]
    exact h'
  · rcases h' with ⟨he', rfl⟩ | ⟨habs, _⟩
    · exact .inr ⟨hnone, q, by rw [he, he', append_nil], rfl⟩
    · cases habs

/-- Scheduling hands out the next entry if none is in flight. -/
theorem Scheduled.handed (h : Scheduled c r c' r') (hr : applications r.effects = []) :
    Handed c.pendingApplication c'.pendingApplication r'.effects ∧ c'.state = c.state := by
  cases h with
  | idle => exact ⟨.inl ⟨hr, rfl⟩, rfl⟩
  | apply hn =>
    refine ⟨.inr ⟨hn, _, ?_, rfl⟩, rfl⟩
    rw [StepResult.emit, applications_append, hr]
    rfl

/-! ## Steps -/

theorem Core.Logged.scheduled (h : c.Logged L) (hs : Scheduled c r c' r') : c'.Logged L := by
  cases hs with
  | idle => exact h
  | apply => exact { h with orderly := { h.orderly with } }

theorem Core.Logged.step (h : c.Logged L) (hs : c.step input = .ok (c', r)) :
    c'.Logged (input.durableLog L) := by
  rcases step_log L hs with ⟨q, rfl, hlog⟩ | ⟨hne, hL⟩
  · obtain ⟨p, c₁, _, hp, rfl, hsame, _, hsched⟩ := raftLogPersisted_eq_ok hlog
    exact ((h.forget_writing hp).of_alike hsame).scheduled hsched
  · rw [hL]
    exact (step_moves h.orderly hs).induction (fun h => h.move hne) h

/-- A step of the specification keeps the entry in flight, which is committed. -/
theorem Core.Applying.stepped (h : c.Applying)
    (hst : Stepped c.state result) (hstate : c'.state = result.state)
    (happ : c'.pendingApplication = c.pendingApplication) : c'.Applying := by
  intro p hp
  obtain ⟨hlog, hindex, hle⟩ := h p (happ ▸ hp)
  rw [hstate, hst.frame.lastApplied]
  exact ⟨hst.committed _ hlog hle, hindex, hle.trans hst.frame.commit⟩

theorem Core.Applying.compacting (h : c.Applying) (ho : c.Orderly) {snapshot : RaftSnapshot}
    (hfit : OwnSnapshot c.state snapshot.metadata ∨
      c.state.volatileState.lastApplied < snapshot.metadata.lastIncludedIndex) :
    (c.compactTo snapshot).Applying := by
  intro p hp
  obtain ⟨hsome, hlt⟩ := filter_eq_some_iff.mp hp
  have hlt : snapshot.metadata.lastIncludedIndex < p.request.entry.index := by simpa using hlt
  obtain ⟨hlog, hindex, hle⟩ := h p hsome
  rcases hfit with ⟨hbase, happlied, e, he, ht⟩ | hahead
  · refine ⟨?_, ?_, hle.trans (le_max_left _ _)⟩
    · show _ ∈ compactedLog _ _
      rw [compactedLog_own hbase he ht]
      obtain ⟨hget, _⟩ := ho.contiguous.getElem? hlog
      refine mem_iff_getElem?.mpr
        ⟨p.request.entry.index - snapshot.metadata.lastIncludedIndex - 1, ?_⟩
      rw [getElem?_drop, ← hget]
      congr 1
      omega
    · rw [hindex]
      exact congrArg (· + 1) (max_eq_left happlied).symm
  · omega

theorem Core.Applying.move (hl : c.Logged L) (h : c.Applying)
    (hm : Move origin input c c' effects records) : c'.Applying := by
  have ho := hl.orderly
  cases hm with
  | tidy hs | logPersisted _ _ hs =>
    intro p hp
    rw [hs.state]
    exact h p (hs.pendingApplication ▸ hp)
  | event hu hi hstep ht =>
    exact h.stepped (ho.stepped hi.ne_apply hstep) ht.same.state
      ht.same.pendingApplication
  | defer _ _ _ _ _ hstep ht | release _ _ hstep ht =>
    exact h.stepped (ho.stepped (by simp) hstep) ht.same.state
      ht.same.pendingApplication
  | follow _ _ _ _ _ _ ht =>
    exact h.stepped (ho.following) ht.same.state
      ht.same.pendingApplication
  | respond | publishReceived | publishLocal | persistedReceived => exact h
  | persistedLocal _ hp _ hloc hmeta =>
    have hpub := hl.publishing _ hp
    rw [if_pos hloc, ← hmeta] at hpub
    exact Core.Applying.compacting (c := { c with pendingSnapshot := none }) h
      (hl.forget_publishing hp).orderly (.inl hpub)
  | restored _ hp =>
    exact Core.Applying.compacting (c := { c with pendingSnapshotRestore := none }) h
      (hl.forget_restoring hp).orderly (.inr (hl.restoring _ hp))
  | applied => exact fun _ hp => by cases hp
  | @applyFailed _ _ pending _ hp | @retry pending _ hp =>
    intro p hp'
    rw [← Option.some.inj hp']
    exact h pending hp
  | schedule _ _ hlt he =>
    obtain ⟨hindex, hmem⟩ := Figure2.entryAt_index ho.contiguous he
    intro p hp
    rw [← Option.some.inj hp]
    exact ⟨hmem, hindex, by rw [hindex]; exact hlt⟩

theorem Core.Applying.scheduled (hl : c.Logged L) (h : c.Applying)
    (hs : Scheduled c r c' r') : c'.Applying := by
  cases hs with
  | idle => exact h
  | apply hn hlt he =>
    obtain ⟨hindex, hmem⟩ := Figure2.entryAt_index hl.orderly.contiguous he
    intro p hp
    rw [← Option.some.inj hp]
    exact ⟨hmem, hindex, by rw [hindex]; exact hlt⟩

theorem Core.Applying.step (hl : c.Logged L) (h : c.Applying)
    (hs : c.step input = .ok (c', r)) : c'.Applying := by
  rcases step_log L hs with ⟨q, rfl, hlog⟩ | ⟨hne, -⟩
  · obtain ⟨p, c₁, _, hp, rfl, hsame, _, hsched⟩ := raftLogPersisted_eq_ok hlog
    refine Core.Applying.scheduled ((hl.forget_writing hp).of_alike hsame) ?_ hsched
    intro q hq
    rw [hsame.state]
    exact h q (hsame.pendingApplication ▸ hq)
  · exact ((step_moves hl.orderly hs).induction (P := fun c => c.Logged L ∧ c.Applying)
      (fun ⟨hl, h⟩ hm => ⟨hl.move hne hm, h.move hl hm⟩) ⟨hl, h⟩).2

/-! ## What an input settles -/

theorem Translated.handed {previous : RaftRole}
    {visible : List Figure2.Effect} (ht : Translated c result previous c₁ visible effects) :
    Handed c.pendingApplication c₁.pendingApplication effects :=
  .inl ⟨applications_eq_nil fun _ hq => Emitted.not_apply (ht.emitted _ hq),
    ht.same.pendingApplication⟩

/-- Besides completions no input settles an application. -/
theorem Core.Orderly.move_handed (ho : c.Orderly) (hi : input.isUnblocked = true)
    (hm : Move origin input c c' effects records) :
    Handed c.pendingApplication c'.pendingApplication effects ∧
      c'.state.volatileState.lastApplied = c.state.volatileState.lastApplied := by
  have key : ∀ {result : Figure2.StepResult}, Stepped c.state result → c'.state = result.state →
      c'.state.volatileState.lastApplied = c.state.volatileState.lastApplied := by
    intro result hst hs
    rw [hs, hst.frame.lastApplied]
  cases hm with
  | tidy hs he =>
    refine ⟨.inl ⟨applications_eq_nil fun q hq => ?_, hs.pendingApplication⟩, by rw [hs.state]⟩
    cases he _ hq
  | @event _ _ _ _ effects context _ hi hstep ht =>
    refine ⟨.inl ⟨applications_eq_nil fun q hq => ?_, ht.same.pendingApplication⟩,
      key (ho.stepped hi.ne_apply hstep) ht.same.state⟩
    obtain ⟨e, hmem, he⟩ := mem_map.mp hq
    rw [withContext_eq_apply he] at hmem
    exact Emitted.not_apply (ht.emitted _ hmem)
  | defer _ _ _ _ _ hstep ht | release _ _ hstep ht =>
    exact ⟨ht.handed, key (ho.stepped (by simp) hstep) ht.same.state⟩
  | follow _ _ _ _ _ _ ht =>
    exact ⟨ht.handed, key (ho.following) ht.same.state⟩
  | respond | publishReceived | publishLocal => exact ⟨.inl ⟨rfl, rfl⟩, rfl⟩
  | persistedLocal h | persistedReceived h | restored h | applied h | applyFailed h | retry h
  | logPersisted h =>
    subst h
    cases hi
  | schedule _ hn => exact ⟨.inr ⟨hn, _, rfl, rfl⟩, rfl⟩

theorem Core.Orderly.moves_handed (ho : c.Orderly) (hi : input.isUnblocked = true)
    (hm : Moves origin input c c' effects records) :
    Handed c.pendingApplication c'.pendingApplication effects ∧
      c'.state.volatileState.lastApplied = c.state.volatileState.lastApplied := by
  induction hm with
  | refl => exact ⟨.inl ⟨rfl, rfl⟩, rfl⟩
  | tail hms hm ih =>
    obtain ⟨hh, ha⟩ := (hms.induction Core.Orderly.move ho).move_handed hi hm
    exact ⟨ih.1.trans hh, ha.trans ih.2⟩

/-- The reads and the application that follow a completion. -/
theorem Scheduled.handed_reads
    (h : Scheduled (c.completeReadyReads r).1 (c.completeReadyReads r).2 c' r')
    (hr : ∀ q, .applyLogEntry q ∉ r.effects) :
    Handed c.pendingApplication c'.pendingApplication r'.effects ∧
      c'.state.volatileState.lastApplied = c.state.volatileState.lastApplied := by
  obtain ⟨hh, hs⟩ := h.handed (applications_eq_nil fun q hq => by
    rcases mem_completeReadyReads hq with hq | ⟨_, _, _, hq⟩
    · exact hr q hq
    · cases hq)
  exact ⟨hh, by rw [hs]; rfl⟩

/-- **What an accepted input does to the application in flight.** -/
theorem Core.step_settled (hl : c.Logged L) (ha : c.Applying) (hs : c.step input = .ok (c', r)) :
    ∃ between, c.Settled input between c'.state.volatileState.lastApplied ∧
      Handed between c'.pendingApplication r.effects := by
  obtain ⟨_, hd⟩ := Core.step_eq_ok hs
  cases hd with
  | snapshotPersisted h =>
    obtain ⟨c₁, r₁, hinst, hsched⟩ := afterSnapshot_eq_ok h
    obtain ⟨p, snapshot, hp, _, hmeta, _, _, _, _, hcase⟩ :=
      installPersistedSnapshot_eq_ok hinst
    have hpub := hl.publishing p hp
    rcases hcase with ⟨hloc, rfl, rfl⟩ | ⟨_, _, _, _, rfl, rfl⟩
    · -- A local snapshot ends with the applied entries, before the one in flight.
      rw [if_pos hloc, ← hmeta] at hpub
      obtain ⟨hh, happlied⟩ := hsched.handed_reads (by simp)
      have hkeep : (({ c with pendingSnapshot := none } : Core).compactTo
          snapshot).pendingApplication = c.pendingApplication := by
        simp only [compactTo]
        cases happ : c.pendingApplication with
        | none => rfl
        | some q =>
          obtain ⟨_, hindex, _⟩ := ha q happ
          have := hpub.2.1
          simp only [filter_some]
          rw [if_pos (by simp; omega)]
      refine ⟨c.pendingApplication, ?_, hkeep ▸ hh⟩
      rw [happlied]
      simp only [compactTo, max_eq_left hpub.2.1]
      exact .other (by simp) (by simp) (by simp) (by simp)
    · obtain ⟨hh, happlied⟩ := hsched.handed_reads (by simp)
      rw [happlied]
      exact ⟨_, .other (by simp) (by simp) (by simp) (by simp), hh⟩
  | snapshotRestored h =>
    obtain ⟨c₁, r₁, hinst, hsched⟩ := afterSnapshot_eq_ok h
    obtain ⟨p, hp, _, rfl, rfl, rfl⟩ := completeSnapshotRestore_eq_ok hinst
    have hlt := hl.restoring p hp
    obtain ⟨hh, happlied⟩ := hsched.handed_reads (by simp)
    have hdrop : (({ c with pendingSnapshotRestore := none } : Core).compactTo
        p.snapshot).pendingApplication = none := by
      simp only [compactTo]
      cases happ : c.pendingApplication with
      | none => rfl
      | some q =>
        obtain ⟨_, hindex, _⟩ := ha q happ
        simp only [filter_some]
        rw [if_neg (by simp; omega)]
    refine ⟨none, ?_, hdrop ▸ hh⟩
    rw [happlied]
    simp only [compactTo, max_eq_right hlt.le]
    exact .restored hlt
  | applied _ _ h =>
    obtain ⟨p, leader, completed, hp, hb, rfl, rfl, _, hcompl, hsched⟩ :=
      logEntryApplied_eq_ok h
    obtain ⟨_, hindex, _⟩ := ha p hp
    obtain ⟨hh, happlied⟩ := hsched.handed_reads fun q hq => by cases hcompl _ hq
    refine ⟨none, ?_, hh⟩
    rw [happlied]
    simp only [appliedState, hindex]
    exact .applied hp hb
  | applyFailed _ _ h =>
    simp only [logEntryApplyFailed] at h
    split at h
    case isTrue => cases h
    case isFalse hmatch =>
      cases hp : c.pendingApplication with
      | none => simp [matchesApplication, hp] at hmatch
      | some p =>
        simp only [matchesApplication, hp, any_some, Bool.not_eq_false,
          Bool.and_eq_true, Bool.not_eq_true', beq_iff_eq] at hmatch
        obtain ⟨⟨hb, rfl⟩, rfl⟩ := hmatch
        rw [hp] at h
        cases h
        exact ⟨_, .failed hp hb, .inl ⟨rfl, rfl⟩⟩
  | retry _ _ h =>
    simp only [retryApplication] at h
    split at h
    case h_2 => cases h
    case h_1 request hp =>
      obtain ⟨_, h⟩ := ite_error_eq_ok.mp h
      cases h
      exact ⟨none, .retried hp, .inr ⟨rfl, _, rfl, rfl⟩⟩
  | logPersisted _ _ h =>
    obtain ⟨p, c₁, effects, hp, rfl, hsame, hrepl, hsched⟩ := raftLogPersisted_eq_ok h
    obtain ⟨hh, hstate⟩ := hsched.handed (applications_eq_nil fun q hq => by
      rcases hrepl.from_effects _ hq with hq | ⟨_, _, _, _, _, habs⟩
      · exact (hl.writing p hp).2 q hq
      · cases habs)
    rw [hsame.pendingApplication] at hh
    rw [hstate, hsame.state]
    exact ⟨_, .other (by simp) (by simp) (by simp) (by simp), hh⟩
  | unblocked hi _ _ _ _ =>
    obtain ⟨hh, happlied⟩ := hl.orderly.moves_handed hi (step_moves hl.orderly hs)
    rw [happlied]
    refine ⟨_, .other ?_ ?_ ?_ ?_, hh⟩ <;> · intros; rintro rfl; cases hi

theorem Core.Orderly.move_commit (ho : c.Orderly) (hm : Move origin input c c' effects records) :
    c.state.volatileState.commitIndex ≤ c'.state.volatileState.commitIndex := by
  have key : ∀ {result : Figure2.StepResult}, Stepped c.state result → c'.state = result.state →
      c.state.volatileState.commitIndex ≤ c'.state.volatileState.commitIndex := by
    intro result hst hs
    rw [hs]
    exact hst.frame.commit
  cases hm with
  | tidy hs | logPersisted _ _ hs => rw [hs.state]
  | event _ hi hstep ht =>
    exact key (ho.stepped hi.ne_apply hstep) ht.same.state
  | defer _ _ _ _ _ hstep ht | release _ _ hstep ht =>
    exact key (ho.stepped (by simp) hstep) ht.same.state
  | follow _ _ _ _ _ _ ht =>
    exact key (ho.following) ht.same.state
  | persistedLocal | restored => exact le_max_left _ _
  | _ => exact le_rfl

theorem Core.Orderly.step_commit (ho : c.Orderly) (hs : c.step input = .ok (c', r)) :
    c.state.volatileState.commitIndex ≤ c'.state.volatileState.commitIndex :=
  ((step_moves ho hs).induction (P := fun x => x.Orderly ∧
      c.state.volatileState.commitIndex ≤ x.state.volatileState.commitIndex)
    (fun ⟨hx, hle⟩ hm => ⟨hx.move hm, hle.trans (hx.move_commit hm)⟩) ⟨ho, le_rfl⟩).2

end

/-! ## Applications in flight -/

/-- The call ends the application: it is complete, it has failed, or a snapshot that contains
its entry has replaced the state machine. -/
def Call.settles (call : Call) (q : ApplyLogEntry) : Bool :=
  match call.input with
  | .logEntryApplied requestId _ => q.requestId == requestId
  | .logEntryApplyFailed requestId _ => q.requestId == requestId
  | .raftSnapshotRestored _ index => decide (q.entry.index ≤ index)
  | _ => false

/-- The applications the calls have started and not ended. -/
def inFlight (calls : List Call) : List ApplyLogEntry :=
  calls.foldl (fun flying call =>
    flying.filter (fun q => !call.settles q) ++ applications call.result.effects) []

/-- The application a core knows to be in flight. -/
def Core.flying (c : Core) : List ApplyLogEntry :=
  ((c.pendingApplication.filter fun p => !p.blocked).map PendingApplication.request).toList

theorem Core.length_flying_le (c : Core) : c.flying.length ≤ 1 := by
  rw [flying]
  cases (c.pendingApplication.filter fun p => !p.blocked).map PendingApplication.request <;> simp

section

variable {a : Recovery} {calls : List Call} {call : Call} {c c' : Core} {r : StepResult}

theorem Handed.flying {effects : List Effect} (h : Handed before c'.pendingApplication effects) :
    ((before.filter fun p => !p.blocked).map PendingApplication.request).toList ++
      applications effects = c'.flying := by
  rcases h with ⟨he, ha⟩ | ⟨rfl, q, he, ha⟩
  · rw [Core.flying, he, ha, append_nil]
  · rw [Core.flying, he, ha]
    rfl

/-- A call ends the application in flight exactly when the core forgets it. -/
theorem Core.flying_step (hl : c.Logged L) (ha : c.Applying) (hs : c.step input = .ok (c', r)) :
    (c.flying.filter fun q => !(Call.mk c input r c').settles q) ++ applications r.effects =
      c'.flying := by
  obtain ⟨between, hset, hh⟩ := step_settled hl ha hs
  rw [← hh.flying]
  congr 1
  generalize c'.state.volatileState.lastApplied = applied at hset
  cases hset with
  | applied hp hb => simp [flying, Call.settles, hp, hb]
  | failed hp hb => simp [flying, Call.settles, hp, hb, filter_some]
  | retried hp => simp [flying, hp]
  | restored hlt =>
    simp only [flying, Call.settles]
    cases hp : c.pendingApplication with
    | none => rfl
    | some p =>
      obtain ⟨_, hindex, _⟩ := ha p hp
      cases hb : p.blocked <;> simp [hb]
      omega
  | other ha hf _ hr =>
    have hkeep : ∀ q, (Call.mk c input r c').settles q = false := by
      intro q
      cases input <;> first
        | rfl
        | exact absurd rfl (ha _ _)
        | exact absurd rfl (hf _ _)
        | exact absurd rfl (hr _ _)
    simp [flying, hkeep]

theorem inFlight_append (calls : List Call) (call : Call) :
    inFlight (calls ++ [call]) =
      (inFlight calls).filter (fun q => !call.settles q) ++ applications call.result.effects := by
  simp [inFlight]

theorem CoreRun.applying (run : CoreRun a calls c) :
    c.Logged (confirmedLog a calls) ∧ c.Applying ∧ inFlight calls = c.flying := by
  induction run with
  | start hm hs =>
    have hd := durable_of_make hm hs
    obtain ⟨_, _, _, _, happ, _⟩ := make_eq_ok hm
    obtain ⟨hsame, _⟩ := start_eq_ok hs
    refine ⟨hd.toLogged, fun p hp => ?_, ?_⟩
    · obtain ⟨hlog, _, hrest⟩ := hd.application p hp
      exact ⟨hlog, hrest⟩
    · rw [flying, hsame.pendingApplication]
      show _ = ((Option.filter _ _).map _).toList
      rw [happ]
      rfl
  | step run h ih =>
    obtain ⟨hl, ha, hf⟩ := ih
    rw [confirmedLog_append, inFlight_append, hf]
    exact ⟨hl.step h, ha.step hl h, flying_step hl ha h⟩

/-! ## Recovery -/

/-- How far a durable record says the state machine has come. -/
def Record.reach : Record → Nat
  | .applied index => index
  | .snapshot metadata _ => metadata.lastIncludedIndex
  | _ => 0

/-- How far recovered records say the state machine has come. -/
def Recovered.reach (r : Recovered) : Nat :=
  max r.applied ((r.snapshot.map fun s => s.metadata.lastIncludedIndex).getD 0)

theorem Recovered.read_reach {r r' : Recovered} {record : Record} (h : r.read record = .ok r') :
    r.reach ≤ r'.reach ∧ record.reach ≤ r'.reach := by
  cases record with
  | hardState state =>
    simp only [Recovered.read, bind_eq_ok, pure_eq_ok] at h
    obtain ⟨_, _, rfl⟩ := h
    exact ⟨le_rfl, Nat.zero_le _⟩
  | log log =>
    cases h
    exact ⟨le_rfl, Nat.zero_le _⟩
  | applied index =>
    simp only [Recovered.read, ite_error_eq_ok] at h
    obtain ⟨hle, h⟩ := h
    cases h
    simp only [Recovered.reach, Record.reach]
    omega
  | snapshot metadata state =>
    simp only [Recovered.read, ite_error_eq_ok] at h
    obtain ⟨hlt, h⟩ := h
    cases h
    simp only [Recovered.reach, Record.reach]
    cases hs : r.snapshot with
    | none => simp
    | some s =>
      have : ¬ metadata.lastIncludedIndex ≤ s.metadata.lastIncludedIndex := by
        simpa [hs] using hlt
      simp only [map_some, getD_some]
      omega

theorem Recovered.readAll_reach {records : List DurableRecord} {r r' : Recovered}
    (h : r.readAll records = .ok r') :
    r.reach ≤ r'.reach ∧ ∀ d ∈ records, d.record.reach ≤ r'.reach := by
  induction records generalizing r with
  | nil =>
    cases h
    exact ⟨le_rfl, by simp⟩
  | cons record rest ih =>
    simp only [Recovered.readAll, bind_eq_ok] at h
    obtain ⟨r₁, h₁, h⟩ := h
    obtain ⟨hle, hrecord⟩ := Recovered.read_reach h₁
    obtain ⟨hle', hrest⟩ := ih h
    refine ⟨hle.trans hle', fun d hd => ?_⟩
    rcases mem_cons.mp hd with rfl | hd
    · exact hrecord.trans hle'
    · exact hrest d hd

theorem Core.Settled.le {applied : Nat}
    (h : c.Settled input between applied) : c.state.volatileState.lastApplied ≤ applied := by
  cases h <;> omega

/-- A recovered core takes everything the records speak of for applied, and goes on from
there. -/
theorem CoreRun.reach_le {config : SimulationConfig} {self : NodeId} {peers : List NodeId}
    {recovered : Recovered} (run : CoreRun (config.recovery self peers recovered) calls c) :
    recovered.reach ≤ c.state.volatileState.lastApplied := by
  generalize ha : config.recovery self peers recovered = a at run
  induction run with
  | start hm hs =>
    subst ha
    obtain ⟨_, hrec, _⟩ := make_eq_ok hm
    obtain ⟨hsame, _⟩ := start_eq_ok hs
    obtain ⟨_, _, _, _, _, _, _, _, hnone, hsome⟩ := recoverState_eq_ok hrec
    rw [hsame.state]
    show _ ≤ Figure2.VolatileState.lastApplied _
    cases hd : recovered.snapshot with
    | none =>
      rw [(hnone hd).2]
      simp [Recovered.reach, hd, SimulationConfig.recovery]
    | some s =>
      rw [(hsome s hd).2]
      simp [Recovered.reach, hd, SimulationConfig.recovery]
  | step run h ih =>
    obtain ⟨hl, happ, _⟩ := run.applying
    obtain ⟨_, hset, _⟩ := step_settled hl happ h
    exact ih.trans hset.le

/-! ## Ordered exactly-once application -/

/-- What a call that follows `calls` does to the applied entries. -/
structure Ordered (calls : List Call) (call : Call) : Prop where
  /-- The entry handed out is the next committed one. -/
  next : ∀ q, .applyLogEntry q ∈ call.result.effects →
    q.entry.index = call.after.state.volatileState.lastApplied + 1 ∧
      q.entry.index ≤ call.after.state.volatileState.commitIndex ∧
      Figure2.entryAt call.after.state q.entry.index = .ok q.entry
  single : (inFlight (calls ++ [call])).length ≤ 1
  applied : call.after.state.volatileState.lastApplied =
      call.before.state.volatileState.lastApplied ∨
    (∃ p, call.before.pendingApplication = some p ∧ p.blocked = false ∧
      call.input = .logEntryApplied p.request.requestId
        (call.before.state.volatileState.lastApplied + 1) ∧
      call.after.state.volatileState.lastApplied =
        call.before.state.volatileState.lastApplied + 1) ∨
    ∃ requestId index, call.input = .raftSnapshotRestored requestId index ∧
      call.before.state.volatileState.lastApplied < index ∧
      call.after.state.volatileState.lastApplied = index
  commit : call.before.state.volatileState.commitIndex ≤
    call.after.state.volatileState.commitIndex

theorem Core.Applying.entryAt (ho : c.Orderly) (h : c.Applying) {p : PendingApplication}
    (hp : c.pendingApplication = some p) :
    Figure2.entryAt c.state p.request.entry.index = .ok p.request.entry := by
  obtain ⟨hget, hlt⟩ := ho.contiguous.getElem? (h p hp).1
  refine Figure2.entryAt_eq_ok.mpr ⟨by omega, ?_⟩
  rw [← hget, Nat.sub_sub]

theorem CoreRun.handed (run : CoreRun a calls c) (hs : c.step input = .ok (c', r))
    (hq : .applyLogEntry q ∈ r.effects) :
    c'.pendingApplication = some ⟨q, false⟩ := by
  obtain ⟨hl, ha, _⟩ := run.applying
  obtain ⟨_, _, hh⟩ := step_settled hl ha hs
  rw [← mem_applications] at hq
  rcases hh with ⟨hnil, _⟩ | ⟨_, q', hone, hafter⟩
  · rw [hnil] at hq
    cases hq
  · rw [hone, mem_singleton] at hq
    rw [hq, hafter]

/-- **Ordered exactly-once application.** The core hands out the committed entries one at a
time and in order, and a core recovered from durable records never hands out an entry they
already account for. -/
theorem application_ordered {later : List Call} (run : CoreRun a (calls ++ call :: later) c) :
    Ordered calls call ∧
      ∀ (config : SimulationConfig) (self : NodeId) (peers : List NodeId) (r : Recovered)
        (records : List DurableRecord), Recovered.readAll {} records = .ok r →
        a = config.recovery self peers r → ∀ q, .applyLogEntry q ∈ call.result.effects →
        ∀ d ∈ records, d.record.reach < q.entry.index := by
  obtain ⟨hrun, hstep⟩ := run.before
  have hrun' := hrun.step hstep
  obtain ⟨hl, ha, _⟩ := hrun.applying
  obtain ⟨hl', ha', hflying⟩ := hrun'.applying
  obtain ⟨_, hset, _⟩ := Core.step_settled hl ha hstep
  have hnext := fun q => hrun.handed hstep (q := q)
  refine ⟨⟨fun q hq => ?_, ?_, ?_, hl.orderly.step_commit hstep⟩, ?_⟩
  · obtain ⟨_, hindex, hle⟩ := ha' _ (hnext q hq)
    exact ⟨hindex, hle, ha'.entryAt hl'.orderly (hnext q hq)⟩
  · rw [show calls ++ [call] = calls ++ [⟨call.before, call.input, call.result, call.after⟩] from
      rfl, hflying]
    exact call.after.length_flying_le
  · generalize hi : call.input = input at hset
    generalize hx : call.after.state.volatileState.lastApplied = applied at hset
    cases hset with
    | applied hp hb => exact .inr (.inl ⟨_, hp, hb, rfl, rfl⟩)
    | restored hlt => exact .inr (.inr ⟨_, _, rfl, hlt, rfl⟩)
    | _ => exact .inl rfl
  · rintro config self peers r records hread rfl q hq d hd
    have hreach := hrun'.reach_le
    have := (Recovered.readAll_reach hread).2 d hd
    have hindex : q.entry.index = _ := (ha' _ (hnext q hq)).2.1
    omega

end

/-- The disk of a node that has applied its first entry. -/
def appliedRecords : List DurableRecord :=
  [⟨1, .hardState ⟨1, none⟩⟩, ⟨logRequestBase, .log [⟨1, 1, sampleCommand 1⟩]⟩,
    ⟨applicationRequestBase, .applied 1⟩]

def appliedDisk : Recovered :=
  { hardState := ⟨1, none⟩, log := [⟨1, 1, sampleCommand 1⟩], applied := 1 }

/-- After a restart the node goes on with the second entry. -/
theorem application_ordered_restarted :
    ∃ calls call q, CoreRun (SimulationConfig.recovery {} 1 [2, 3] appliedDisk) (calls ++ [call])
        call.after ∧ Recovered.readAll {} appliedRecords = .ok appliedDisk ∧
      .applyLogEntry q ∈ call.result.effects ∧ q.entry.index = 2 ∧ Ordered calls call ∧
      ∀ d ∈ appliedRecords, d.record.reach < q.entry.index := by
  have hread : Recovered.readAll {} appliedRecords = .ok appliedDisk := rfl
  obtain ⟨calls, call, run, h⟩ := @CoreRun.of_accepts
    (SimulationConfig.recovery {} 1 [2, 3] appliedDisk)
    [.receiveAppendEntries 2 ⟨1, 2, 1, 1, [⟨1, 2, sampleCommand 2⟩], 2, none⟩]
    (.raftLogPersisted ⟨logRequestBase, [⟨1, 1, sampleCommand 1⟩, ⟨1, 2, sampleCommand 2⟩]⟩)
    (fun _ call => decide (.applyLogEntry ⟨applicationRequestBase, 1, 2, sampleCommand 2⟩ ∈
      call.result.effects))
    (by decide +kernel)
  have hmem := of_decide_eq_true h
  obtain ⟨hordered, hrecords⟩ := application_ordered run
  exact ⟨calls, call, _, run, hread, hmem, rfl, hordered,
    hrecords _ _ _ _ appliedRecords hread rfl _ hmem⟩

end KuraMetadata.Election
