import KuraMetadata.Raft.Core.Moves

/-! # The order of the disk requests of a core

`Core.Orderly` is kept by every move, whatever the inputs are. This is what lets
`Core.step_moves` take apart every step of a run. -/

namespace KuraMetadata.Election

open Election.Core List
open Figure2 (base following Contiguous Stepped)

variable {a : Recovery} {s : Figure2.State} {r : StepResult} {calls : List Call}
variable {event : Figure2.Event} {sender : NodeId} {previous : RaftRole}
variable {visible : List Figure2.Effect} {completion : PersistRaftHardState} {input : Input}
variable {c c₁ c' : Core} {effects : List Effect} {result : Figure2.StepResult}

/-! ## Compaction -/

theorem compactedLog_cases (s : Figure2.State) (m : SnapshotMetadata) :
    compactedLog s m = [] ∨ (base s = m.lastIncludedIndex ∧ compactedLog s m = s.persistent.log) ∨
      (base s < m.lastIncludedIndex ∧
        (∃ e, s.persistent.log[m.lastIncludedIndex - base s - 1]? = some e ∧
          e.term = m.lastIncludedTerm) ∧
        compactedLog s m = s.persistent.log.drop (m.lastIncludedIndex - base s)) := by
  simp only [compactedLog]
  split
  case isTrue hsame =>
    split
    case isTrue =>
      refine .inr (.inl ⟨?_, rfl⟩)
      cases hm : s.persistent.snapshot with
      | none => simp [hm] at hsame
      | some m' =>
        simp only [hm, Option.any_some, decide_eq_true_eq] at hsame
        simp [base, hm, hsame]
    case isFalse => exact .inl rfl
  case isFalse =>
    split
    case isTrue hlt =>
      cases he : s.persistent.log[m.lastIncludedIndex - base s - 1]? with
      | none => exact .inl rfl
      | some e =>
        simp only
        split
        case isTrue ht =>
          refine .inr (.inr ⟨hlt, ⟨e, rfl, ht⟩, ?_⟩)
          rw [Nat.sub_add_cancel (by omega)]
        case isFalse => exact .inl rfl
    case isFalse => exact .inl rfl

theorem compactedLog_suffix (s : Figure2.State) (m : SnapshotMetadata) :
    compactedLog s m <:+ s.persistent.log := by
  rcases compactedLog_cases s m with h | ⟨_, h⟩ | ⟨_, _, h⟩
  · exact h ▸ nil_suffix
  · exact h ▸ suffix_refl _
  · exact h ▸ drop_suffix _ _

theorem compactedLog_contiguous (m : SnapshotMetadata)
    (hc : Contiguous (base s + 1) s.persistent.log) :
    Contiguous (m.lastIncludedIndex + 1) (compactedLog s m) := by
  rcases compactedLog_cases s m with h | ⟨hb, h⟩ | ⟨hlt, _, h⟩ <;> rw [h]
  · exact Figure2.contiguous_nil _
  · rwa [← hb]
  · have := hc.drop (m.lastIncludedIndex - base s)
    rwa [show base s + 1 + (m.lastIncludedIndex - base s) = m.lastIncludedIndex + 1 by omega]
      at this

theorem compactedLog_own {m : SnapshotMetadata} {e : LogEntry} (hlt : base s < m.lastIncludedIndex)
    (he : s.persistent.log[m.lastIncludedIndex - base s - 1]? = some e)
    (ht : e.term = m.lastIncludedTerm) :
    compactedLog s m = s.persistent.log.drop (m.lastIncludedIndex - base s) := by
  have hsame : (s.persistent.snapshot.any fun m' =>
      m.lastIncludedIndex = m'.lastIncludedIndex) = false := by
    cases hm : s.persistent.snapshot with
    | none => rfl
    | some m' =>
      simp only [base, hm] at hlt
      simp only [Option.any_some, decide_eq_false_iff_not]
      omega
  simp only [compactedLog, hsame, Bool.false_eq_true, if_false, if_pos hlt, he, if_pos ht]
  rw [Nat.sub_add_cancel (by omega)]

/-! ## Moves keep the order -/

section

variable {origin : Core} {records : List Record}

theorem Core.Orderly.of_alike (h : c.Orderly) (hs : c.Alike c') : c'.Orderly where
  peers := hs.state ▸ h.peers
  contiguous := hs.state ▸ h.contiguous
  held := hs.state ▸ h.held
  install := by
    rw [hs.installAfterHardState, hs.state]
    exact h.install
  writing := by
    rw [hs.pendingLog, hs.state, hs.pendingSnapshot, hs.pendingSnapshotRestore]
    exact h.writing
  exclusive := by
    rw [hs.pendingSnapshot, hs.pendingSnapshotRestore]
    exact h.exclusive

theorem Core.Orderly.stepped (h : c.Orderly) (hne : event ≠ .applyCommitted)
    (hstep : Figure2.step c.state event = .ok result) : Stepped c.state result :=
  Figure2.step_stepped h.peers hne h.held hstep

theorem Core.Orderly.following (h : c.Orderly) :
    Stepped c.state ⟨following c.state sender, [], [.resetElectionTimer]⟩ :=
  Figure2.following_stepped h.held h.contiguous

/-- A translated step leaves an orderly core, provided the snapshot that is left waiting waits
for a hard-state write. -/
theorem Translated.orderly (ht : Translated c result previous c₁ visible effects)
    (hp : c.state.peers ≠ []) (hu : c.Unblocked) (hst : Stepped c.state result)
    {x : Option (NodeId × InstallSnapshotRequest)}
    (hx : ∀ y, x = some y → ∃ p, result.state.pendingHardState = some p ∧ p.deferredEffects = []) :
    ({ c₁ with installAfterHardState := x } : Core).Orderly := by
  have hstate : c₁.state = result.state := ht.same.state
  have hsnap : c₁.pendingSnapshot = none := ht.same.pendingSnapshot.trans hu.snapshot
  have hrest : c₁.pendingSnapshotRestore = none := ht.same.pendingSnapshotRestore.trans hu.restore
  exact {
    peers := by
      show c₁.state.peers ≠ []
      rw [hstate, hst.frame.peers]
      exact hp
    contiguous := hstate ▸ hst.contiguous
    held := hstate ▸ hst.held
    install := fun y hy => by
      show ∃ p, c₁.state.pendingHardState = some p ∧ _
      rw [hstate]
      exact hx y hy
    writing := by
      intro p hp
      refine ⟨?_, hsnap, hrest⟩
      have hp : c₁.pendingLog = some p := hp
      cases ht.gate with
      | through _ hl =>
        rw [hl, hu.log] at hp
        cases hp
      | cut he =>
        -- The log write is among the effects, so the step left no hard-state write.
        show c₁.state.pendingHardState = none
        rw [hstate]
        by_contra hne
        have hquiet := hst.quiet (Option.isSome_iff_ne_none.mpr hne) .persistState (by simp [he])
        cases hquiet
    exclusive := .inl hsnap }

variable (h : c.Orderly)
include h

theorem Core.Orderly.compactTo (hu : c.Unblocked) (snapshot : RaftSnapshot) :
    (c.compactTo snapshot).Orderly where
  __ := h
  contiguous := compactedLog_contiguous _ h.contiguous
  held p hp := ⟨(h.held p hp).term, (h.held p hp).writes, (h.held p hp).logFirst⟩
  writing p hp := by
    have : c.pendingLog = some p := hp
    rw [hu.log] at this
    cases this
  exclusive := .inl hu.snapshot

/-- While a snapshot is being published, nothing else but the hard state is outstanding. -/
theorem Core.Orderly.unblocked_of_publishing {p : PendingSnapshotPersistence}
    (hp : c.pendingSnapshot = some p) :
    ({ c with pendingSnapshot := none } : Core).Unblocked where
  log := by
    cases hl : c.pendingLog with
    | none => rfl
    | some l =>
      have := (h.writing l hl).2.1
      rw [hp] at this
      cases this
  snapshot := rfl
  restore := h.exclusive.resolve_left (by simp [hp])

theorem Core.Orderly.unblocked_of_restoring {p : PendingSnapshotRestore}
    (hp : c.pendingSnapshotRestore = some p) :
    ({ c with pendingSnapshotRestore := none } : Core).Unblocked where
  log := by
    cases hl : c.pendingLog with
    | none => rfl
    | some l =>
      have := (h.writing l hl).2.2
      rw [hp] at this
      cases this
  snapshot := h.exclusive.resolve_right (by simp [hp])
  restore := rfl

theorem Core.Orderly.publishing (hu : c.Unblocked) (snapshot : RaftSnapshot)
    (reply : Option (NodeId × InstallSnapshotResponse)) (localCreation : Bool) :
    (c.publishing snapshot reply localCreation).Orderly :=
  { h with
    writing := fun p hp => by
      have : c.pendingLog = some p := hp
      rw [hu.log] at this
      cases this
    exclusive := .inr hu.restore }

/-- A waiting snapshot is gone once the write it waited for is complete. -/
theorem Core.Orderly.install_released
    (hstep : Figure2.step c.state (.raftHardStatePersisted completion) = .ok result)
    (hp : result.state.pendingHardState.isSome) : c.installAfterHardState = none := by
  cases hi : c.installAfterHardState with
  | none => rfl
  | some y =>
    obtain ⟨p, hpend, hdef⟩ := h.install y hi
    rw [(Figure2.step_completed_effects h.peers hpend (by simp [hdef, Figure2.Ungated])
      hstep).1] at hp
    cases hp

theorem Core.Orderly.move (hm : Move origin input c c' effects records) : c'.Orderly := by
  cases hm with
  | tidy hs => exact h.of_alike hs
  | @event event result _ _ _ _ hu hi hstep ht =>
    refine ht.orderly h.peers hu (h.stepped hi.ne_apply hstep) ?_
    intro y hy
    rw [ht.same.installAfterHardState] at hy
    obtain ⟨p, hp, _⟩ := h.install y hy
    have hpend := (Figure2.step_outcome h.peers hi.ne_apply hstep).2.2.1
    simp [hp, hi.not_completion] at hpend
  | defer hu _ _ _ hlt hstep ht =>
    refine ht.orderly h.peers ⟨hu.log, hu.snapshot, hu.restore⟩
      (h.stepped (by simp) hstep) ?_
    intro y _
    rw [(Figure2.step_observeTerm hstep hlt).1]
    exact ⟨_, rfl, rfl⟩
  | @release completion result c₁ _ _ hu _ hstep ht =>
    refine ht.orderly h.peers hu (h.stepped (by simp) hstep) ?_
    intro y hy
    split at hy
    case isTrue hsome =>
      rw [ht.same.state] at hsome
      rw [ht.same.installAfterHardState] at hy
      rw [h.install_released hstep hsome] at hy
      cases hy
    case isFalse => cases hy
  | respond => exact h
  | follow hu _ _ _ _ _ ht =>
    refine ht.orderly h.peers hu (h.following) ?_
    intro y hy
    rw [ht.same.installAfterHardState] at hy
    exact h.install y hy
  | publishReceived hu | publishLocal hu => exact h.publishing hu _ _ _
  | persistedLocal _ hp =>
    refine Core.Orderly.compactTo ?_ (h.unblocked_of_publishing hp) _
    exact { h with
      writing := fun l hl => by cases hp.symm.trans (h.writing l hl).2.1
      exclusive := .inl rfl }
  | persistedReceived _ hp =>
    exact { h with
      writing := fun l hl => by cases hp.symm.trans (h.writing l hl).2.1
      exclusive := .inl rfl }
  | restored _ hp =>
    refine Core.Orderly.compactTo ?_ (h.unblocked_of_restoring hp) _
    exact { h with
      writing := fun l hl => by cases hp.symm.trans (h.writing l hl).2.2
      exclusive := .inr rfl }
  | applied => exact { h with
      held := fun q hq => ⟨(h.held q hq).term, (h.held q hq).writes, (h.held q hq).logFirst⟩ }
  | applyFailed | retry | schedule => exact { h with }
  | logPersisted _ _ hs =>
    refine Core.Orderly.of_alike ?_ hs
    exact { h with writing := fun _ hp => by cases hp }

theorem Core.Orderly.move_members (hm : Move origin input c c' effects records) :
    c'.state.node = c.state.node ∧ c'.state.peers = c.state.peers := by
  have key : ∀ {result : Figure2.StepResult}, Stepped c.state result → c'.state = result.state →
      c'.state.node = c.state.node ∧ c'.state.peers = c.state.peers := by
    intro result hst hs
    rw [hs]
    exact ⟨hst.frame.node, hst.frame.peers⟩
  cases hm with
  | tidy hs | logPersisted _ _ hs => rw [hs.state]; exact ⟨rfl, rfl⟩
  | event _ hi hstep ht =>
    exact key (h.stepped hi.ne_apply hstep) ht.same.state
  | defer _ _ _ _ _ hstep ht | release _ _ hstep ht =>
    exact key (h.stepped (by simp) hstep) ht.same.state
  | follow _ _ _ _ _ _ ht =>
    exact key (h.following) ht.same.state
  | _ => exact ⟨rfl, rfl⟩

theorem Core.Orderly.step (hs : c.step input = .ok (c', r)) : c'.Orderly :=
  (step_moves h hs).induction Core.Orderly.move h

theorem Core.Orderly.step_members (hs : c.step input = .ok (c', r)) :
    c'.state.node = c.state.node ∧ c'.state.peers = c.state.peers := by
  refine ((step_moves h hs).induction (P := fun x => x.Orderly ∧
    x.state.node = c.state.node ∧ x.state.peers = c.state.peers) ?_ ⟨h, rfl, rfl⟩).2
  rintro x x' effects records ⟨hx, hnode, hpeers⟩ hm
  obtain ⟨hn, hp⟩ := hx.move_members hm
  exact ⟨hx.move hm, hn.trans hnode, hp.trans hpeers⟩

end

/-! ## From the start -/

theorem Core.orderly_of_make {c₀ : Core} (hm : make a = .ok c₀)
    (hs : c₀.start = .ok (c, r)) : c.Orderly := by
  obtain ⟨hcheck, hrec, hwf, hlog, _, hsnap, hrest, hinst, _⟩ := make_eq_ok hm
  obtain ⟨hsame, _⟩ := start_eq_ok hs
  obtain ⟨_, hpeers, _, _, _, _, hpend, _⟩ := recoverState_eq_ok hrec
  refine Core.Orderly.of_alike ?_ hsame
  exact {
    peers := by
      show c₀.state.peers ≠ []
      rw [hpeers]
      intro hnil
      have := (checkConfiguration_eq_ok hcheck).2.1
      simp [hnil] at this
    contiguous := hwf.contiguous
    held := fun p hp => by
      have : c₀.state.pendingHardState = some p := hp
      rw [hpend] at this
      cases this
    install := fun x hx => by
      have : c₀.installAfterHardState = some x := hx
      rw [hinst] at this
      cases this
    writing := fun p hp => by
      have : c₀.pendingLog = some p := hp
      rw [hlog] at this
      cases this
    exclusive := .inl hsnap }

theorem CoreRun.orderly (run : CoreRun a calls c) : c.Orderly := by
  induction run with
  | start hm hs => exact orderly_of_make hm hs
  | step _ h ih => exact ih.step h

theorem CoreRun.before {later : List Call} {call : Call}
    (run : CoreRun a (calls ++ call :: later) c) :
    CoreRun a calls call.before ∧ call.before.step call.input = .ok (call.after, call.result) := by
  generalize hl : calls ++ call :: later = l at run
  induction run generalizing later with
  | start => simp at hl
  | @step calls' c₁ c₂ input r run h ih =>
    rcases eq_nil_or_concat later with rfl | ⟨later', last, rfl⟩
    · obtain ⟨rfl, hcall⟩ := append_inj' hl rfl
      rw [List.cons.injEq] at hcall
      obtain ⟨rfl, _⟩ := hcall
      exact ⟨run, h⟩
    · rw [concat_eq_append, ← cons_append, ← append_assoc] at hl
      exact ih (append_inj' hl rfl).1

/-- Inputs that a core accepts make a run, which ends with the call of the last one. -/
theorem CoreRun.of_accepts {inputs : List Input} {input : Input} {P : List Call → Call → Bool}
    (h : a.accepts inputs input P = true) :
    ∃ calls call, CoreRun a (calls ++ [call]) call.after ∧ P calls call = true := by
  have key : ∀ inputs calls c, CoreRun a calls c → ∀ calls' c',
      exec calls c inputs = some (calls', c') → CoreRun a calls' c' := by
    intro inputs
    induction inputs with
    | nil =>
      intro calls c run calls' c' h
      cases h
      exact run
    | cons input rest ih =>
      intro calls c run calls' c' h
      simp only [exec] at h
      split at h
      case h_1 c₁ r hs => exact ih _ _ (run.step hs) _ _ h
      case h_2 => cases h
  simp only [Recovery.accepts] at h
  split at h
  case h_2 => cases h
  case h_1 c₀ hm =>
    split at h
    case h_2 => cases h
    case h_1 c r hs =>
      split at h
      case h_2 => cases h
      case h_1 calls c₁ hex =>
        split at h
        case h_2 => cases h
        case h_1 c₂ r₂ hstep =>
          exact ⟨calls, _, (key inputs [] c (.start hm hs) calls c₁ hex).step hstep, h⟩

/-! ## Messages leave an idle core

A step that sends a message has nothing left to write when it ends: the gates keep the
messages back otherwise. -/

section

variable {e : Effect} {f : Figure2.Effect}

theorem message?_of_bookkeeping (h : e.bookkeeping = true) : e.message? = none := by
  cases e <;> first | rfl | cases h

theorem message?_of_quiet (hq : f.quiet = true) (h : direct? f = some e) : e.message? = none := by
  cases f with
  | persistRaftHardState q =>
    cases h
    rfl
  | resetElectionTimer => cases h
  | _ => cases hq

/-- A message that a translated step lets out finds the state on disk. -/
theorem Translated.on_disk (ht : Translated c result previous c₁ visible effects) (hu : c.Unblocked)
    (hst : Stepped c.state result) (hf : f ∈ visible) (hq : f.quiet = false) :
    f ∈ result.effects ∧ result.state.pendingHardState = none ∧ c₁.pendingLog = none := by
  cases ht.gate with
  | through _ hl hv =>
    rw [hv] at hf
    refine ⟨hf, ?_, hl.trans hu.log⟩
    by_contra hne
    rw [hst.quiet (Option.isSome_iff_ne_none.mpr hne) f hf] at hq
    cases hq
  | cut he =>
    rw [hst.logFirst visible _ he f hf] at hq
    cases hq

theorem LogGate.subset {l : List Figure2.Effect} (h : LogGate c c' l visible) : visible ⊆ l := by
  cases h with
  | through _ _ hv => exact hv ▸ List.Subset.refl _
  | cut he =>
    rw [he]
    exact subset_append_left _ _

theorem Translated.message (ht : Translated c result previous c₁ visible effects) (he : e ∈ effects)
    (hm : e.message? ≠ none) : ∃ f ∈ visible, f.quiet = false := by
  cases ht.emitted e he with
  | bookkeeping hb => exact absurd (message?_of_bookkeeping hb) hm
  | log => exact absurd rfl hm
  | @direct f _ hf hd =>
    refine ⟨f, hf, ?_⟩
    cases hq : f.quiet with
    | true => exact absurd (message?_of_quiet hq hd) hm
    | false => rfl
  | install hf => exact ⟨_, hf, rfl⟩

/-- A message in a translation comes from the step, not from the application after it. -/
theorem Core.translate_message (h : c.translate result previous = .ok (c', r)) (he : e ∈ r.effects)
    (hm : e.message? ≠ none) :
    ∃ c₁ visible effects, Translated c result previous c₁ visible effects ∧ e ∈ effects ∧
      c'.state = c₁.state ∧ c'.pendingLog = c₁.pendingLog := by
  obtain ⟨c₁, visible, effects, ht, hcase⟩ := translate_eq_ok h
  rcases hcase with ⟨_, _, hs⟩ | ⟨_, rfl, rfl⟩
  · cases hs with
    | idle => exact ⟨_, _, _, ht, he, rfl, rfl⟩
    | apply =>
      rcases mem_append.mp he with he | he
      · exact ⟨_, _, _, ht, he, rfl, rfl⟩
      · rw [mem_singleton.mp he] at hm
        exact absurd rfl hm
  · exact ⟨_, _, _, ht, he, rfl, rfl⟩

/-- Nothing is outstanding. -/
structure Core.Idle (c : Core) : Prop extends Core.Unblocked c where
  hardState : c.state.pendingHardState = none

theorem Core.transition_idle (ho : c.Orderly) (hu : c.Unblocked)
    (hne : event ≠ .applyCommitted) (h : c.transition event = .ok (c', r)) (he : e ∈ r.effects)
    (hm : e.message? ≠ none) : c'.Idle := by
  obtain ⟨result, hstep, htr⟩ := transition_eq_ok h
  obtain ⟨_, hsnap, hrest, _⟩ := translate_frame htr
  obtain ⟨c₁, visible, effects, ht, he, hstate, hlog⟩ := translate_message htr he hm
  obtain ⟨f, hf, hq⟩ := ht.message he hm
  obtain ⟨_, hn, hl⟩ := ht.on_disk hu (ho.stepped hne hstep) hf hq
  exact ⟨⟨hlog.trans hl, hsnap.trans hu.snapshot, hrest.trans hu.restore⟩,
    by rw [hstate, ht.same.state]; exact hn⟩

/-- The answer to a snapshot is the only message it causes at once. -/
theorem Core.receiveSnapshot_message {request : InstallSnapshotRequest}
    (hu : c.Unblocked) (hn : c.state.pendingHardState = none)
    (h : c.receiveSnapshot sender request = .ok (c', r)) (he : e ∈ r.effects)
    (hm : e.message? ≠ none) :
    (∃ response, e = .sendInstallSnapshotResponse sender response) ∧ c'.Idle := by
  obtain ⟨_, _, hr⟩ := receiveSnapshot_eq_ok h
  cases hr with
  | refuse => exact ⟨⟨_, mem_singleton.mp he⟩, hu, hn⟩
  | later hlt ht =>
    obtain ⟨result, hstep, htr⟩ := transition_eq_ok ht
    obtain ⟨c₁, visible, effects, ht, he, _⟩ := translate_message htr he hm
    obtain ⟨f, hf, hq⟩ := ht.message he hm
    have := ht.gate.subset hf
    rw [(Figure2.step_observeTerm hstep hlt).2, mem_singleton] at this
    rw [this] at hq
    cases hq
  | @current c₁ _ r₁ _ _ _ htr ha =>
    -- Following the sender is silent.
    have hsilent : ∀ e ∈ r₁.effects, e.message? = none := by
      intro e he
      by_contra hm
      obtain ⟨c₂, visible, effects, ht, he, _⟩ := translate_message htr he hm
      obtain ⟨f, hf, hq⟩ := ht.message he hm
      have := ht.gate.subset hf
      rw [mem_singleton] at this
      rw [this] at hq
      cases hq
    cases ha with
    | answer =>
      rcases mem_append.mp he with he | he
      · exact absurd (hsilent e he) hm
      · obtain ⟨hstate, _⟩ := translate_frame htr
        obtain ⟨_, _, _, _, _, _, _, _, _, hun⟩ :=
          translate_moves c (.receiveInstallSnapshot sender request) htr
        exact ⟨⟨_, mem_singleton.mp he⟩, hun (by simp) hu, by rw [hstate]; exact hn⟩
    | publish =>
      rcases mem_append.mp he with he | he
      · exact absurd (hsilent e he) hm
      · rw [mem_singleton.mp he] at hm
        exact absurd rfl hm

/-- The completion of a hard-state write is a step of the specification, or it lets a waiting
snapshot in; in that case nothing else waited. -/
theorem Core.Orderly.raftHardStatePersisted (ho : c.Orderly)
    (hu : c.Unblocked) (h : c.raftHardStatePersisted completion = .ok (c', r)) :
    c.transition (.raftHardStatePersisted completion) = .ok (c', r) ∨
      ∃ (c₁ : Core) (sender : NodeId) (request : InstallSnapshotRequest) (r₁ r₂ : StepResult),
        c₁.Idle ∧ (∀ e ∈ r₁.effects, e.message? = none) ∧
        c₁.receiveSnapshot sender request = .ok (c', r₂) ∧
        r.effects = r₁.effects ++ r₂.effects := by
  obtain ⟨c₁, r₁, ht, hcase⟩ := raftHardStatePersisted_eq_ok h
  rcases hcase with ⟨_, rfl, rfl⟩ | ⟨sender, request, r₂, hsome, hnone, hrec, rfl⟩
  · exact .inl ht
  · obtain ⟨result, hstep, htr⟩ := transition_eq_ok ht
    obtain ⟨_, hsnap, hrest, hinst⟩ := translate_frame htr
    obtain ⟨p, hpend, hdef⟩ := ho.install (sender, request) (hinst ▸ hsome)
    have hresult := (Figure2.step_completed_effects ho.peers hpend
      (by simp [hdef, Figure2.Ungated]) hstep).1
    obtain ⟨_, _, _, _, _, _, _, _, _, hun⟩ :=
      translate_moves c (.raftHardStatePersisted completion) htr
    have hu₁ := hun (by simp [hresult, hdef]) hu
    refine .inr ⟨{ c₁ with installAfterHardState := none }, sender, request, r₁, r₂,
      ⟨⟨hu₁.log, hu₁.snapshot, hu₁.restore⟩, hnone⟩,
      fun e he => ?_, hrec, rfl⟩
    by_contra hm
    obtain ⟨c₂, visible, effects, ht, he, _⟩ := translate_message htr he hm
    obtain ⟨f, hf, _⟩ := ht.message he hm
    have := ht.gate.subset hf
    simp [hresult, hdef] at this

end

end KuraMetadata.Election
