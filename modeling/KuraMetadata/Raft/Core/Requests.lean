import KuraMetadata.Raft.Core.Orderly
import KuraMetadata.Raft.SimulationNode

/-! # The disk requests of a core

A core waits for at most one request of each kind. Every request it waits for was emitted by
the step that started to wait for it, and a completion ends the wait for what it completes
(`Core.Orderly.step_awaits`). -/

namespace KuraMetadata.Figure2

/-- The hard-state write that is outstanding after a step is one the step has emitted. -/
theorem step_write {s : State} {event : Event} {r : StepResult} (hp : s.peers ≠ [])
    (hne : event ≠ .applyCommitted) (h : step s event = .ok r)
    {p : PendingHardStatePersistence} (hpend : r.state.pendingHardState = some p) :
    .persistRaftHardState p.request ∈ r.effects := by
  obtain ⟨_, _, hcompl, r₀, ho, hg⟩ := step_outcome hp hne h
  cases hg with
  | through =>
    cases hev : event.isCompletion with
    | false =>
      rw [hev] at hcompl
      rw [ho.pending hev] at hpend
      simp [hpend] at hcompl
    | true =>
      cases ho with
      | released => cases hpend
      | idle he => rw [he] at hev; cases hev
      | observe he => cases event <;> simp_all [Event.term?, Event.isCompletion]
      | _ => cases hev
  | cut =>
    cases hpend
    simp

end KuraMetadata.Figure2

namespace KuraMetadata.Election

/-- The core waits for the completion of a disk request. -/
inductive Core.Awaits (c : Core) : DurableRecord → Prop where
  | log {p : PendingLogPersistence} (h : c.pendingLog = some p) :
      Awaits c ⟨p.request.requestId, .log p.request.log⟩
  | snapshot {p : PendingSnapshotPersistence} (h : c.pendingSnapshot = some p) :
      Awaits c ⟨p.request.requestId,
        .snapshot p.request.snapshot.metadata p.request.snapshot.state⟩
  | hardState {p : Figure2.PendingHardStatePersistence} (h : c.state.pendingHardState = some p) :
      Awaits c ⟨p.request.requestId, .hardState p.request.state⟩
  | application {p : PendingApplication} (h : c.pendingApplication = some p) :
      Awaits c ⟨p.request.requestId, .applied p.request.entry.index⟩

/-- The effects ask for the request. -/
def Asked (effects : List Effect) (q : DurableRecord) : Prop :=
  ∃ e ∈ effects, e.action? = some (.persist q)

section

variable {origin c c₁ c' : Core} {input : Input} {effects : List Effect} {records : List Record}
variable {q : DurableRecord}

/-- A completion fits the request it completes. -/
theorem Core.completion?_eq_some {requestId : Nat} (h : c.completion? requestId = some input) :
    ∃ record, c.Awaits ⟨requestId, record⟩ ∧ input.records = [record] := by
  simp only [Core.completion?] at h
  split at h
  case h_1 p hp =>
    obtain ⟨hp, hid⟩ := Option.filter_eq_some_iff.mp hp
    cases h
    rw [← of_decide_eq_true hid]
    exact ⟨_, .log hp, rfl⟩
  case h_2 =>
    split at h
    case h_1 p hp =>
      obtain ⟨hp, hid⟩ := Option.filter_eq_some_iff.mp hp
      cases h
      rw [← of_decide_eq_true hid]
      exact ⟨_, .snapshot hp, rfl⟩
    case h_2 =>
      split at h
      case h_1 p hp =>
        obtain ⟨hp, hid⟩ := Option.filter_eq_some_iff.mp hp
        cases h
        rw [← of_decide_eq_true hid]
        exact ⟨_, .hardState hp, rfl⟩
      case h_2 =>
        split at h
        case h_1 p hp =>
          obtain ⟨hp, hid⟩ := Option.filter_eq_some_iff.mp hp
          cases h
          rw [← of_decide_eq_true hid]
          exact ⟨_, .application hp, rfl⟩
        case h_2 => cases h

theorem Core.Awaits.of_alike (hs : c.Alike c') (h : c'.Awaits q) : c.Awaits q := by
  cases h with
  | log h => exact .log (hs.pendingLog ▸ h)
  | snapshot h => exact .snapshot (hs.pendingSnapshot ▸ h)
  | hardState h => exact .hardState (hs.state ▸ h)
  | application h => exact .application (hs.pendingApplication ▸ h)

theorem action?_withContext {e : Effect} (context : Option Nat)
    (h : e.action? = some (.persist q)) : (withContext context e).action? = some (.persist q) := by
  cases context with
  | none => exact h
  | some context =>
    cases e with
    | sendAppendEntries | sendInstallSnapshot => cases h
    | _ => exact h

theorem Asked.withContext (context : Option Nat) (h : Asked effects q) :
    Asked (effects.map (withContext context)) q := by
  obtain ⟨e, he, hq⟩ := h
  exact ⟨_, List.mem_map_of_mem he, action?_withContext context hq⟩

theorem Translated.awaits {result : Figure2.StepResult} {previous : RaftRole}
    {visible : List Figure2.Effect} (ht : Translated c result previous c₁ visible effects)
    (hu : c.Unblocked) (hst : Figure2.Stepped c.state result)
    (hw : ∀ p, result.state.pendingHardState = some p →
      .persistRaftHardState p.request ∈ result.effects) (h : c₁.Awaits q) :
    (∃ p, c.pendingApplication = some p ∧
      q = ⟨p.request.requestId, .applied p.request.entry.index⟩) ∨ Asked effects q := by
  cases h with
  | @log p h =>
    exact .inr ⟨_, ht.log p h hu.log, rfl⟩
  | snapshot h =>
    rw [ht.same.pendingSnapshot, hu.snapshot] at h
    cases h
  | @hardState p h =>
    rw [ht.same.state] at h
    -- Nothing but the write is visible, so the log gate lets it through.
    refine .inr ⟨_, ht.hardState p.request ?_, rfl⟩
    cases ht.gate with
    | through _ _ hv => exact hv ▸ hw p h
    | cut he =>
      have := hst.quiet (Option.isSome_of_eq_some h) .persistState (by rw [he]; simp)
      cases this
  | application h =>
    rw [ht.same.pendingApplication] at h
    exact .inl ⟨_, h, rfl⟩

/-- What the core waits for after a move it waited for before, and the move has not completed
it; or the move has asked for it. -/
theorem Core.Orderly.move_awaits (h : c.Orderly) (hm : Move origin input c c' effects records)
    (hq : c'.Awaits q) :
    (c.Awaits q ∧ q.record ∉ records) ∨ Asked effects q := by
  cases hm with
  | tidy hs => exact .inl ⟨hq.of_alike hs, by simp⟩
  | @event _ _ _ _ _ context hu hi hstep ht =>
    rcases ht.awaits hu (h.stepped hi.ne_apply hstep)
      (fun _ => Figure2.step_write h.peers hi.ne_apply hstep) hq with ⟨p, hp, rfl⟩ | hq
    · exact .inl ⟨.application hp, by simp⟩
    · exact .inr (hq.withContext context)
  | defer hu _ _ _ _ hstep ht =>
    rcases ht.awaits ⟨hu.log, hu.snapshot, hu.restore⟩
      (h.stepped (by simp) hstep)
      (fun _ => Figure2.step_write h.peers (by simp) hstep) hq with ⟨p, hp, rfl⟩ | hq
    · exact .inl ⟨.application hp, by simp⟩
    · exact .inr hq
  | @release _ _ c₁ _ _ hu _ hstep ht =>
    have hq' : c₁.Awaits q := by
      cases hq with
      | log h => exact .log h
      | snapshot h => exact .snapshot h
      | hardState h => exact .hardState h
      | application h => exact .application h
    rcases ht.awaits hu (h.stepped (by simp) hstep)
      (fun _ => Figure2.step_write h.peers (by simp) hstep) hq' with ⟨p, hp, rfl⟩ | hq
    · exact .inl ⟨.application hp, by simp⟩
    · exact .inr hq
  | respond => exact .inl ⟨hq, by simp⟩
  | follow _ _ _ _ _ _ ht =>
    -- Following a leader writes nothing.
    refine .inl ⟨?_, by simp⟩
    have hlog : c'.pendingLog = c.pendingLog := by
      cases ht.gate with
      | through _ hl => exact hl
      | cut he =>
        have hmem := congrArg (Figure2.Effect.persistState ∈ ·) he
        simp at hmem
    cases hq with
    | log h => exact .log (hlog ▸ h)
    | snapshot h => exact .snapshot (ht.same.pendingSnapshot ▸ h)
    | hardState h =>
      rw [ht.same.state] at h
      exact .hardState h
    | application h => exact .application (ht.same.pendingApplication ▸ h)
  | publishReceived hu | publishLocal hu =>
    cases hq with
    | log h => exact .inl ⟨.log h, by simp⟩
    | snapshot h =>
      cases h
      exact .inr ⟨_, List.mem_singleton.mpr rfl, rfl⟩
    | hardState h => exact .inl ⟨.hardState h, by simp⟩
    | application h => exact .inl ⟨.application h, by simp⟩
  | persistedLocal | persistedReceived =>
    cases hq with
    | log h => exact .inl ⟨.log h, by simp⟩
    | snapshot h => cases h
    | hardState h => exact .inl ⟨.hardState h, by simp⟩
    | application h =>
      first
        | exact .inl ⟨.application h, by simp⟩
        | exact .inl ⟨.application (Option.filter_eq_some_iff.mp h).1, by simp⟩
  | @applyFailed _ _ pending _ hp =>
    have hp : c.Awaits ⟨pending.request.requestId, .applied pending.request.entry.index⟩ :=
      .application hp
    cases hq with
    | log h => exact .inl ⟨.log h, by simp⟩
    | snapshot h => exact .inl ⟨.snapshot h, by simp⟩
    | hardState h => exact .inl ⟨.hardState h, by simp⟩
    | application h =>
      cases h
      exact .inl ⟨hp, by simp⟩
  | restored | applied | retry | schedule =>
    cases hq with
    | log h => exact .inl ⟨.log h, by simp⟩
    | snapshot h => exact .inl ⟨.snapshot h, by simp⟩
    | hardState h => exact .inl ⟨.hardState h, by simp⟩
    | application h =>
      -- a compaction may drop the application, a completion ends it, and an attempt asks for it
      first
        | exact .inl ⟨.application (Option.filter_eq_some_iff.mp h).1, by simp⟩
        | cases h; exact .inr ⟨_, List.mem_singleton.mpr rfl, rfl⟩
        | cases h
  | logPersisted _ _ hs =>
    refine .inl ?_
    cases hq.of_alike hs with
    | log h => cases h
    | snapshot h => exact ⟨.snapshot h, by simp⟩
    | hardState h => exact ⟨.hardState h, by simp⟩
    | application h => exact ⟨.application h, by simp⟩

theorem Core.Orderly.moves_awaits (h : c.Orderly) (hm : Moves origin input c c' effects records)
    (hq : c'.Awaits q) :
    (c.Awaits q ∧ q.record ∉ records) ∨ Asked effects q := by
  induction hm generalizing q with
  | refl => exact .inl ⟨hq, by simp⟩
  | tail hms hm ih =>
    rcases (hms.induction Core.Orderly.move h).move_awaits hm hq with ⟨hq, hr⟩ | ⟨e, he, hq⟩
    · rcases ih hq with ⟨hq, hr'⟩ | ⟨e, he, hq⟩
      · exact .inl ⟨hq, by simp [hr, hr']⟩
      · exact .inr ⟨e, List.mem_append_left _ he, hq⟩
    · exact .inr ⟨e, List.mem_append_right _ he, hq⟩

/-- **A core waits for what it has asked for.** -/
theorem Core.Orderly.step_awaits (h : c.Orderly) {r : StepResult} (hs : c.step input = .ok (c', r))
    (hq : c'.Awaits q) :
    (c.Awaits q ∧ q.record ∉ input.records) ∨ Asked r.effects q :=
  h.moves_awaits (Core.step_moves h hs) hq

end

end KuraMetadata.Election
