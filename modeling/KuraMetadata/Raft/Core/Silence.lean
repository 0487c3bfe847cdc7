import KuraMetadata.Raft.Core.Promises

/-! # No message while a durability step is outstanding

A core that waits for a hard-state write, for the publication of a snapshot or for its restore
sends nothing until the wait is over, and no message carries a term that is not on disk. A
snapshot message that arrives during a hard-state write is the exception: the core answers it
at once. -/

namespace KuraMetadata.Election

variable {e : Effect}

/-- A hard-state write, the publication of a snapshot or its restore is outstanding. -/
def Core.outstanding (c : Core) : Bool :=
  c.state.pendingHardState.isSome || c.pendingSnapshot.isSome || c.pendingSnapshotRestore.isSome

theorem Core.Idle.not_outstanding {c : Core} (h : c.Idle) : c.outstanding = false := by
  simp [Core.outstanding, h.hardState, h.snapshot, h.restore]

/-- The inputs whose steps can send messages. -/
def Input.sends : Input → Bool
  | .raftSnapshotPersisted _ => false
  | .logEntryApplied _ _ => false
  | .logEntryApplyFailed _ _ => false
  | .retryApplication => false
  | _ => true

section

variable {S : List RaftHardState} {L : List LogEntry} {origin c c' : Core} {input : Input}
variable {effects : List Effect} {records : List Record}

theorem Incoming.sends {sender : NodeId} {request : InstallSnapshotRequest}
    (h : Incoming origin input sender request) : input.sends = true := by
  rcases h with rfl | ⟨⟨_, rfl⟩, _⟩ <;> rfl

theorem message?_of_minor (h : e.minor = true) : e.message? = none := by
  cases e <;> first | rfl | cases h

theorem Move.sends (hm : Move origin input c c' effects records) (he : e ∈ effects)
    (hmsg : e.message? ≠ none) : input.sends = true := by
  have hsilent : ∀ {l : List Effect}, e ∈ l → l.all (fun e => e.message?.isNone) = true →
      input.sends = true := by
    intro l hl hall
    exact absurd (by simpa using List.all_eq_true.mp hall e hl) hmsg
  cases hm with
  | tidy _ hminor => exact absurd (message?_of_minor (hminor e he)) hmsg
  | event _ hi => cases hi <;> rfl
  | defer _ hi | respond _ hi | follow _ hi => exact hi.sends
  | release _ hi | restored hi | logPersisted hi => rw [hi]; rfl
  | publishReceived | publishLocal | persistedLocal | persistedReceived | applied | applyFailed
  | retry | schedule => exact hsilent he rfl

theorem Moves.sends (hm : Moves origin input c c' effects records) (he : e ∈ effects)
    (hmsg : e.message? ≠ none) : input.sends = true := by
  induction hm with
  | refl => cases he
  | tail _ hm ih => exact (List.mem_append.mp he).elim ih fun he => hm.sends he hmsg

/-- The completions that end a wait. -/
def Input.releases : Input → Bool
  | .raftHardStatePersisted _ => true
  | .raftSnapshotRestored _ _ => true
  | .raftLogPersisted _ => true
  | _ => false

/-- While a hard-state write is outstanding, no move sends a message or ends the wait, except
for the completions and for a snapshot that arrives early. -/
theorem Core.Orderly.move_waiting (h : c.Orderly) (hp : c.state.pendingHardState.isSome)
    (hi : input.releases = false) (hearly : origin.installsEarly input = false)
    (hm : Move origin input c c' effects records) :
    c'.state.pendingHardState.isSome ∧ ∀ e ∈ effects, e.message? = none := by
  have hwait : ∀ {p : Prop}, c.state.pendingHardState = none ∨ origin.installsEarly input = true →
      p := by
    rintro p (hn | he)
    · simp [hn] at hp
    · simp [hearly] at he
  have hevent : ∀ {p : Prop} {event result}, event ≠ .applyCommitted →
      event.isCompletion = false → Figure2.step c.state event = .ok result → p := by
    intro p event result hne hc hstep
    have hpend := (Figure2.step_outcome h.peers hne hstep).2.2.1
    simp [hc] at hpend
    simp [hpend] at hp
  cases hm with
  | tidy hs he => exact ⟨hs.state ▸ hp, fun e hmem => message?_of_minor (he e hmem)⟩
  | event _ hc hstep => exact hevent hc.ne_apply hc.not_completion hstep
  | defer _ _ _ _ _ hstep => exact hevent (by simp) rfl hstep
  | release _ hr | restored hr | logPersisted hr => rw [hr] at hi; cases hi
  | respond _ _ hh | follow _ _ hh => exact hwait hh
  | _ => exact ⟨hp, by simp [Effect.message?]⟩

/-- A step from an outstanding wait that sends a message ends the wait. -/
theorem Core.Promising.step_idle (h : c.Promising S L) {r : StepResult}
    (hout : c.outstanding = true) (hearly : c.installsEarly input = false)
    (hs : c.step input = .ok (c', r)) (he : e ∈ r.effects)
    (hmsg : e.message? ≠ none) : c'.outstanding = false := by
  have ho := h.orderly
  have hmoves := Core.step_moves ho hs
  have hsends := hmoves.sends he hmsg
  obtain ⟨_, hd⟩ := Core.step_eq_ok hs
  cases hd with
  | snapshotRestored h' =>
    obtain ⟨c₁, r₁, hinst, hsched⟩ := Core.afterSnapshot_eq_ok h'
    obtain ⟨p, hpend, _, _, rfl, _⟩ := Core.completeSnapshotRestore_eq_ok hinst
    have hu := ho.unblocked_of_restoring hpend
    have hn := (h.restored p hpend).1
    have hidle : (({ c with pendingSnapshotRestore := none } : Core).compactTo
        p.snapshot).Idle := ⟨⟨hu.log, hu.snapshot, rfl⟩, hn⟩
    cases hsched <;> exact hidle.not_outstanding
  | logPersisted hsn hr h' =>
    obtain ⟨p, _, _, hp, _⟩ := Core.raftLogPersisted_eq_ok h'
    simp [Core.outstanding, hsn, hr, (ho.writing p hp).1] at hout
  | @unblocked input _ _ _ hsn hr hl h' =>
    have hp : c.state.pendingHardState.isSome := by
      simpa [Core.outstanding, hsn, hr] using hout
    cases hi : input.releases with
    | false =>
      have := (hmoves.forall_effects (P := fun x => x.Orderly ∧ x.state.pendingHardState.isSome)
        (Q := fun e => e.message? = none)
        (by
          rintro x x' effects records ⟨hx, hp⟩ hm
          obtain ⟨hp', hsilent⟩ := hx.move_waiting hp hi hearly hm
          exact ⟨⟨hx.move hm, hp'⟩, hsilent⟩)
        ⟨ho, hp⟩).2 e he
      exact absurd this hmsg
    | true =>
      cases input with
      | raftHardStatePersisted completion =>
        rcases ho.raftHardStatePersisted ⟨hl, hsn, hr⟩ h' with ht |
          ⟨c₁, sender, request, r₁, r₂, hidle, hsilent, hrec, heff⟩
        · exact (Core.transition_idle ho ⟨hl, hsn, hr⟩ (by simp) ht he hmsg).not_outstanding
        · rw [heff] at he
          rcases List.mem_append.mp he with he | he
          · exact absurd (hsilent e he) hmsg
          · exact (Core.receiveSnapshot_message hidle.toUnblocked hidle.hardState hrec he
              hmsg).2.not_outstanding
      | raftSnapshotRestored | raftLogPersisted => contradiction
      | _ => cases hi
  | _ => cases hsends

end

/-! ## Runs -/

/-- What is asked of the messages of a call: none while a durability step is outstanding before
and after it, and none with a term that is not on disk. -/
structure Silent (a : Recovery) (calls : List Call) (call : Call) : Prop where
  waiting : call.before.outstanding = true → call.after.outstanding = true →
    ∀ e ∈ call.result.effects, e.message? = none
  term : ∀ e ∈ call.result.effects, ∀ dest m, e.message? = some (dest, m) →
    ∃ hs ∈ confirmedHardStates a (calls ++ [call]), hs.currentTerm = m.term

/-- **No message while a durability step is outstanding**, in every run in which no snapshot
message is accepted while a hard-state write is outstanding. -/
theorem messages_silent {a : Recovery} {calls later : List Call} {call : Call} {c : Core}
    (run : CoreRun a (calls ++ call :: later) c)
    (hearly : ∀ x ∈ calls ++ call :: later, x.before.installsEarly x.input = false) :
    Silent a calls call := by
  obtain ⟨hrun, hstep⟩ := run.before
  obtain ⟨hp, _⟩ := hrun.promising fun x hx => hearly x (List.mem_append_left _ hx)
  have hcall := hearly call (by simp)
  refine ⟨fun hbefore hafter e he => ?_, fun e he dest m hm => ?_⟩
  · by_contra hmsg
    rw [hp.step_idle hbefore hcall hstep he hmsg] at hafter
    cases hafter
  · exact ((hp.step (confirmedHardStates_subset a calls call)
      (fun q hq => mem_confirmedHardStates hq) hcall hstep).2 e he).term dest m hm

/-- The first append of a term leaves a hard-state write outstanding. -/
def waitingInputs : List Input :=
  [.receiveAppendEntries 2 ⟨2, 2, 0, 0, [⟨2, 1, sampleCommand 1⟩], 0, none⟩]

/-- A snapshot request during the write is refused without a message. -/
theorem messages_silent_waiting :
    ∃ calls call, CoreRun firstNode (calls ++ [call]) call.after ∧
      (∀ x ∈ calls ++ [call], x.before.installsEarly x.input = false) ∧
      call.before.outstanding = true ∧ call.after.outstanding = true ∧
      call.result.effects = [.raftSnapshotRejected .noAppliedEntry] ∧
      Silent firstNode calls call := by
  obtain ⟨calls, call, run, h⟩ := @CoreRun.of_accepts firstNode waitingInputs
    (.createRaftSnapshot ⟨1, 0, 0, ⟨[1, 2, 3], []⟩, []⟩)
    (fun calls call => (calls ++ [call]).all (fun x => !x.before.installsEarly x.input) &&
      decide (call.before.outstanding = true ∧ call.after.outstanding = true ∧
        call.result.effects = [.raftSnapshotRejected .noAppliedEntry]))
    (by decide +kernel)
  simp only [Bool.and_eq_true, List.all_eq_true, Bool.not_eq_true', decide_eq_true_eq] at h
  exact ⟨calls, call, run, h.1, h.2.1, h.2.2.1, h.2.2.2, messages_silent run h.1⟩

/-- A snapshot of an older term that arrives during the write is answered at once, with the
term that is still being written. -/
theorem messages_not_silent :
    ¬ ∀ (a : Recovery) (calls : List Call) (call : Call) (c : Core),
      CoreRun a (calls ++ [call]) c → Silent a calls call := by
  intro hall
  obtain ⟨calls, call, run, h⟩ := @CoreRun.of_accepts firstNode waitingInputs
    (.receiveInstallSnapshot 3
      ⟨1, 3, 1, earlySnapshot.metadata, 0, 0, [], earlySnapshot.checksum, true, none⟩)
    (fun _ call => decide (call.before.outstanding = true ∧ call.after.outstanding = true ∧
      .sendInstallSnapshotResponse 3 ⟨2, 1, false, 0, none⟩ ∈ call.result.effects))
    (by decide +kernel)
  obtain ⟨hbefore, hafter, hmem⟩ := of_decide_eq_true h
  have := (hall firstNode calls call call.after run).waiting hbefore hafter _ hmem
  cases this

end KuraMetadata.Election
