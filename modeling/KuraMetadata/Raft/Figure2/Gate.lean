import KuraMetadata.Raft.Figure2.Frame

/-! # What waits behind the hard-state gate

While a hard-state write is outstanding the rest of the step's effects wait in the state.
`Kept` says which effects can wait: the write is the current hard state and no second write
follows, or it is only the current term and the vote follows as a second write. `Stepped`
collects what the layers above need to know about a step. -/

namespace KuraMetadata.Figure2

open List

variable {s : State} {effects : List Effect} {event : Event} {r r' : StepResult}
variable {rules : List RuleId} {q : PersistRaftHardState} {p : PendingHardStatePersistence}

/-- Effects that neither send a message nor write the log. -/
def Effect.quiet : Effect → Bool
  | .resetElectionTimer => true
  | .persistRaftHardState _ => true
  | _ => false

/-- Nothing is sent before the log is written. -/
def LogFirst (effects : List Effect) : Prop :=
  ∀ before after, effects = before ++ .persistState :: after → ∀ f ∈ before, f.quiet = true

/-- The write and the effects that wait for it. -/
structure Kept (s : State) (p : PendingHardStatePersistence) : Prop where
  term : p.request.state.currentTerm = s.persistent.currentTerm
  /-- A write of the whole hard state, or a write of the term with the vote still to come. -/
  writes : (p.request.state = hardState s ∧ Ungated p.deferredEffects) ∨
    ∃ id rest, p.deferredEffects = .persistRaftHardState ⟨id, hardState s⟩ :: rest ∧
      Ungated rest ∧ .persistState ∉ rest ∧ p.request.state.votedFor = none ∧
      s.persistent.votedFor ≠ none
  logFirst : LogFirst p.deferredEffects

def Held (s : State) : Prop := ∀ p, s.pendingHardState = some p → Kept s p

/-- A log write waits behind the hard-state write. -/
def Dirty (s : State) : Prop :=
  ∃ p, s.pendingHardState = some p ∧ .persistState ∈ p.deferredEffects

/-! ## The first hard-state write of an outcome -/

theorem Sends.ungated {peers : List NodeId} (h : Sends s peers effects) : Ungated effects := by
  intro q hmem
  obtain ⟨_, _, _, _, heq⟩ := h _ hmem
  cases heq

/-- The hard-state writes of a handler: none, and then the hard state is as before; or one, of
the new hard state; or one of the term and one of the vote. A write comes first. -/
inductive Writes (s : State) (r : StepResult) : Prop where
  | none (h : Ungated r.effects) (hs : hardState r.state = hardState s)
  | all {id : Nat} {rest : List Effect}
      (he : r.effects = .persistRaftHardState ⟨id, hardState r.state⟩ :: rest)
      (h : Ungated rest)
  | term {id id' : Nat} {rest : List Effect}
      (he : r.effects = .persistRaftHardState ⟨id, ⟨r.state.persistent.currentTerm, .none⟩⟩ ::
        .persistRaftHardState ⟨id', hardState r.state⟩ :: rest)
      (h : Ungated rest) (hp : .persistState ∉ rest) (hv : r.state.persistent.votedFor ≠ .none)

theorem LogFirst.of_not_mem (h : .persistState ∉ effects) : LogFirst effects := by
  rintro before after rfl
  simp at h

theorem LogFirst.tail {f : Effect} (h : LogFirst (f :: effects)) : LogFirst effects := by
  rintro before after rfl g hg
  exact h (f :: before) after rfl g (mem_cons_of_mem f hg)

theorem LogFirst.cons {f : Effect} (hf : f.quiet = true) (h : LogFirst effects) :
    LogFirst (f :: effects) := by
  intro before after heq g hg
  cases before with
  | nil => cases hg
  | cons b before =>
    simp only [cons_append, List.cons.injEq] at heq
    rcases mem_cons.mp hg with rfl | hg
    · exact heq.1 ▸ hf
    · exact h before after heq.2 g hg

theorem LogFirst.head (h : .persistState ∉ effects) : LogFirst (.persistState :: effects) := by
  intro before after heq g hg
  cases before with
  | nil => cases hg
  | cons b before =>
    simp only [cons_append, List.cons.injEq] at heq
    exact absurd (by simp [heq.2]) h

/-- The log write of a handler comes before all its messages. -/
theorem Outcome.logFirst (h : Outcome s event r) (he : event.isCompletion = false) :
    LogFirst r.effects := by
  cases h with
  | idle | campaign | observe | voteStale | voteAgain | voteRecorded | appendStale | replicated
  | retried => exact .of_not_mem (by simp)
  | heartbeat _ _ hs | elected _ _ _ _ _ _ hs => exact .of_not_mem hs.not_persistState
  | voteDeny _ ho | voteGrant _ ho | appendReject _ ho =>
    exact .of_not_mem (by simpa using ho.not_persistState)
  | @appendAccept _ _ _ _ _ _ changed _ ho =>
    cases changed with
    | false => exact .of_not_mem (by simpa using ho.not_persistState)
    | true =>
      cases ho with
      | same => exact .cons rfl (.head (by simp))
      | higher => exact .cons rfl (.cons rfl (.head (by simp)))
  | appended _ _ _ hs => exact .head hs.not_persistState
  | released => cases he

/-- Effects after `observe_higher_term` that contain no write of their own. -/
theorem Observed.writes {s₁ s₂ : State} {T : Nat} {observed rest : List Effect}
    (ho : Observed s T s₁ observed) (h : Ungated rest) (hs : hardState s₂ = hardState s₁) :
    Writes s ⟨s₂, rules, observed ++ rest⟩ := by
  cases ho with
  | same => exact .none h hs
  | higher =>
    refine @Writes.all _ _ s.nextHardStateRequestId rest ?_ h
    simp only [hs]
    rfl

theorem Outcome.writes (h : Outcome s event r) (he : event.isCompletion = false) : Writes s r := by
  cases h with
  | idle | voteStale | voteAgain | voteRecorded | appendStale | replicated | retried =>
    exact .none (by simp [Ungated]) rfl
  | heartbeat _ _ hs | elected _ _ _ _ _ _ hs => exact .none hs.ungated rfl
  | campaign | observe => exact .all rfl (by simp [Ungated])
  | voteDeny _ ho | appendReject _ ho => exact ho.writes (by simp [Ungated]) rfl
  | voteGrant _ ho =>
    cases ho with
    | same => exact .all rfl (by simp [Ungated])
    | higher => exact .term rfl (by simp [Ungated]) (by simp) (by simp [voting])
  | @appendAccept _ _ _ _ _ _ changed _ ho =>
    refine ho.writes ?_ rfl
    cases changed <;> simp [Ungated]
  | appended _ _ _ hs =>
    refine .none ?_ rfl
    intro q hq
    exact hs.ungated q (by simpa using hq)
  | released => cases he

/-! ## Through the gate -/

theorem Gated.of_ungated (h : Gated r r') (hu : Ungated r.effects) : r' = r := by
  cases h with
  | through => rfl
  | @cut _ _ request he =>
    refine absurd ?_ (hu request)
    simp [he]

theorem Gated.of_write {rest : List Effect} (h : Gated r r')
    (he : r.effects = .persistRaftHardState q :: rest) :
    r' = ⟨{ r.state with pendingHardState := some ⟨q, rest⟩ }, r.rules,
      [.persistRaftHardState q]⟩ := by
  cases h with
  | through hu => exact absurd (he ▸ mem_cons_self) (hu q)
  | @cut before deferred request he' hb hn =>
    rw [he] at he'
    cases before with
    | nil =>
      simp only [nil_append, List.cons.injEq, Effect.persistRaftHardState.injEq] at he'
      obtain ⟨rfl, rfl⟩ := he'
      rfl
    | cons b before =>
      simp only [cons_append, List.cons.injEq] at he'
      exact absurd (he'.1 ▸ mem_cons_self) (hb q)

theorem Gated.subset (h : Gated r r') : r'.effects ⊆ r.effects := by
  cases h with
  | through => exact List.Subset.refl _
  | cut he =>
    rw [he]
    intro f hf
    simp only [mem_append, mem_cons, not_mem_nil, or_false] at hf ⊢
    tauto

/-- A gated handler: nothing is kept back and the hard state is as before, or everything is
kept back behind the first write. -/
theorem Writes.gate (hw : Writes s r) (hl : LogFirst r.effects) (hg : Gated r r') :
    (r' = r ∧ Ungated r.effects ∧ hardState r.state = hardState s) ∨
      ∃ q rest, r.effects = .persistRaftHardState q :: rest ∧
        r' = ⟨{ r.state with pendingHardState := some ⟨q, rest⟩ }, r.rules,
          [.persistRaftHardState q]⟩ ∧ Kept r'.state ⟨q, rest⟩ := by
  cases hw with
  | none h hs => exact .inl ⟨hg.of_ungated h, h, hs⟩
  | all he h =>
    have hr := hg.of_write he
    subst hr
    exact .inr ⟨_, _, he, rfl, rfl, .inl ⟨rfl, h⟩, (he ▸ hl).tail⟩
  | term he h hp hv =>
    have hr := hg.of_write he
    subst hr
    exact .inr ⟨_, _, he, rfl, rfl, .inr ⟨_, _, rfl, h, hp, rfl, hv⟩, (he ▸ hl).tail⟩

/-! ## What a step guarantees -/

/-- What the layers above use of a step, whatever the event was. -/
structure Stepped (s : State) (r : StepResult) : Prop where
  frame : Frame s r.state
  contiguous : Contiguous (base r.state + 1) r.state.persistent.log
  committed : ∀ e ∈ s.persistent.log, e.index ≤ s.volatileState.commitIndex →
    e ∈ r.state.persistent.log
  written : .persistState ∈ r.effects ∨ Dirty r.state ∨
    (r.state.persistent.log = s.persistent.log ∧ ¬ Dirty s)
  held : Held r.state
  quiet : r.state.pendingHardState.isSome → ∀ f ∈ r.effects, f.quiet = true
  logFirst : LogFirst r.effects
  hardState : s.pendingHardState = none → r.state.pendingHardState = none →
    hardState r.state = hardState s

theorem Outcome.stepped (hc : Contiguous (base s + 1) s.persistent.log)
    (hc' : Contiguous (base r'.state + 1) r'.state.persistent.log) (hn : s.pendingHardState = none)
    (he : event.isCompletion = false) (h : Outcome s event r) (hg : Gated r r') : Stepped s r' := by
  have hclean : ¬ Dirty s := by
    rintro ⟨p, hp, _⟩
    rw [hn] at hp
    cases hp
  have hcommitted : ∀ e ∈ s.persistent.log, e.index ≤ s.volatileState.commitIndex →
      e ∈ r.state.persistent.log := by
    rcases h.log hc he with ⟨hlog, _⟩ | ⟨_, hkept⟩
    · exact fun e he _ => hlog ▸ he
    · exact hkept
  have hframe := h.frame
  rcases (h.writes he).gate (h.logFirst he) hg with ⟨rfl, _, hs⟩ | ⟨q, rest, heff, rfl, hkept⟩
  · have hpend : r'.state.pendingHardState = none := (h.pending he).trans hn
    exact {
      frame := hframe
      contiguous := hc'
      committed := hcommitted
      written := by
        rcases h.log hc he with ⟨hlog, _⟩ | ⟨hmem, _⟩
        · exact .inr (.inr ⟨hlog, hclean⟩)
        · exact .inl hmem
      held := by
        intro p hp
        rw [hpend] at hp
        cases hp
      quiet := by simp [hpend]
      logFirst := h.logFirst he
      hardState := fun _ _ => hs }
  · exact {
      frame := ⟨hframe.1, hframe.2, hframe.3, hframe.4, hframe.5⟩
      contiguous := hc'
      committed := hcommitted
      written := by
        rcases h.log hc he with ⟨hlog, _⟩ | ⟨hmem, _⟩
        · exact .inr (.inr ⟨hlog, hclean⟩)
        · exact .inr (.inl ⟨⟨q, rest⟩, rfl, by simpa [heff] using hmem⟩)
      held := by
        intro p hp
        rw [← Option.some.inj hp]
        exact hkept
      quiet := by simp [Effect.quiet]
      logFirst := .of_not_mem (by simp)
      hardState := by simp }

/-- The completion of a write releases the effects behind it, or gates them once more behind
the write of the vote. -/
theorem Kept.released (h : Kept s p)
    (hg : Gated ⟨{ s with pendingHardState := none }, rules, p.deferredEffects⟩ r) :
    (r = ⟨{ s with pendingHardState := none }, rules, p.deferredEffects⟩ ∧
        p.request.state = Figure2.hardState s) ∨
      ∃ id rest, p.deferredEffects = .persistRaftHardState ⟨id, hardState s⟩ :: rest ∧
        Ungated rest ∧ .persistState ∉ rest ∧
        r = ⟨{ s with pendingHardState := some ⟨⟨id, hardState s⟩, rest⟩ }, rules,
          [.persistRaftHardState ⟨id, hardState s⟩]⟩ := by
  rcases h.writes with ⟨hs, hu⟩ | ⟨id, rest, he, hu, hp, _⟩
  · exact .inl ⟨hg.of_ungated hu, hs⟩
  · exact .inr ⟨id, rest, he, hu, hp, hg.of_write he⟩

theorem Kept.stepped (hc : Contiguous (base s + 1) s.persistent.log)
    (hp : s.pendingHardState = some p) (h : Kept s p)
    (hg : Gated ⟨{ s with pendingHardState := none }, rules, p.deferredEffects⟩ r) :
    Stepped s r := by
  have hdirty : Dirty s → .persistState ∈ p.deferredEffects := by
    rintro ⟨p', hp', hmem⟩
    rw [hp] at hp'
    rwa [Option.some.inj hp']
  rcases h.released hg with ⟨rfl, hs⟩ | ⟨id, rest, he, hu, hnot, rfl⟩
  · exact {
      frame := ⟨rfl, rfl, rfl, rfl, le_rfl⟩
      contiguous := hc
      committed := fun e he _ => he
      written := by
        by_cases hmem : .persistState ∈ p.deferredEffects
        · exact .inl hmem
        · exact .inr (.inr ⟨rfl, fun hd => hmem (hdirty hd)⟩)
      held := fun _ hp' => by cases hp'
      quiet := by simp
      logFirst := h.logFirst
      hardState := by simp [hp] }
  · exact {
      frame := ⟨rfl, rfl, rfl, rfl, le_rfl⟩
      contiguous := hc
      committed := fun e he _ => he
      written := .inr (.inr ⟨rfl, fun hd => by
        have := hdirty hd
        rw [he] at this
        exact hnot (by simpa using this)⟩)
      held := by
        intro p' hp'
        rw [← Option.some.inj hp']
        exact ⟨rfl, .inl ⟨rfl, hu⟩, .of_not_mem hnot⟩
      quiet := by simp [Effect.quiet]
      logFirst := .of_not_mem (by simp)
      hardState := by simp }

theorem step_stepped (hp : s.peers ≠ []) (hne : event ≠ .applyCommitted) (hheld : Held s)
    (h : step s event = .ok r) :
    Stepped s r := by
  obtain ⟨hwf, hwf', hcompl, r₀, ho, hg⟩ := step_outcome hp hne h
  cases hev : event.isCompletion with
  | false =>
    refine ho.stepped hwf.contiguous hwf'.contiguous ?_ hev hg
    simpa [hev] using hcompl
  | true =>
    cases ho with
    | released hpend => exact (hheld _ hpend).stepped hwf.contiguous hpend hg
    | idle he => rw [he] at hev; cases hev
    | observe he => cases event <;> simp_all [Event.term?, Event.isCompletion]
    | _ => cases hev

/-- A completed write is the hard state once nothing is outstanding any more. -/
theorem step_completed (hp : s.peers ≠ []) (hheld : Held s)
    (h : step s (.raftHardStatePersisted q) = .ok r) (hn : r.state.pendingHardState = none) :
    q.state = hardState r.state := by
  obtain ⟨_, _, _, r₀, ho, hg⟩ := step_outcome hp (by simp) h
  cases ho with
  | idle he | observe he => cases he
  | released hpend hq =>
    subst hq
    rcases (hheld _ hpend).released hg with ⟨rfl, hs⟩ | ⟨_, _, _, _, _, rfl⟩
    · exact hs
    · cases hn

/-- When nothing but messages waited, the completion releases exactly what waited. -/
theorem step_completed_effects (hp : s.peers ≠ []) (hpend : s.pendingHardState = some p)
    (hu : Ungated p.deferredEffects) (h : step s (.raftHardStatePersisted q) = .ok r) :
    r = ⟨{ s with pendingHardState := none }, [], p.deferredEffects⟩ ∧ q = p.request := by
  obtain ⟨_, _, _, r₀, ho, hg⟩ := step_outcome hp (by simp) h
  cases ho with
  | idle he | observe he => cases he
  | released hpend' hq =>
    rw [hpend] at hpend'
    cases hpend'
    exact ⟨hg.of_ungated hu, hq⟩

/-- A later term is written at once, and nothing waits behind the write. -/
theorem step_observeTerm {T : Nat} (h : step s (.observeTerm T) = .ok r)
    (hlt : s.persistent.currentTerm < T) :
    r.state = { stepDown s T with
        pendingHardState := some ⟨⟨s.nextHardStateRequestId, ⟨T, none⟩⟩, []⟩ } ∧
      r.effects = [.persistRaftHardState ⟨s.nextHardStateRequestId, ⟨T, none⟩⟩] := by
  simp only [step, Except.bind_eq_ok] at h
  obtain ⟨_, _, h⟩ := h
  rw [Except.ite_error_eq_ok, Except.ite_error_eq_ok] at h
  simp only [Except.bind_eq_ok, Except.pure_eq_ok] at h
  obtain ⟨_, _, r₀, h₀, r₁, h₁, _, _, rfl⟩ := h
  rcases observeHigherTerm_eq_ok h₀ with ⟨hle, _⟩ | ⟨_, rfl⟩
  · omega
  · rw [(gateOnHardState_eq_ok h₁).of_write rfl]
    exact ⟨rfl, rfl⟩

/-- A response to a leader never makes it write its log. -/
theorem step_response_effects {sender : NodeId} {response : AppendEntriesResponse}
    (hp : s.peers ≠ []) (h : step s (.receiveAppendEntriesResponse sender response) = .ok r) :
    .persistState ∉ r.effects := by
  obtain ⟨_, _, _, r₀, ho, hg⟩ := step_outcome hp (by simp) h
  intro hmem
  have := hg.subset hmem
  cases ho <;> simp at this

/-- Becoming a follower of the sender of a snapshot is no step, but behaves like one. -/
theorem following_stepped {sender : NodeId} (hheld : Held s)
    (hc : Contiguous (base s + 1) s.persistent.log) :
    Stepped s ⟨following s sender, [], [.resetElectionTimer]⟩ where
  frame := ⟨rfl, rfl, rfl, rfl, le_rfl⟩
  contiguous := hc
  committed _ he _ := he
  written := .inr ((Classical.em (Dirty s)).imp id fun hd => ⟨rfl, hd⟩)
  held p hp := ⟨(hheld p hp).term, (hheld p hp).writes, (hheld p hp).logFirst⟩
  quiet _ := by simp [Effect.quiet]
  logFirst := .of_not_mem (by simp)
  hardState _ _ := rfl

end KuraMetadata.Figure2
