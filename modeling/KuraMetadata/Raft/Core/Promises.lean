import KuraMetadata.Raft.Core.Durability

/-! # Messages are durable promises

What a core tells its peers is on its disk: a message carries a confirmed term, a granted vote
and a candidacy a confirmed vote, and the entries a core sends or acknowledges are in its
confirmed log. The effects that wait behind a write are pledged in the state they wait in, and
they leave only when that state is on disk. The one input that breaks this is a snapshot
message that arrives while a hard-state write is outstanding: it may take away entries whose
acknowledgement is waiting. -/

namespace KuraMetadata.Election

open Election.Core List
open Figure2 (base lastIndex hardState Contiguous Outcome Stepped State lastIndex_eq step_outcome
  Sends step_observeTerm entryAt_eq_ok)

variable {e : Effect} {L : List LogEntry} {q : PersistRaftHardState} {l : List Figure2.Effect}
variable {S : List RaftHardState} {effects : List Effect} {s : State} {event : Figure2.Event}
variable {f : Figure2.Effect} {r : StepResult} {a : Recovery} {call : Call}

/-! ## What the messages of a step say

`Pledged s e` is what makes a message true in the state `s`. The effects of a step of the
specification are pledged in the state it ends in, and so are the effects it leaves waiting
behind a hard-state write. -/

section

variable {r : Figure2.StepResult} {l' effects : List Figure2.Effect} {s' : State}

/-- What a message says is so in the state `s`. -/
def Pledged (s : State) : Effect → Prop
  | .sendRequestVote _ q =>
    q.term = s.persistent.currentTerm ∧ s.persistent.votedFor = some s.node
  | .sendRequestVoteResponse dest q =>
    q.term = s.persistent.currentTerm ∧
      (q.granted = true → s.persistent.votedFor = some dest)
  | .sendAppendEntries _ q =>
    q.term = s.persistent.currentTerm ∧ q.entries ⊆ s.persistent.log
  | .sendAppendEntriesResponse _ q =>
    q.term = s.persistent.currentTerm ∧ (q.succeeded = true → q.matchedIndex ≤ lastIndex s)
  | .sendInstallSnapshot _ q => q.term = s.persistent.currentTerm
  | .sendInstallSnapshotResponse _ q => q.term = s.persistent.currentTerm
  | _ => True

/-- The effects of the specification are pledged in `s`. -/
def AllPledged (s : State) (effects : List Figure2.Effect) : Prop :=
  ∀ f ∈ effects, ∀ e, direct? f = some e → Pledged s e

/-! ## Steps of the specification -/

theorem AllPledged.append (h : AllPledged s l) (h' : AllPledged s l') : AllPledged s (l ++ l') := by
  intro f hf
  exact (mem_append.mp hf).elim (h f) (h' f)

theorem AllPledged.cons (hf : ∀ e, direct? f = some e → Pledged s e) (h : AllPledged s l) :
    AllPledged s (f :: l) := by
  intro g hg
  rcases mem_cons.mp hg with rfl | hg
  · exact hf
  · exact h g hg

theorem AllPledged.nil (s : State) : AllPledged s [] := by
  intro f hf
  cases hf

theorem AllPledged.quiet_cons (hq : f.quiet = true) (h : AllPledged s l) :
    AllPledged s (f :: l) := by
  refine .cons (fun e he => ?_) h
  cases f with
  | persistRaftHardState q =>
    cases he
    trivial
  | resetElectionTimer => cases he
  | _ => cases hq

theorem AllPledged.single (hf : direct? f = some e) (hp : Pledged s e) : AllPledged s [f] := by
  refine .cons (fun e' he' => ?_) (.nil s)
  rw [hf] at he'
  exact Option.some.inj he' ▸ hp

theorem AllPledged.observed {s₁ s₂ : State} {T : Nat} {observed : List Figure2.Effect}
    (h : Figure2.Observed s T s₁ observed) :
    AllPledged s₂ observed := by
  cases h with
  | same => exact .nil _
  | higher => exact .quiet_cons rfl (.nil _)

theorem AllPledged.sends {peers : List NodeId}
    (hc : Contiguous (base s + 1) s.persistent.log) (h : Sends s peers effects) :
    AllPledged s effects := by
  intro f hf e he
  obtain ⟨p, _, request, hreq, rfl⟩ := h f hf
  obtain ⟨_, hb⟩ := Figure2.appendRequest_eq_ok hc hreq
  cases he
  exact ⟨hb.term, hb.entries ▸ drop_subset _ _⟩

theorem AllPledged.outcome (hc : Contiguous (base s + 1) s.persistent.log)
    (hc' : Contiguous (base r.state + 1) r.state.persistent.log) (h : Outcome s event r)
    (he : event.isCompletion = false) : AllPledged r.state r.effects := by
  cases h with
  | idle | voteRecorded | replicated => exact .nil _
  | heartbeat _ _ hs | elected _ _ _ _ _ _ hs => exact AllPledged.sends hc hs
  | campaign =>
    refine .quiet_cons rfl (.quiet_cons rfl fun f hf e he => ?_)
    obtain ⟨peer, _, rfl⟩ := mem_map.mp hf
    cases he
    exact ⟨rfl, rfl⟩
  | observe => exact .quiet_cons rfl (.nil _)
  | voteStale | appendStale => exact .single rfl ⟨rfl, by simp⟩
  | voteDeny _ ho => exact (AllPledged.observed ho).append (.single rfl ⟨rfl, by simp⟩)
  | voteAgain _ _ _ hv => exact .quiet_cons rfl (.single rfl ⟨rfl, fun _ => hv⟩)
  | voteGrant _ ho =>
    exact (AllPledged.observed ho).append (.quiet_cons rfl (.quiet_cons rfl
      (.single rfl ⟨rfl, fun _ => rfl⟩)))
  | appendReject _ ho =>
    exact (AllPledged.observed ho).append (.quiet_cons rfl (.single rfl ⟨rfl, by simp⟩))
  | @appendAccept sender request _ s₁ _ log changed _ ho _ _ _ hm =>
    refine (AllPledged.observed ho).append
      (.quiet_cons rfl (.append ?_ (.single rfl ⟨rfl, fun _ => ?_⟩)))
    · cases changed
      · exact .nil _
      · exact .cons (fun e he => by cases he) (.nil _)
    · rw [lastIndex_eq hc']
      have hbase : base (Figure2.following s₁ sender) = base s := ho.frame.base
      refine hm.matched_le ?_
      rw [hbase]
      exact ho.log.symm ▸ hc
  | retried _ _ _ _ _ _ _ _ hq =>
    obtain ⟨_, hb⟩ := Figure2.appendRequest_eq_ok hc' hq
    exact .single rfl ⟨hb.term, hb.entries ▸ drop_subset _ _⟩
  | appended _ _ _ hs =>
    have hp := AllPledged.sends (by exact hc') hs
    exact .cons (fun e he => by cases he) fun f hf e he => by
      have := hp f hf e he
      obtain ⟨_, _, _, _, rfl⟩ := hs f hf
      cases he
      exact this
  | released => cases he

/-- What waits behind a hard-state write is never a replication request. -/
theorem no_append_behind (h : Outcome s event r) (he : event.isCompletion = false)
    (hw : .persistRaftHardState q ∈ r.effects) (dest : NodeId)
    (request : AppendEntriesRequest) : .sendAppendEntries dest request ∉ r.effects := by
  cases h with
  | heartbeat _ _ hs | elected _ _ _ _ _ _ hs => exact absurd hw (hs.ungated q)
  | appended _ _ _ hs => exact absurd (by simpa using hw) (hs.ungated q)
  | voteDeny _ ho | voteGrant _ ho | appendReject _ ho => cases ho <;> simp
  | @appendAccept _ _ _ _ _ _ changed _ ho => cases ho <;> cases changed <;> simp
  | retried => simp at hw
  | released => cases he
  | _ => simp

theorem Pledged.congr (hp : s'.persistent = s.persistent)
    (hn : s'.node = s.node) (h : Pledged s e) : Pledged s' e := by
  have hlast : lastIndex s' = lastIndex s := by
    simp only [lastIndex, base, hp]
  cases e <;> simp only [Pledged, hp, hn, hlast] at h ⊢ <;> exact h

theorem AllPledged.congr
    (hp : s'.persistent = s.persistent) (hn : s'.node = s.node) (h : AllPledged s effects) :
    AllPledged s' effects :=
  fun f hf e he => (h f hf e he).congr hp hn

theorem AllPledged.subset (hl : l ⊆ l') (h : AllPledged s l') : AllPledged s l :=
  fun f hf => h f (hl hf)

/-- What waits behind the hard-state write is pledged, and no replication request waits. -/
def Waiting (s : State) : Prop :=
  ∀ p, s.pendingHardState = some p → AllPledged s p.deferredEffects ∧
    ∀ dest request, .sendAppendEntries dest request ∉ p.deferredEffects

theorem Waiting.of_none (h : s.pendingHardState = none) : Waiting s :=
  fun _ hp => by cases h.symm.trans hp

/-- The effects of a step are pledged where it ends, and so is what it leaves waiting. -/
theorem step_pledged (hp : s.peers ≠ []) (hne : event ≠ .applyCommitted) (hheld : Figure2.Held s)
    (hw : Waiting s) (h : Figure2.step s event = .ok r) :
    AllPledged r.state r.effects ∧ Waiting r.state := by
  obtain ⟨hwf, hwf', hcompl, r₀, ho, hg⟩ := step_outcome hp hne h
  cases hev : event.isCompletion with
  | false =>
    have hn : s.pendingHardState = none := by simpa [hev] using hcompl
    have hpend : r₀.state.pendingHardState = none := (ho.pending hev).trans hn
    rcases (ho.writes hev).gate (ho.logFirst hev) hg with ⟨rfl, _, _⟩ | ⟨q, rest, he, rfl, _⟩
    · exact ⟨.outcome hwf.contiguous hwf'.contiguous ho hev, .of_none hpend⟩
    · have hall : AllPledged r₀.state r₀.effects := .outcome hwf.contiguous hwf'.contiguous ho hev
      have hno := no_append_behind ho hev (q := q) (by simp [he])
      rw [he] at hall hno
      refine ⟨.quiet_cons rfl (.nil _), fun p hp => ?_⟩
      rw [← Option.some.inj hp]
      exact ⟨(hall.subset (subset_cons_self _ _)).congr rfl rfl,
        fun dest request hmem => hno dest request (mem_cons_of_mem _ hmem)⟩
  | true =>
    cases ho with
    | idle he => rw [he] at hev; cases hev
    | observe he => cases event <;> simp_all [Figure2.Event.term?, Figure2.Event.isCompletion]
    | released hpend =>
      obtain ⟨hall, hno⟩ := hw _ hpend
      rcases (hheld _ hpend).released hg with ⟨rfl, _⟩ | ⟨id, rest, he, _, _, rfl⟩
      · exact ⟨hall.congr rfl rfl, .of_none rfl⟩
      · rw [he] at hall hno
        refine ⟨.quiet_cons rfl (.nil _), fun p hp => ?_⟩
        rw [← Option.some.inj hp]
        exact ⟨(hall.subset (subset_cons_self _ _)).congr rfl rfl,
          fun dest request hmem => hno dest request (mem_cons_of_mem _ hmem)⟩
    | _ => cases hev

end

variable {node : NodeId} {c : Core} {calls : List Call}

/-! ## The invariant -/

/-- The message is covered by the confirmed hard states `S` and the confirmed log `L` of the
node. -/
structure Covered (S : List RaftHardState) (L : List LogEntry) (node : NodeId) (e : Effect) :
    Prop where
  term : ∀ dest m, e.message? = some (dest, m) → ∃ hs ∈ S, hs.currentTerm = m.term
  vote : ∀ dest T, e = .sendRequestVoteResponse dest ⟨T, true⟩ → ⟨T, some dest⟩ ∈ S
  candidacy : ∀ dest q, e = .sendRequestVote dest q → ⟨q.term, some node⟩ ∈ S
  entries : ∀ dest q, e = .sendAppendEntries dest q → q.entries ⊆ L

theorem Covered.of_no_message (h : e.message? = none) :
    Covered S L node e where
  term _ _ he := by cases h.symm.trans he
  vote _ _ he := by rw [he] at h; cases h
  candidacy _ _ he := by rw [he] at h; cases h
  entries _ _ he := by rw [he] at h; cases h

theorem Covered.of_silent (h : effects.all (fun e => e.message?.isNone) = true) :
    ∀ e ∈ effects, Covered S L node e :=
  fun e he => .of_no_message (by simpa using all_eq_true.mp h e he)

/-- A pledged message is covered once the state is on disk. -/
theorem Pledged.covered (h : Pledged s e) (hs : hardState s ∈ S)
    (hl : s.persistent.log ⊆ L) :
    Covered S L s.node e where
  term := by
    intro dest m he
    refine ⟨_, hs, ?_⟩
    cases e <;> simp only [Effect.message?, Option.some.injEq, Prod.mk.injEq, reduceCtorEq] at he
    case sendInstallSnapshot => exact he.2 ▸ h.symm
    case sendInstallSnapshotResponse => exact he.2 ▸ h.symm
    all_goals exact he.2 ▸ h.1.symm
  vote := by
    rintro dest T rfl
    obtain ⟨ht, hv⟩ := h
    rw [show (⟨T, some dest⟩ : RaftHardState) = hardState s by
      simp only [hardState, hv rfl, ← ht]]
    exact hs
  candidacy := by
    rintro dest q rfl
    obtain ⟨ht, hv⟩ := h
    rw [show (⟨q.term, some s.node⟩ : RaftHardState) = hardState s by
      simp only [hardState, hv, ← ht]]
    exact hs
  entries := by
    rintro dest q rfl
    exact List.Subset.trans h.2 hl

/-- What holds of a core whose disk has held the hard states `S` and holds the log `L`. -/
structure Core.Promising (S : List RaftHardState) (L : List LogEntry) (c : Core) : Prop
    extends Core.Logged L c where
  confirmed : c.state.pendingHardState = none → hardState c.state ∈ S
  waiting : Waiting c.state
  deferred : ∀ p, c.pendingLog = some p → ∀ e ∈ p.deferredEffects, Pledged c.state e
  /-- A received snapshot is only published while the hard state is on disk. -/
  received : ∀ p, c.pendingSnapshot = some p → p.localCreation = false →
    c.state.pendingHardState = none ∧
      ∀ x, p.reply = some x → x.2.term = c.state.persistent.currentTerm
  restored : ∀ p, c.pendingSnapshotRestore = some p →
    c.state.pendingHardState = none ∧ p.response.term = c.state.persistent.currentTerm

section

variable {S S' : List RaftHardState} {origin c c₁ c' : Core} {input : Input} {records : List Record}
variable {dest : NodeId} {q : AppendEntriesResponse} {s' : State} {visible : List Figure2.Effect}
variable {snapshot : RaftSnapshot}

theorem Core.Promising.mono (h : c.Promising S L) (hS : S ⊆ S') : c.Promising S' L :=
  { h with confirmed := fun hn => hS (h.confirmed hn) }

theorem Core.Promising.of_alike (h : c.Promising S L) (hs : c.Alike c') : c'.Promising S L where
  toLogged := h.toLogged.of_alike hs
  confirmed := by
    rw [hs.state]
    exact h.confirmed
  waiting := hs.state ▸ h.waiting
  deferred := by
    rw [hs.pendingLog, hs.state]
    exact h.deferred
  received := by
    rw [hs.pendingSnapshot, hs.state]
    exact h.received
  restored := by
    rw [hs.pendingSnapshotRestore, hs.state]
    exact h.restored

theorem pledged_of_bookkeeping (h : e.bookkeeping = true) : Pledged s e := by
  cases e <;> first | trivial

theorem FromEffects.pledged (h : FromEffects s l e)
    (hl : AllPledged s' l) : Pledged s' e := by
  rcases h with h | ⟨f, hf, he⟩ | ⟨_, _, rfl⟩
  · exact pledged_of_bookkeeping h
  · exact hl f hf e he
  · trivial

/-- A translated step, whatever snapshot waits before and after it: its messages are covered
and what it leaves behind is pledged. -/
theorem Core.promising_of_translated (hu : c.Unblocked) {result : Figure2.StepResult}
    (hst : Stepped c.state result) (hpl : AllPledged result.state result.effects)
    (hw : Waiting result.state)
    (hconf : result.state.pendingHardState = none → hardState result.state ∈ S)
    {previous : RaftRole}
    (x y : Option (NodeId × InstallSnapshotRequest))
    (ht : Translated { c with installAfterHardState := x } result previous c₁ visible effects)
    (hl : ({ c₁ with installAfterHardState := y } : Core).Logged L) :
    ({ c₁ with installAfterHardState := y } : Core).Promising S L ∧
      ∀ e ∈ effects, Covered S L c.state.node e := by
  have hstate : c₁.state = result.state := ht.same.state
  have hu' : ({ c with installAfterHardState := x } : Core).Unblocked :=
    ⟨hu.log, hu.snapshot, hu.restore⟩
  have hcovered : ∀ e, Pledged result.state e → result.state.pendingHardState = none →
      c₁.pendingLog = none → Covered S L c.state.node e := by
    intro e he hn hlog
    rw [← hst.frame.node]
    refine he.covered (hconf hn) (hstate ▸ (hl.clean hlog ?_).subset)
    rintro ⟨p, hp, _⟩
    have hp : c₁.state.pendingHardState = some p := hp
    rw [hstate, hn] at hp
    cases hp
  refine ⟨{
    toLogged := hl
    confirmed := hstate ▸ hconf
    waiting := hstate ▸ hw
    deferred := ?_
    received := fun p hp => by cases hu.snapshot.symm.trans (ht.same.pendingSnapshot.symm.trans hp)
    restored := fun p hp =>
      by cases hu.restore.symm.trans (ht.same.pendingSnapshotRestore.symm.trans hp) }, ?_⟩
  · intro p hp e he
    have hp : c₁.pendingLog = some p := hp
    show Pledged c₁.state e
    cases ht.gate with
    | through _ hl => cases hu.log.symm.trans (hl.symm.trans hp)
    | cut heq _ _ hl _ hfrom =>
      rw [hl] at hp
      cases hp
      rw [hstate]
      refine (hfrom e he).pledged (hpl.subset ?_)
      rw [heq]
      intro g hg
      simp [hg]
  · intro e he
    cases ht.emitted e he with
    | bookkeeping hb => exact .of_no_message (message?_of_bookkeeping hb)
    | log => exact .of_no_message rfl
    | @direct f _ hf hd =>
      cases hq : f.quiet with
      | true => exact .of_no_message (message?_of_quiet hq hd)
      | false =>
        obtain ⟨hmem, hn, hlog⟩ := ht.on_disk hu' hst hf hq
        exact hcovered e (hpl f hmem e hd) hn hlog
    | install hf hi =>
      obtain ⟨_, hn, hlog⟩ := ht.on_disk hu' hst hf rfl
      refine hcovered _ ?_ hn hlog
      rw [← hstate]
      exact hi.2.2.1

/-! ## Moves -/

theorem Covered.withContext (h : Covered S L node e) (context : Option Nat) :
    Covered S L node (withContext context e) := by
  cases context with
  | none => exact h
  | some context =>
    cases e with
    | sendAppendEntries dest q =>
      refine ⟨fun d m hm => ?_, fun _ _ h => (by cases h), fun _ _ h => (by cases h),
        fun d q' hq => ?_⟩
      · cases hm
        exact h.term dest (.appendEntries q) rfl
      · cases hq
        exact h.entries dest q rfl
    | sendInstallSnapshot dest q =>
      refine ⟨fun d m hm => ?_, fun _ _ h => (by cases h), fun _ _ h => (by cases h),
        fun _ _ h => (by cases h)⟩
      cases hm
      exact h.term dest (.installSnapshot q) rfl
    | _ => exact h

/-- A snapshot of the node's own log does not shorten the log. -/
theorem lastIndex_compacted (hc : Contiguous (base c.state + 1) c.state.persistent.log)
    (hown : OwnSnapshot c.state snapshot.metadata) :
    lastIndex (c.compactTo snapshot).state = lastIndex c.state := by
  obtain ⟨hlt, _, e, he, ht⟩ := hown
  have hlen := (List.getElem?_eq_some_iff.mp he).1
  have hc' : Contiguous (base (c.compactTo snapshot).state + 1)
      (c.compactTo snapshot).state.persistent.log := compactedLog_contiguous _ hc
  rw [lastIndex_eq hc, lastIndex_eq hc']
  show snapshot.metadata.lastIncludedIndex + (compactedLog _ _).length = _
  rw [compactedLog_own hlt he ht, length_drop]
  omega

/-- Messages that are no replication requests stay pledged in a compacted state. -/
theorem Pledged.compacted (h : Pledged s e)
    (hne : ∀ dest q, e ≠ .sendAppendEntries dest q) (hs : hardState s' = hardState s)
    (hn : s'.node = s.node) (hlast : lastIndex s' = lastIndex s) : Pledged s' e := by
  simp only [hardState, RaftHardState.mk.injEq] at hs
  cases e with
  | sendAppendEntries dest q => exact absurd rfl (hne dest q)
  | _ => simp only [Pledged, hs, hn, hlast] at h ⊢ <;> exact h

theorem direct?_eq_append {q : AppendEntriesRequest}
    (h : direct? f = some (.sendAppendEntries dest q)) : f = .sendAppendEntries dest q := by
  cases f <;> cases h
  rfl

theorem Core.Promising.waiting_compacted (h : c.Promising S L)
    (hown : OwnSnapshot c.state snapshot.metadata) : Waiting (c.compactTo snapshot).state := by
  intro p hp
  obtain ⟨hall, hno⟩ := h.waiting p hp
  refine ⟨fun f hf e he => (hall f hf e he).compacted ?_ rfl rfl
    (lastIndex_compacted h.orderly.contiguous hown), hno⟩
  rintro dest q rfl
  exact hno dest q (direct?_eq_append he ▸ hf)

theorem Core.Logged.on_disk (h : c.Logged L) (hl : c.pendingLog = none)
    (hn : c.state.pendingHardState = none) : c.state.persistent.log <:+ L :=
  h.clean hl fun ⟨_, hp, _⟩ => by cases hn.symm.trans hp

theorem Core.Promising.covered (h : c.Promising S L) (hl : c.pendingLog = none)
    (hn : c.state.pendingHardState = none) (he : Pledged c.state e) :
    Covered S L c.state.node e :=
  he.covered (h.confirmed hn) (h.on_disk hl hn).subset

theorem Core.Promising.move (h : c.Promising S L) (hne : ∀ q, input ≠ .raftLogPersisted q)
    (hearly : origin.installsEarly input = false)
    (hS : ∀ q, input = .raftHardStatePersisted q → q.state ∈ S)
    (hm : Move origin input c c' effects records) :
    c'.Promising S L ∧ ∀ e ∈ effects, Covered S L c.state.node e := by
  have hl := h.toLogged.move hne hm
  have hidle : ∀ {p : Prop}, p ∨ origin.installsEarly input = true → p :=
    fun hp => hp.resolve_right (by simp [hearly])
  have ho := h.orderly
  cases hm with
  | tidy hs he =>
    refine ⟨h.of_alike hs, fun e hmem => .of_no_message ?_⟩
    have := he e hmem
    cases e <;> first | rfl | cases this
  | event hu hi hstep ht =>
    have hst := ho.stepped hi.ne_apply hstep
    obtain ⟨hpl, hw⟩ := step_pledged ho.peers hi.ne_apply ho.held h.waiting hstep
    have hn : c.state.pendingHardState = none := by
      simpa [hi.not_completion] using (step_outcome ho.peers hi.ne_apply hstep).2.2.1
    obtain ⟨h', hcov⟩ := promising_of_translated hu hst hpl hw
      (fun hn' => hst.hardState hn hn' ▸ h.confirmed hn)
      c.installAfterHardState c'.installAfterHardState ht hl
    refine ⟨h', fun e he => ?_⟩
    obtain ⟨e₁, he₁, rfl⟩ := mem_map.mp he
    exact (hcov e₁ he₁).withContext _
  | defer hu _ _ _ hlt hstep ht =>
    -- a snapshot of a later term: the new term is still to be written
    obtain ⟨hpl, hw⟩ := step_pledged ho.peers (by simp) ho.held h.waiting hstep
    refine promising_of_translated hu
      (ho.stepped (by simp) hstep) hpl hw
      (fun hn => ?_) _ c'.installAfterHardState ht hl
    rw [(step_observeTerm hstep hlt).1] at hn
    cases hn
  | release hu hi hstep ht =>
    obtain ⟨hpl, hw⟩ := step_pledged ho.peers (by simp) ho.held h.waiting hstep
    exact promising_of_translated hu
      (ho.stepped (by simp) hstep) hpl hw
      (fun hn => Figure2.step_completed ho.peers ho.held hstep hn ▸ hS _ hi)
      c.installAfterHardState _ ht hl
  | respond hu _ hh ht =>
    refine ⟨h, fun e he => ?_⟩
    rw [mem_singleton.mp he]
    exact h.covered hu.log (hidle hh) ht
  | follow hu _ hh _ _ _ ht =>
    have hn := hidle hh
    exact promising_of_translated hu (ho.following)
      (.quiet_cons rfl (.nil _)) (.of_none hn) (fun _ => h.confirmed hn)
      c.installAfterHardState c'.installAfterHardState ht hl
  | publishReceived hu _ hh =>
    refine ⟨{ h with
      toLogged := hl
      received := fun p hp _ => ?_ }, Covered.of_silent rfl⟩
    rw [← Option.some.inj hp]
    exact ⟨hidle hh, fun x hx => Option.some.inj hx ▸ rfl⟩
  | publishLocal hu =>
    refine ⟨{ h with
      toLogged := hl
      received := fun p hp hloc => ?_ }, Covered.of_silent rfl⟩
    rw [← Option.some.inj hp] at hloc
    cases hloc
  | persistedLocal _ hp _ hloc hmeta =>
    have hpub := h.publishing _ hp
    rw [if_pos hloc, ← hmeta] at hpub
    have hu := ho.unblocked_of_publishing hp
    refine ⟨{
      toLogged := hl
      confirmed := h.confirmed
      waiting := h.waiting_compacted hpub
      deferred := fun _ hp => by cases hu.log.symm.trans hp
      received := fun _ hp => by cases hp
      restored := fun _ hp => by cases hu.restore.symm.trans hp },
      Covered.of_silent rfl⟩
  | persistedReceived _ hp _ hloc _ _ hr =>
    obtain ⟨hn, hterm⟩ := h.received _ hp hloc
    refine ⟨{ h with
      toLogged := hl
      received := fun _ hp => by cases hp
      restored := fun p hp => ?_ }, Covered.of_silent rfl⟩
    rw [← Option.some.inj hp]
    exact ⟨hn, hterm _ hr⟩
  | restored _ hp =>
    -- the reply leaves only now, with no write of a hard state open
    obtain ⟨hn, hterm⟩ := h.restored _ hp
    have hu := ho.unblocked_of_restoring hp
    refine ⟨{
      toLogged := hl
      confirmed := h.confirmed
      waiting := .of_none hn
      deferred := fun _ hp => by cases hu.log.symm.trans hp
      received := fun _ hp => by cases hu.snapshot.symm.trans hp
      restored := fun _ hp => by cases hp }, ?_⟩
    simp only [mem_cons, not_mem_nil, or_false, forall_eq_or_imp, forall_eq]
    exact ⟨.of_no_message rfl, h.covered hu.log hn hterm⟩
  | applied _ hsnap hrest =>
    refine ⟨{
      toLogged := hl
      confirmed := h.confirmed
      waiting := fun p hp => ⟨(h.waiting p hp).1.congr rfl rfl, (h.waiting p hp).2⟩
      deferred := fun p hp e he => (h.deferred p hp e he).congr rfl rfl
      received := fun _ hp => by cases hsnap.symm.trans hp
      restored := fun _ hp => by cases hrest.symm.trans hp }, by simp⟩
  | applyFailed | schedule =>
    exact ⟨{ h with toLogged := hl }, Covered.of_silent rfl⟩
  | retry => exact ⟨{ h with toLogged := hl }, Covered.of_silent rfl⟩
  | logPersisted hi => exact absurd hi (hne _)

/-! ## Steps -/

/-- The completion of a log write: what waited for it is pledged in the state on disk. -/
theorem Core.Promising.raftLogPersisted (h : c.Promising S L) {completion : PersistRaftLog}
    (hs : c.raftLogPersisted completion = .ok (c', r)) :
    c'.Promising S completion.log ∧
      ∀ e ∈ r.effects, Covered S completion.log c.state.node e := by
  obtain ⟨p, c₁, effects, hp, rfl, hsame, hrepl, hsched⟩ := raftLogPersisted_eq_ok hs
  have hn := (h.orderly.writing p hp).1
  have h₀ : ({ c with pendingLog := none } : Core).Promising S p.request.log :=
    { h with
      toLogged := h.toLogged.forget_writing hp
      deferred := fun _ hp => by cases hp }
  have h₁ := h₀.of_alike hsame
  have hcov : ∀ e ∈ effects, Covered S p.request.log c.state.node e := by
    intro e he
    refine h₀.covered rfl hn ?_
    rcases hrepl.from_effects e he with he | ⟨_, _, _, _, hi, rfl⟩
    · exact h.deferred p hp e he
    · exact hi.2.2.1
  cases hsched with
  | idle => exact ⟨h₁, hcov⟩
  | apply =>
    refine ⟨{ h₁ with
      toLogged := { h₁.toLogged with orderly := { h₁.orderly with } } }, fun e he => ?_⟩
    rcases mem_append.mp he with he | he
    · exact hcov e he
    · exact Covered.of_silent rfl e he

theorem Core.Promising.step (h : c.Promising S L) (hsub : S ⊆ S')
    (hS : ∀ q, input = .raftHardStatePersisted q → q.state ∈ S')
    (hearly : c.installsEarly input = false) (hs : c.step input = .ok (c', r)) :
    c'.Promising S' (input.durableLog L) ∧
      ∀ e ∈ r.effects, Covered S' (input.durableLog L) c.state.node e := by
  replace h := h.mono hsub
  rcases step_log L hs with ⟨q, rfl, hlog⟩ | ⟨hne, hL⟩
  · exact h.raftLogPersisted hlog
  · rw [hL]
    have key := (step_moves h.orderly hs).forall_effects
      (P := fun x => x.Promising S' L ∧ x.state.node = c.state.node)
      (Q := Covered S' L c.state.node)
      (by
        rintro x x' effects records ⟨hx, hnode⟩ hm
        obtain ⟨hx', hcov⟩ := hx.move hne hearly hS hm
        exact ⟨⟨hx', (hx.orderly.move_members hm).1.trans hnode⟩, hnode ▸ hcov⟩)
      ⟨h, rfl⟩
    exact ⟨key.1.1, key.2⟩

/-! ## Acknowledgements of entries -/

theorem append_of_response {r : Figure2.StepResult}
    (h : Figure2.Outcome s event r) (he : event.isCompletion = false)
    (hq : .sendAppendEntriesResponse dest q ∈ r.effects) :
    ∃ sender request, event = .receiveAppendEntries sender request := by
  have hsends : ∀ {s' peers effects}, Sends s' peers effects →
      .sendAppendEntriesResponse dest q ∉ effects := by
    intro s' peers effects hs hmem
    obtain ⟨_, _, _, _, heq⟩ := hs _ hmem
    cases heq
  cases h with
  | appendStale | appendReject | appendAccept => exact ⟨_, _, rfl⟩
  | heartbeat _ _ hs | elected _ _ _ _ _ _ hs => exact absurd hq (hsends hs)
  | appended _ _ _ hs => exact absurd (by simpa using hq) (hsends hs)
  | voteDeny _ ho | voteGrant _ ho => cases ho <;> simp at hq
  | released => cases he
  | _ => simp at hq

theorem Emitted.response (h : Emitted c visible (.sendAppendEntriesResponse dest q)) :
    .sendAppendEntriesResponse dest q ∈ visible := by
  cases h with
  | bookkeeping h => cases h
  | @direct f _ hf h =>
    cases f <;> cases h
    exact hf

theorem withContext_eq_response {context : Option Nat}
    (h : withContext context e = .sendAppendEntriesResponse dest q) :
    e = .sendAppendEntriesResponse dest q := by
  cases context with
  | none => exact h
  | some => cases e <;> first | exact h | cases h

/-- The inputs that can make a core acknowledge entries. -/
def Input.acknowledges : Input → Bool
  | .receiveAppendEntries _ _ => true
  | .raftHardStatePersisted _ => true
  | .raftLogPersisted _ => true
  | _ => false

theorem Core.Orderly.move_response (h : c.Orderly) (hm : Move origin input c c' effects records)
    (hq : .sendAppendEntriesResponse dest q ∈ effects) : input.acknowledges = true := by
  cases hm with
  | tidy _ he => cases he _ hq
  | @event event result _ visible _ _ hu hi hstep ht =>
    obtain ⟨e, he, heq⟩ := mem_map.mp hq
    rw [withContext_eq_response heq] at he
    obtain ⟨_, _, _, r₀, ho, hg⟩ := step_outcome h.peers hi.ne_apply hstep
    obtain ⟨sender, request, rfl⟩ := append_of_response ho hi.not_completion
      (hg.subset (ht.gate.subset (ht.emitted _ he).response))
    cases hi
    rfl
  | defer _ _ _ _ hlt hstep ht =>
    have := ht.gate.subset (ht.emitted _ hq).response
    rw [(step_observeTerm hstep hlt).2] at this
    simp at this
  | release _ hi | logPersisted hi => rw [hi]; rfl
  | follow _ _ _ _ _ _ ht =>
    have := ht.gate.subset (ht.emitted _ hq).response
    simp at this
  | _ => simp at hq

theorem Moves.response (hm : Moves origin input c c' effects records) (h : c.Orderly)
    (hq : .sendAppendEntriesResponse dest q ∈ effects) : input.acknowledges = true := by
  refine (hm.forall_effects (Q := fun e => e = .sendAppendEntriesResponse dest q →
    input.acknowledges = true) ?_ h).2 _ hq rfl
  intro x x' effects records hx hm
  refine ⟨hx.move hm, ?_⟩
  rintro e he rfl
  exact hx.move_response hm he

/-- An acknowledgement finds both writes complete and the entries in the log. -/
theorem Core.transition_matched (ho : c.Orderly) (hw : Waiting c.state)
    (hu : c.Unblocked) (hne : event ≠ .applyCommitted) (h : c.transition event = .ok (c', r))
    (hq : .sendAppendEntriesResponse dest q ∈ r.effects) (hsucc : q.succeeded = true) :
    c'.Idle ∧ q.matchedIndex ≤ lastIndex c'.state := by
  refine ⟨transition_idle ho hu hne h hq (by simp [Effect.message?]), ?_⟩
  obtain ⟨result, hstep, htr⟩ := transition_eq_ok h
  obtain ⟨c₁, visible, effects, ht, hq, hstate, _⟩ :=
    translate_message htr hq (by simp [Effect.message?])
  have hpl := (step_pledged ho.peers hne ho.held hw hstep).1 _
    (ht.gate.subset (ht.emitted _ hq).response) _ rfl
  rw [hstate, ht.same.state]
  exact hpl.2 hsucc

theorem Core.Promising.step_matched (h : c.Promising S L) (hs : c.step input = .ok (c', r))
    (hq : .sendAppendEntriesResponse dest q ∈ r.effects) (hsucc : q.succeeded = true) :
    c'.Idle ∧ q.matchedIndex ≤ lastIndex c'.state := by
  have ho := h.orderly
  have hinput := (step_moves ho hs).response ho hq
  obtain ⟨_, hd⟩ := Core.step_eq_ok hs
  cases hd with
  | logPersisted hsn hr hs =>
    obtain ⟨p, c₁, effects, hp, rfl, hsame, hrepl, hsched⟩ := raftLogPersisted_eq_ok hs
    have key : .sendAppendEntriesResponse dest q ∈ effects →
        c₁.Idle ∧ q.matchedIndex ≤ lastIndex c₁.state := by
      intro hmem
      have hstate : c₁.state = c.state := hsame.state
      refine ⟨⟨⟨hsame.pendingLog, hsame.pendingSnapshot.trans hsn,
        hsame.pendingSnapshotRestore.trans hr⟩, hstate ▸ (ho.writing p hp).1⟩, ?_⟩
      rw [hstate]
      rcases hrepl.from_effects _ hmem with hmem | ⟨_, _, _, _, _, habs⟩
      · exact (h.deferred p hp _ hmem).2 hsucc
      · cases habs
    cases hsched with
    | idle => exact key hq
    | apply =>
      obtain ⟨⟨⟨h1, h2, h3⟩, h4⟩, h5⟩ := key (by simpa [StepResult.emit] using hq)
      exact ⟨⟨⟨h1, h2, h3⟩, h4⟩, h5⟩
  | @unblocked input _ _ hi hsn hr hl hs =>
    have hu : c.Unblocked := ⟨hl, hsn, hr⟩
    cases input with
    | receiveAppendEntries sender request =>
      obtain ⟨_, _, ht⟩ := Except.bind_eq_ok.mp hs
      exact transition_matched ho h.waiting hu (by simp) ht hq hsucc
    | raftHardStatePersisted completion =>
      rcases ho.raftHardStatePersisted hu hs with ht |
        ⟨c₁, sender, request, r₁, r₂, hidle, hsilent, hrec, heff⟩
      · exact transition_matched ho h.waiting hu (by simp) ht hq hsucc
      · rw [heff] at hq
        rcases mem_append.mp hq with hq | hq
        · cases hsilent _ hq
        · obtain ⟨⟨_, habs⟩, _⟩ := receiveSnapshot_message hidle.toUnblocked
            hidle.hardState hrec hq (by simp [Effect.message?])
          cases habs
    | raftLogPersisted => cases hi
    | _ => cases hinput
  | _ => cases hinput

end

/-! ## Runs -/

theorem Core.promising_of_make {c₀ : Core} (hm : make a = .ok c₀)
    (hs : c₀.start = .ok (c, r)) :
    c.Promising [a.recovered] a.recoveredLog ∧ c.state.node = a.self := by
  obtain ⟨_, hrec, _, hlog, _, hsnap, hrest, _⟩ := make_eq_ok hm
  obtain ⟨hsame, _⟩ := start_eq_ok hs
  obtain ⟨hnode, _, _, hterm, hvote, _, hpend, _⟩ := recoverState_eq_ok hrec
  have hstate : c.state = c₀.state := hsame.state
  refine ⟨{
    toLogged := logged_of_make hm hs
    confirmed := fun _ => ?_
    waiting := .of_none (hstate ▸ hpend)
    deferred := fun p hp => by cases hlog.symm.trans (hsame.pendingLog.symm.trans hp)
    received := fun p hp => by cases hsnap.symm.trans (hsame.pendingSnapshot.symm.trans hp)
    restored := fun p hp =>
      by cases hrest.symm.trans (hsame.pendingSnapshotRestore.symm.trans hp) }, hstate ▸ hnode⟩
  rw [hstate, hardState, hterm, hvote]
  exact mem_singleton_self _

theorem confirmedHardStates_subset (a : Recovery) (calls : List Call) (call : Call) :
    confirmedHardStates a calls ⊆ confirmedHardStates a (calls ++ [call]) := by
  simp only [confirmedHardStates, filterMap_append]
  exact cons_subset_cons _ (subset_append_left _ _)

theorem mem_confirmedHardStates (h : call.input = .raftHardStatePersisted q) :
    q.state ∈ confirmedHardStates a (calls ++ [call]) := by
  refine mem_cons_of_mem _ (mem_filterMap.mpr ⟨call, by simp, ?_⟩)
  rw [h]

theorem CoreRun.promising (run : CoreRun a calls c)
    (hearly : ∀ call ∈ calls, call.before.installsEarly call.input = false) :
    c.Promising (confirmedHardStates a calls) (confirmedLog a calls) ∧ c.state.node = a.self := by
  induction run with
  | start hm hs => exact promising_of_make hm hs
  | step run h ih =>
    obtain ⟨hp, hnode⟩ := ih fun call hc => hearly call (mem_append_left _ hc)
    rw [confirmedLog_append]
    refine ⟨(hp.step (confirmedHardStates_subset a _ _) (fun q hq => ?_)
      (hearly _ (mem_append_right _ (mem_singleton_self _))) h).1,
      (hp.orderly.step_members h).1.trans hnode⟩
    exact mem_confirmedHardStates hq

/-- Every entry up to `m` is on disk: it is below the durable snapshot, or the log, which is a
suffix of the disk's `L`, has it. -/
structure Core.OnDisk (c : Core) (L : List LogEntry) (m : Nat) : Prop where
  log : c.state.persistent.log <:+ L
  entries : ∀ i, 0 < i → i ≤ m →
    (∃ d, c.durableSnapshot = some d ∧ i ≤ d.metadata.lastIncludedIndex) ∨
      ∃ e, Figure2.entryAt c.state i = .ok e ∧ e.index = i

theorem Core.Logged.onDisk (h : c.Logged L) (hi : c.Idle) {m : Nat}
    (hm : m ≤ lastIndex c.state) : c.OnDisk L m where
  log := h.on_disk hi.log hi.hardState
  entries := by
    intro i h0 hle
    have hc := h.orderly.contiguous
    by_cases hbase : i ≤ base c.state
    · left
      cases hd : c.durableSnapshot with
      | none =>
        rw [base, ← h.snapshot, hd] at hbase
        exact absurd hbase (by simpa using h0.ne')
      | some d =>
        rw [base, ← h.snapshot, hd] at hbase
        exact ⟨d, rfl, hbase⟩
    · right
      rw [lastIndex_eq hc] at hm
      obtain ⟨e, he⟩ : ∃ e, c.state.persistent.log[i - base c.state - 1]? = some e :=
        ⟨_, getElem?_eq_getElem (by omega)⟩
      have hentry := entryAt_eq_ok.mpr ⟨by omega, he⟩
      exact ⟨e, hentry, (Figure2.entryAt_index hc hentry).1⟩

/-- What the messages of a call say is on the disk of the core. -/
structure Promised (a : Recovery) (calls : List Call) (call : Call) : Prop where
  vote : ∀ dest T, .sendRequestVoteResponse dest ⟨T, true⟩ ∈ call.result.effects →
    ⟨T, some dest⟩ ∈ confirmedHardStates a (calls ++ [call])
  candidacy : ∀ dest q, .sendRequestVote dest q ∈ call.result.effects →
    ⟨q.term, some a.self⟩ ∈ confirmedHardStates a (calls ++ [call])
  acknowledgement : ∀ dest q, .sendAppendEntriesResponse dest q ∈ call.result.effects →
    q.succeeded = true →
      (∃ hs ∈ confirmedHardStates a (calls ++ [call]), hs.currentTerm = q.term) ∧
        call.after.OnDisk (confirmedLog a (calls ++ [call])) q.matchedIndex
  entries : ∀ dest q, .sendAppendEntries dest q ∈ call.result.effects →
    q.entries ⊆ confirmedLog a (calls ++ [call])

/-- **Votes and acknowledgements are durable promises**, in every run in which no snapshot
message is accepted while a hard-state write is outstanding. -/
theorem messages_promised {calls later : List Call} {c : Core}
    (run : CoreRun a (calls ++ call :: later) c)
    (hearly : ∀ x ∈ calls ++ call :: later, x.before.installsEarly x.input = false) :
    Promised a calls call := by
  obtain ⟨hrun, hstep⟩ := run.before
  obtain ⟨hp, hnode⟩ := hrun.promising fun x hx => hearly x (mem_append_left _ hx)
  obtain ⟨hp', hcov⟩ := hp.step (confirmedHardStates_subset a calls call)
    (fun q hq => mem_confirmedHardStates hq) (hearly call (by simp)) hstep
  rw [hnode, ← confirmedLog_append] at hcov
  rw [← confirmedLog_append] at hp'
  exact {
    vote := fun dest T he => (hcov _ he).vote dest T rfl
    candidacy := fun dest q he => (hcov _ he).candidacy dest q rfl
    acknowledgement := fun dest q he hsucc => by
      obtain ⟨hidle, hmatched⟩ := hp.step_matched hstep he hsucc
      exact ⟨(hcov _ he).term dest _ rfl, hp'.onDisk hidle hmatched⟩
    entries := fun dest q he => (hcov _ he).entries dest q rfl }

/-- The follower acknowledges its first entry once both writes are complete. -/
theorem messages_promised_follower :
    ∃ calls call, CoreRun firstNode (calls ++ [call]) call.after ∧
      (∀ x ∈ calls ++ [call], x.before.installsEarly x.input = false) ∧
      .sendAppendEntriesResponse 2 ⟨1, true, 1, none⟩ ∈ call.result.effects ∧
      Promised firstNode calls call := by
  obtain ⟨calls, call, run, h⟩ := @CoreRun.of_accepts firstNode followerInputs firstLogWrite
    (fun calls call => (calls ++ [call]).all (fun x => !x.before.installsEarly x.input) &&
      decide (.sendAppendEntriesResponse 2 ⟨1, true, 1, none⟩ ∈ call.result.effects))
    (by decide +kernel)
  simp only [Bool.and_eq_true, all_eq_true, Bool.not_eq_true', decide_eq_true_eq] at h
  exact ⟨calls, call, run, h.1, h.2, messages_promised run h.1⟩

/-! ## A snapshot that arrives early -/

/-- A snapshot of term 1 up to the first entry, sent in term 2. -/
def earlySnapshot : RaftSnapshot :=
  ⟨⟨1, 1, 0, 0, ⟨[1, 2, 3], []⟩, 1⟩, [], crc32c []⟩

/-- Node 2 sends two entries of term 2; while that term is being written, a snapshot with an
older first entry is installed and takes both entries away. -/
def earlyInputs : List Input :=
  [.receiveAppendEntries 2
      ⟨2, 2, 0, 0, [⟨2, 1, sampleCommand 1⟩, ⟨2, 2, sampleCommand 2⟩], 0, none⟩,
    .receiveInstallSnapshot 3
      ⟨2, 3, 1, earlySnapshot.metadata, 0, 0, [], earlySnapshot.checksum, true, none⟩,
    .raftSnapshotPersisted ⟨2305843009213693952, earlySnapshot⟩,
    .raftSnapshotRestored 2305843009213693952 1,
    .raftHardStatePersisted ⟨1, ⟨2, none⟩⟩]

/-- The acknowledgement of the two entries leaves although neither is on disk. -/
theorem messages_not_promised :
    ¬ ∀ (a : Recovery) (calls : List Call) (call : Call) (c : Core),
      CoreRun a (calls ++ [call]) c → Promised a calls call := by
  intro hall
  obtain ⟨calls, call, run, h⟩ := @CoreRun.of_accepts firstNode earlyInputs
    (.raftLogPersisted ⟨logRequestBase, []⟩)
    (fun _ call => decide (.sendAppendEntriesResponse 2 ⟨2, true, 2, none⟩ ∈ call.result.effects ∧
      call.after.durableSnapshot = some earlySnapshot ∧
      call.after.state.persistent.log = []))
    (by decide +kernel)
  obtain ⟨hmem, hsnap, hlog⟩ := of_decide_eq_true h
  obtain ⟨_, hdisk⟩ := (hall firstNode calls call call.after run).acknowledgement _ _ hmem rfl
  rcases hdisk.entries 2 (by simp) (by simp) with ⟨d, hd, hle⟩ | ⟨e, he, _⟩
  · rw [hsnap] at hd
    cases hd
    exact absurd hle (by decide)
  · have := (entryAt_eq_ok.mp he).2
    rw [hlog] at this
    simp at this

end KuraMetadata.Election
