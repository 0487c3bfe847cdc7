import KuraMetadata.Raft.Core.Durability
import KuraMetadata.Raft.Core.Requests
import KuraMetadata.Storage.Types

/-! # The hard-state writes of a core

The store refuses a write that does not follow the hard state on disk. The writes a core waits
for lead from the state on disk to its own hard state (`Core.Backed`), each one by a transition
the store accepts, so the write a call emits is one the store accepts. The one exception is a
vote in term zero: nothing turns away a `RequestVote` of that term. -/

namespace KuraMetadata.Figure2

open List

open Storage (Follows)

/-! ## The writes of the specification -/

/-- The hard-state writes among the effects, in their order. -/
def hardStateWrites (effects : List Effect) : List PersistRaftHardState :=
  effects.filterMap fun
    | .persistRaftHardState request => some request
    | _ => none

/-- The writes a state waits for: the outstanding one and those that wait behind it. -/
def State.writes (s : State) : List PersistRaftHardState :=
  match s.pendingHardState with
  | none => []
  | some p => p.request :: hardStateWrites p.deferredEffects

/-- The writes lead from one hard state to another. -/
inductive Leads : RaftHardState → List PersistRaftHardState → RaftHardState → Prop where
  | done (h : RaftHardState) : Leads h [] h
  | write {h h' : RaftHardState} {q : PersistRaftHardState} {rest : List PersistRaftHardState}
      (hid : q.requestId ≠ 0) (hf : Follows h q.state) (ht : Leads q.state rest h') :
      Leads h (q :: rest) h'

@[simp]
theorem hardStateWrites_append (l l' : List Effect) :
    hardStateWrites (l ++ l') = hardStateWrites l ++ hardStateWrites l' :=
  filterMap_append

@[simp]
theorem hardStateWrites_cons (q : PersistRaftHardState) (l : List Effect) :
    hardStateWrites (.persistRaftHardState q :: l) = q :: hardStateWrites l := rfl

theorem hardStateWrites_of_ungated {effects : List Effect} (h : Ungated effects) :
    hardStateWrites effects = [] := by
  rw [hardStateWrites, filterMap_eq_nil_iff]
  intro e he
  cases e with
  | persistRaftHardState q => exact absurd he (h q)
  | _ => rfl

theorem writes_of_none {s : State} (h : s.pendingHardState = none) : s.writes = [] := by
  rw [State.writes, h]

/-- A request for a vote in term zero. -/
def Event.zeroVote : Event → Bool
  | .receiveRequestVote _ request => request.term = 0
  | _ => false

section

variable {s : State} {event : Event} {r r' : StepResult} {q : PersistRaftHardState}

theorem Observed.leads {s₁ : State} {T : Nat} {observed : List Effect}
    (ho : Observed s T s₁ observed) (hid : s.nextHardStateRequestId ≠ 0) :
    Leads (hardState s) (hardStateWrites observed) (hardState s₁) := by
  cases ho with
  | same => exact .done _
  | higher h =>
    refine .write hid ⟨by simp, by simp, h.le, fun he => ?_⟩ (.done _)
    exact absurd he (Nat.ne_of_gt h)

theorem Leads.append {h₁ h₂ h₃ : RaftHardState} {l l' : List PersistRaftHardState}
    (h : Leads h₁ l h₂) (h' : Leads h₂ l' h₃) : Leads h₁ (l ++ l') h₃ := by
  induction h with
  | done => exact h'
  | write hid hf _ ih => exact .write hid hf (ih h')

/-- The writes of a handler lead from the hard state before it to the one after it. -/
theorem Outcome.leads (h : Outcome s event r) (he : event.isCompletion = false)
    (hz : event.zeroVote = false) (hid : s.nextHardStateRequestId ≠ 0) (hnode : s.node ≠ 0)
    (hpeers : 0 ∉ s.peers) :
    Leads (hardState s) (hardStateWrites r.effects) (hardState r.state) := by
  have hsilent : ∀ {s₁ : State} {effects : List Effect}, Ungated effects →
      hardState s₁ = hardState s →
        Leads (hardState s) (hardStateWrites effects) (hardState s₁) := by
    intro s₁ effects hu hs
    rw [hardStateWrites_of_ungated hu, hs]
    exact .done _
  have hobserved : ∀ {s₁ s₂ : State} {T : Nat} {observed rest : List Effect},
      Observed s T s₁ observed → Ungated rest → hardState s₂ = hardState s₁ →
      Leads (hardState s) (hardStateWrites (observed ++ rest)) (hardState s₂) := by
    intro s₁ s₂ T observed rest ho hu hs
    rw [hardStateWrites_append, hardStateWrites_of_ungated hu, append_nil, hs]
    exact ho.leads hid
  cases h with
  | idle => exact .done _
  | heartbeat _ _ hs | elected _ _ _ _ _ _ hs => exact hsilent hs.ungated rfl
  | campaign =>
    rw [hardStateWrites_cons, hardStateWrites_of_ungated (by simp [Ungated])]
    refine .write hid ⟨by simpa using hnode, by simp, Nat.le_succ _, fun he => ?_⟩ (.done _)
    exact absurd he (Nat.succ_ne_self _)
  | observe _ _ hT => exact (Observed.higher hT).leads hid
  | voteStale | voteAgain | voteRecorded | appendStale | replicated | retried =>
    exact hsilent (by simp [Ungated]) rfl
  | voteDeny _ ho | appendReject _ ho => exact hobserved ho (by simp [Ungated]) rfl
  | @voteGrant sender request _ s₁ observed _ ho hp _ ht hv =>
    rw [hardStateWrites_append]
    refine (ho.leads hid).append (.write ?_ ⟨?_, ?_, le_rfl, ?_⟩ (.done _))
    · cases ho with
      | same => exact hid
      | higher => exact Nat.succ_ne_zero _
    · rintro ⟨⟩
      exact hpeers hp
    · intro h0
      rw [Event.zeroVote, ht, decide_eq_false_iff_not] at hz
      exact absurd h0 hz
    · intro _ hne
      exact absurd hv hne
  | @appendAccept _ _ _ _ _ _ changed _ ho =>
    refine hobserved ho ?_ rfl
    cases changed <;> simp [Ungated]
  | appended _ _ _ hs =>
    refine hsilent ?_ rfl
    intro q hq
    exact hs.ungated q (by simpa using hq)
  | released => cases he

/-- Behind the gate, the first write is outstanding and the others wait for it. -/
theorem Gated.writes (hg : Gated r r') (hn : r.state.pendingHardState = none) :
    r'.state.writes = hardStateWrites r.effects := by
  cases hg with
  | through hu => rw [writes_of_none hn, hardStateWrites_of_ungated hu]
  | cut he hb =>
    rw [he, hardStateWrites_append, hardStateWrites_of_ungated hb]
    rfl

/-- A write that gets through the gate is the first one the state waits for. -/
theorem Gated.emits (hg : Gated r r') (hq : .persistRaftHardState q ∈ r'.effects) :
    ∃ rest, r'.state.writes = q :: rest := by
  cases hg with
  | through hu => exact absurd hq (hu q)
  | @cut before deferred request he hb =>
    rcases mem_append.mp hq with hq | hq
    · exact absurd hq (hb q)
    · cases mem_singleton.mp hq
      exact ⟨_, rfl⟩

theorem step_emits (hp : s.peers ≠ []) (hne : event ≠ .applyCommitted) (h : step s event = .ok r)
    (hq : .persistRaftHardState q ∈ r.effects) : ∃ rest, r.state.writes = q :: rest := by
  obtain ⟨_, _, _, _, _, hg⟩ := step_outcome hp hne h
  exact hg.emits hq

theorem step_leads (hp : s.peers ≠ []) (hne : event ≠ .applyCommitted)
    (he : event.isCompletion = false) (hz : event.zeroVote = false) (hnode : s.node ≠ 0)
    (hpeers : 0 ∉ s.peers) (h : step s event = .ok r) :
    s.writes = [] ∧ Leads (hardState s) r.state.writes (hardState r.state) := by
  obtain ⟨hwf, _, hcompl, r₀, ho, hg⟩ := step_outcome hp hne h
  have hn : s.pendingHardState = none := by simpa [he] using hcompl
  have hlead := ho.leads he hz hwf.request_pos hnode hpeers
  have hstate : hardState r.state = hardState r₀.state := by
    cases hg <;> rfl
  rw [hg.writes ((ho.pending he).trans hn), hstate]
  exact ⟨writes_of_none hn, hlead⟩

/-- A completion takes the first write off the list. -/
theorem step_completes (hp : s.peers ≠ []) (h : step s (.raftHardStatePersisted q) = .ok r) :
    s.writes = q :: r.state.writes ∧ hardState r.state = hardState s := by
  obtain ⟨_, _, _, r₀, ho, hg⟩ := step_outcome hp (by simp) h
  cases ho with
  | idle he | observe he => cases he
  | released hpend hq =>
    rw [hg.writes rfl, State.writes, hpend, hq]
    refine ⟨rfl, ?_⟩
    cases hg <;> rfl

end

end KuraMetadata.Figure2

namespace KuraMetadata.Election

open Figure2 (hardState Leads)
open Storage (Follows validateTransition validateTransition_eq_ok)

variable {a : Recovery} {r : StepResult} {calls : List Call}

/-! ## The writes of a core -/

/-- The input asks for a vote in term zero. -/
def Input.zeroVote : Input → Bool
  | .receiveRequestVote _ request => request.term = 0
  | _ => false

/-- The hard state on disk once the record is. -/
def Record.persisted (disk : RaftHardState) : Record → RaftHardState
  | .hardState state => state
  | _ => disk

/-- What the core waits for leads from the hard state on disk to its own. -/
structure Core.Backed (disk : RaftHardState) (c : Core) : Prop where
  node : c.state.node ≠ 0
  peers : 0 ∉ c.state.peers
  leads : Leads disk c.state.writes (hardState c.state)
  /-- No hard-state write waits for the log. -/
  log : ∀ p, c.pendingLog = some p → ∀ q, .persistRaftHardState q ∉ p.deferredEffects

section

variable {origin c c₁ c' : Core} {input : Input} {effects : List Effect}
variable {records records' : List Record} {disk : RaftHardState} {visible : List Figure2.Effect}
variable {q : PersistRaftHardState} {result : Figure2.StepResult} {previous : RaftRole}

theorem Emitted.hardState (h : Emitted c visible (.persistRaftHardState q)) :
    .persistRaftHardState q ∈ visible := by
  cases h with
  | bookkeeping h => cases h
  | @direct f _ hf h =>
    cases f with
    | persistRaftHardState => cases h; exact hf
    | _ => cases h

theorem Translated.emits (ht : Translated c result previous c₁ visible effects)
    (hq : .persistRaftHardState q ∈ effects) :
    .persistRaftHardState q ∈ result.effects :=
  ht.gate.subset (ht.emitted _ hq).hardState

/-- A hard-state write is alone among the effects of its step, so it never waits for the log. -/
theorem Translated.deferred
    (ht : Translated c result previous c₁ visible effects) (hl : c.pendingLog = none)
    (hst : Figure2.Stepped c.state result)
    (hw : ∀ q, .persistRaftHardState q ∈ result.effects → ∃ rest, result.state.writes = q :: rest)
    {p : PendingLogPersistence} (hp : c₁.pendingLog = some p) (q : PersistRaftHardState) :
    .persistRaftHardState q ∉ p.deferredEffects := by
  intro hq
  cases ht.gate with
  | through _ hl' =>
    rw [hl', hl] at hp
    cases hp
  | cut he _ _ hl' _ hfrom =>
    rw [hl'] at hp
    cases hp
    have hmem : .persistRaftHardState q ∈ result.effects := by
      rcases hfrom _ hq with h | ⟨f, hf, h⟩ | ⟨_, _, h⟩
      · cases h
      · rw [he]
        cases f with
        | persistRaftHardState =>
          cases h
          exact List.mem_append_right _ (List.mem_cons_of_mem _ hf)
        | _ => cases h
      · cases h
    obtain ⟨rest, hrest⟩ := hw q hmem
    have hsome : result.state.pendingHardState.isSome := by
      by_contra hn
      rw [Option.not_isSome_iff_eq_none] at hn
      rw [Figure2.writes_of_none hn] at hrest
      cases hrest
    have := hst.quiet hsome .persistState (by simp [he])
    cases this

theorem withContext_eq_hardState {context : Option Nat} {e : Effect}
    (h : withContext context e = .persistRaftHardState q) : e = .persistRaftHardState q := by
  cases context with
  | none => exact h
  | some context => cases e <;> first | exact h | cases h

theorem Input.Causes.zeroVote {event : Figure2.Event} (h : input.Causes event)
    (hz : input.zeroVote = false) : event.zeroVote = false := by
  cases h <;> first | rfl | exact hz

/-- The write is complete, and was one the store accepts. -/
structure Completed (records : List Record) (q : PersistRaftHardState) : Prop where
  record : .hardState q.state ∈ records
  request : q.requestId ≠ 0
  follows : Follows q.state q.state

theorem Completed.subset (h : Completed records q)
    (hsub : records ⊆ records') : Completed records' q :=
  { h with record := hsub h.record }

/-- What a move or a sequence of moves does to the writes a core waits for: they still lead
from the disk to the hard state, an emitted write comes first, and a write that came first
before still does or has been completed. -/
structure Core.WritesOn (disk : RaftHardState) (c c' : Core) (effects : List Effect)
    (records : List Record) : Prop where
  leads : Leads (records.foldl Record.persisted disk) c'.state.writes (hardState c'.state)
  emitted : ∀ q, .persistRaftHardState q ∈ effects →
    (∃ rest, c'.state.writes = q :: rest) ∨ Completed records q
  kept : ∀ q rest, c.state.writes = q :: rest →
    (∃ rest', c'.state.writes = q :: rest') ∨ Completed records q

theorem Core.WritesOn.refl (h : Leads disk c.state.writes (hardState c.state)) :
    Core.WritesOn disk c c [] [] :=
  ⟨h, by simp, fun _ rest hq => .inl ⟨rest, hq⟩⟩

theorem Core.WritesOn.trans {effects' : List Effect} (h : Core.WritesOn disk c c₁ effects records)
    (h' : Core.WritesOn (records.foldl Record.persisted disk) c₁ c' effects' records') :
    Core.WritesOn disk c c' (effects ++ effects') (records ++ records') where
  leads := by
    rw [List.foldl_append]
    exact h'.leads
  emitted q hq := by
    rcases List.mem_append.mp hq with hq | hq
    · rcases h.emitted q hq with ⟨rest, hq⟩ | hq
      · exact (h'.kept q rest hq).imp id (·.subset (List.subset_append_right _ _))
      · exact .inr (hq.subset (List.subset_append_left _ _))
    · exact (h'.emitted q hq).imp id (·.subset (List.subset_append_right _ _))
  kept q rest hq := by
    rcases h.kept q rest hq with ⟨rest, hq⟩ | hq
    · exact (h'.kept q rest hq).imp id (·.subset (List.subset_append_right _ _))
    · exact .inr (hq.subset (List.subset_append_left _ _))

variable (h : c.Backed disk)
include h

theorem Core.Backed.same (hw : c'.state.writes = c.state.writes)
    (hs : hardState c'.state = hardState c.state)
    (he : ∀ q, .persistRaftHardState q ∉ effects)
    (hr : records.foldl Record.persisted disk = disk) :
    Core.WritesOn disk c c' effects records where
  leads := by
    rw [hr, hw, hs]
    exact h.leads
  emitted q hq := absurd hq (he q)
  kept _ rest hq := .inl ⟨rest, hw.trans hq⟩

variable (ho : c.Orderly)
include ho

theorem Core.Backed.stepped {event : Figure2.Event}
    (hne : event ≠ .applyCommitted) (hc : event.isCompletion = false) (hz : event.zeroVote = false)
    (hstep : Figure2.step c.state event = .ok result) (hs : c'.state = result.state)
    (he : ∀ q, .persistRaftHardState q ∈ effects → .persistRaftHardState q ∈ result.effects) :
    Core.WritesOn disk c c' effects [] := by
  obtain ⟨hnil, hleads⟩ := Figure2.step_leads ho.peers hne hc hz h.node h.peers hstep
  have hdisk : hardState c.state = disk := by
    have := h.leads
    rw [hnil] at this
    cases this
    rfl
  exact {
    leads := by
      rw [hs, List.foldl_nil, ← hdisk]
      exact hleads
    emitted := fun q hq => by
      rw [hs]
      exact .inl (Figure2.step_emits ho.peers hne hstep (he q hq))
    kept := fun q rest hq => by
      rw [hnil] at hq
      cases hq }

theorem Core.Backed.released {completion : PersistRaftHardState}
    (hstep : Figure2.step c.state (.raftHardStatePersisted completion) = .ok result)
    (hs : c'.state = result.state)
    (he : ∀ q, .persistRaftHardState q ∈ effects → .persistRaftHardState q ∈ result.effects) :
    Core.WritesOn disk c c' effects [.hardState completion.state] := by
  obtain ⟨hw, hhard⟩ := Figure2.step_completes ho.peers hstep
  have hleads := h.leads
  rw [hw, ← hhard] at hleads
  obtain _ | ⟨hid, hf, ht⟩ := hleads
  exact {
    leads := by
      rw [hs]
      exact ht
    emitted := fun q hq => by
      rw [hs]
      exact .inl (Figure2.step_emits ho.peers (by simp) hstep (he q hq))
    kept := fun q rest hq => by
      rw [hw] at hq
      cases hq
      exact .inr ⟨List.mem_singleton.mpr rfl, hid, hf.again⟩ }

theorem Core.Backed.move_writes
    (hz : input.zeroVote = false) (hm : Move origin input c c' effects records) :
    Core.WritesOn disk c c' effects records := by
  cases hm with
  | tidy hs he =>
    refine h.same (by rw [hs.state]) (by rw [hs.state]) (fun q hq => ?_) rfl
    cases he _ hq
  | event _ hi hstep ht =>
    refine h.stepped ho hi.ne_apply hi.not_completion (hi.zeroVote hz) hstep ht.same.state ?_
    intro q hq
    obtain ⟨e, he, hq⟩ := List.mem_map.mp hq
    exact ht.emits (withContext_eq_hardState hq ▸ he)
  | defer _ _ _ _ _ hstep ht =>
    exact h.stepped ho (by simp) rfl rfl hstep ht.same.state fun q => ht.emits
  | release _ _ hstep ht => exact h.released ho hstep ht.same.state fun q => ht.emits
  | follow _ _ _ _ _ _ ht =>
    refine h.same (by rw [ht.same.state]; rfl) (by rw [ht.same.state]; rfl) (fun q hq => ?_) rfl
    have := ht.emits hq
    simp at this
  | @logPersisted pending _ _ _ hp hs he =>
    refine h.same (by rw [hs.state]) (by rw [hs.state]) (fun q hq => ?_) rfl
    rcases he.from_effects _ hq with hq | ⟨_, _, _, _, _, hq⟩
    · exact h.log pending hp q hq
    · cases hq
  | _ => exact h.same rfl rfl (by simp) rfl

theorem Core.Backed.move_log (hm : Move origin input c c' effects records) :
    ∀ p, c'.pendingLog = some p → ∀ q, .persistRaftHardState q ∉ p.deferredEffects := by
  cases hm with
  | tidy hs => exact fun p hp => h.log p (hs.pendingLog ▸ hp)
  | event hu hi hstep ht =>
    exact fun p => ht.deferred hu.log (ho.stepped hi.ne_apply hstep)
      fun _ => Figure2.step_emits ho.peers hi.ne_apply hstep
  | defer hu _ _ _ _ hstep ht | release hu _ hstep ht =>
    exact fun p => ht.deferred hu.log (ho.stepped (by simp) hstep)
      fun _ => Figure2.step_emits ho.peers (by simp) hstep
  | follow hu _ _ _ _ _ ht =>
    exact fun p => ht.deferred hu.log (ho.following) (by simp)
  | logPersisted _ _ hs =>
    intro p hp
    rw [hs.pendingLog] at hp
    cases hp
  | _ => exact h.log

theorem Core.Backed.move (hz : input.zeroVote = false)
    (hm : Move origin input c c' effects records) :
    c'.Backed (records.foldl Record.persisted disk) where
  node := (ho.move_members hm).1 ▸ h.node
  peers := (ho.move_members hm).2 ▸ h.peers
  leads := (h.move_writes ho hz hm).leads
  log := h.move_log ho hm

theorem Core.Backed.moves (hz : input.zeroVote = false)
    (hm : Moves origin input c c' effects records) :
    c'.Backed (records.foldl Record.persisted disk) ∧
      Core.WritesOn disk c c' effects records := by
  induction hm with
  | refl => exact ⟨h, .refl h.leads⟩
  | tail hms hm ih =>
    have ho₁ := hms.induction Core.Orderly.move ho
    refine ⟨?_, ih.2.trans (ih.1.move_writes ho₁ hz hm)⟩
    rw [List.foldl_append]
    exact ih.1.move ho₁ hz hm

/-- A write that a call emits may follow what is on disk after the call. -/
theorem Core.Backed.step (hz : input.zeroVote = false) (hs : c.step input = .ok (c', r)) :
    c'.Backed (input.records.foldl Record.persisted disk) ∧
      ∀ q, .persistRaftHardState q ∈ r.effects →
        q.requestId ≠ 0 ∧ Follows (input.records.foldl Record.persisted disk) q.state := by
  obtain ⟨hb, hw⟩ := h.moves ho hz (Core.step_moves ho hs)
  refine ⟨hb, fun q hq => ?_⟩
  rcases hw.emitted q hq with ⟨rest, hrest⟩ | hrec
  · have hleads := hw.leads
    rw [hrest] at hleads
    cases hleads with
    | write hid hf => exact ⟨hid, hf⟩
  · have hdisk : input.records.foldl Record.persisted disk = q.state := by
      have := hrec.record
      cases input <;> simp_all [Input.records, Record.persisted]
    rw [hdisk]
    exact ⟨hrec.request, hrec.follows⟩

end

/-! ## Every write is accepted -/

/-- The hard state on disk after the calls: the last one that was confirmed, or the recovered
one. -/
def persistedHardState (a : Recovery) (calls : List Call) : RaftHardState :=
  calls.foldl (fun disk call => call.input.records.foldl Record.persisted disk) a.recovered

theorem checkConfiguration_peers {u : Unit} (h : checkConfiguration a = .ok u) : 0 ∉ a.peers := by
  simp only [checkConfiguration, Except.ite_error_eq_ok] at h
  exact h.2.1

theorem Core.backed_of_make {c₀ c : Core} (hm : Core.make a = .ok c₀)
    (hs : c₀.start = .ok (c, r)) : c.Backed a.recovered := by
  obtain ⟨hcheck, hrec, _, hlog, _⟩ := Core.make_eq_ok hm
  obtain ⟨hsame, _⟩ := Core.start_eq_ok hs
  obtain ⟨hnode, hpeers, _, hterm, hvote, _, hpend, _⟩ := recoverState_eq_ok hrec
  have hstate : c.state = c₀.state := hsame.state
  refine ⟨?_, ?_, ?_, fun p hp => by cases hlog.symm.trans (hsame.pendingLog.symm.trans hp)⟩
  · rw [hstate, hnode]
    exact (checkConfiguration_eq_ok hcheck).1
  · rw [hstate, hpeers]
    exact checkConfiguration_peers hcheck
  · have : hardState c.state = a.recovered := by
      rw [hstate, hardState, hterm, hvote]
    rw [this, Figure2.writes_of_none (by rw [hstate, hpend])]
    exact .done _

theorem CoreRun.backed {c : Core} (run : CoreRun a calls c)
    (hz : ∀ call ∈ calls, call.input.zeroVote = false) :
    c.Backed (persistedHardState a calls) := by
  induction run with
  | start hm hs => exact Core.backed_of_make hm hs
  | step run hs ih =>
    rw [persistedHardState, List.foldl_append]
    exact ((ih fun call hc => hz call (List.mem_append_left _ hc)).step run.orderly
      (hz _ (by simp)) hs).1

/-- What makes a write acceptable: to `FileRaftHardStateStore::persist` and to the recovery of
the simulated node. -/
structure Acceptable (disk : RaftHardState) (q : PersistRaftHardState) : Prop where
  request : q.requestId ≠ 0
  store : validateTransition disk q.state = .ok ()
  recovery : validateRecoveredTransition disk q.state = .ok ()

theorem acceptable_iff {disk : RaftHardState} {q : PersistRaftHardState} :
    Acceptable disk q ↔ q.requestId ≠ 0 ∧ Follows disk q.state := by
  constructor
  · exact fun h => ⟨h.request, validateTransition_eq_ok.mp h.store⟩
  · rintro ⟨hid, hf⟩
    refine ⟨hid, validateTransition_eq_ok.mpr hf, ?_⟩
    simp only [validateRecoveredTransition, Except.ite_error_eq_ok, not_or, not_and,
      Nat.not_lt, Option.isSome_iff_ne_none, ne_eq, not_not, and_true]
    exact ⟨⟨hf.term, hf.zero⟩, hf.vote⟩

/-- A node from its first start on: it runs, stops at any moment and starts again from the
hard state it has persisted. Each life is what the core was built from and its calls. -/
inductive Lives : List (Recovery × List Call) → Prop where
  | first {a : Recovery} {calls : List Call} {c : Core} (run : CoreRun a calls c) :
      Lives [(a, calls)]
  | restart {earlier : List (Recovery × List Call)} {a b : Recovery} {calls calls' : List Call}
      {c : Core} (h : Lives (earlier ++ [(a, calls)]))
      (hb : b.recovered = persistedHardState a calls) (run : CoreRun b calls' c) :
      Lives (earlier ++ [(a, calls), (b, calls')])

theorem Lives.run {lives : List (Recovery × List Call)} (h : Lives lives)
    (hmem : (a, calls) ∈ lives) : ∃ c, CoreRun a calls c := by
  induction h with
  | first run =>
    cases List.mem_singleton.mp hmem
    exact ⟨_, run⟩
  | restart _ _ run ih =>
    simp only [List.mem_append, List.mem_cons, List.not_mem_nil, or_false] at hmem ih
    rcases hmem with hmem | hmem | hmem
    · exact ih (.inl hmem)
    · exact ih (.inr hmem)
    · cases hmem
      exact ⟨_, run⟩

/-- **The store accepts every hard-state write**, in every life of a node that never accepts a
request for a vote in term zero. -/
theorem hard_states_accepted {lives : List (Recovery × List Call)} (h : Lives lives)
    {a : Recovery} {calls later : List Call} {call : Call}
    (hmem : (a, calls ++ call :: later) ∈ lives)
    (hz : ∀ x ∈ calls ++ [call], x.input.zeroVote = false) {q : PersistRaftHardState}
    (hq : .persistRaftHardState q ∈ call.result.effects) :
    Acceptable (persistedHardState a (calls ++ [call])) q := by
  obtain ⟨c, run⟩ := h.run hmem
  obtain ⟨run, hs⟩ := run.before
  have hb := run.backed fun x hx => hz x (List.mem_append_left _ hx)
  rw [acceptable_iff, persistedHardState, List.foldl_append]
  exact (hb.step run.orderly (hz call (by simp)) hs).2 q hq

/-- A candidate that stopped right after its vote for itself was written. -/
def formerCandidate : Recovery :=
  { self := 1, peers := [2, 3], recovered := ⟨1, some 1⟩ }

theorem hard_states_accepted_restarted :
    ∃ lives a calls call q, Lives lives ∧ lives.length = 2 ∧ (a, calls ++ [call]) ∈ lives ∧
      .persistRaftHardState q ∈ call.result.effects ∧ q.state = ⟨2, some 2⟩ ∧
      Acceptable (persistedHardState a (calls ++ [call])) q := by
  obtain ⟨calls, call, run, hlast⟩ := @CoreRun.of_accepts firstNode
    [.electionDeadline 1] (.raftHardStatePersisted ⟨1, ⟨1, some 1⟩⟩)
    (fun calls call => persistedHardState firstNode (calls ++ [call]) = ⟨1, some 1⟩)
    (by decide +kernel)
  obtain ⟨calls', call', run', hvote⟩ := @CoreRun.of_accepts formerCandidate
    [.receiveRequestVote 2 ⟨2, 2, 0, 0⟩] (.raftHardStatePersisted ⟨1, ⟨2, none⟩⟩)
    (fun calls call => .persistRaftHardState ⟨2, ⟨2, some 2⟩⟩ ∈ call.result.effects ∧
      ∀ x ∈ calls ++ [call], x.input.zeroVote = false)
    (by decide +kernel)
  rw [decide_eq_true_eq] at hlast hvote
  have lives : Lives [(firstNode, calls ++ [call]), (formerCandidate, calls' ++ [call'])] :=
    @Lives.restart [] _ _ _ _ _ (.first run) hlast.symm run'
  exact ⟨_, formerCandidate, calls', call', _, lives, rfl, by simp, hvote.1, rfl,
    @hard_states_accepted _ lives _ calls' [] call' (by simp) hvote.2 _ hvote.1⟩

/-- A node that has never heard of any term grants a vote in term zero, and the store refuses
to write it. -/
theorem hard_state_refused :
    ∃ lives a calls call q, Lives lives ∧ (a, calls ++ [call]) ∈ lives ∧
      .persistRaftHardState q ∈ call.result.effects ∧
      ¬ Acceptable (persistedHardState a (calls ++ [call])) q := by
  obtain ⟨calls, call, run, hvote⟩ := @CoreRun.of_accepts firstNode
    [] (.receiveRequestVote 2 ⟨0, 2, 0, 0⟩)
    (fun calls call => .persistRaftHardState ⟨1, ⟨0, some 2⟩⟩ ∈ call.result.effects)
    (by decide +kernel)
  rw [decide_eq_true_eq] at hvote
  refine ⟨_, firstNode, calls, call, _, .first run, by simp, hvote, fun h => ?_⟩
  cases (acceptable_iff.mp h).2.zero rfl

end KuraMetadata.Election
