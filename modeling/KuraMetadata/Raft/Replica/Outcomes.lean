import KuraMetadata.Raft.Replica.Tracks

/-! # The outcomes of the specification as rules of the protocol

A handler of the specification either leaves the history alone, or it elects, appends or
declares committed. `Stage` is what holds of its result before the gates: of the state, of the
first write among its effects and of the messages behind it. -/

namespace KuraMetadata.Replica

open List
open Figure2 (base lastIndex Contiguous State LeaderState Outcome Observed Advanced Sends Builds
  WellFormed Ungated majority replicated boundedCommit appending PeerProgress withCommit withLeader
  setProgress isLogAtLeastAsUpToDate)
open Election (direct?)
open Consensus (History QuorumSystem lastTerm UpToDate)

variable {effects rest seen : List Figure2.Effect} {request : AppendEntriesRequest} {k commit : Nat}
variable {changed : Bool} {p : PeerProgress} {w : Option PersistRaftHardState}
variable {𝒬 : QuorumSystem NodeId} {F : List LogEntry} {l : LeaderState}

/-! ## Before the gates -/

/-- The first hard-state write among some effects. -/
def firstWrite (effects : List Figure2.Effect) : Option PersistRaftHardState :=
  effects.findSome? Figure2.Effect.hardStateWrite?

theorem firstWrite_of_ungated (h : Ungated effects) : firstWrite effects = none :=
  findSome?_eq_none_iff.mpr (Figure2.ungated_iff.mp h)

theorem firstWrite_cons (q : PersistRaftHardState) (effects : List Figure2.Effect) :
    firstWrite (.persistRaftHardState q :: effects) = some q := rfl

theorem firstWrite_append (h : Ungated rest) :
    firstWrite (effects ++ rest) = firstWrite effects := by
  rw [firstWrite, findSome?_append]
  have := firstWrite_of_ungated h
  rw [firstWrite] at this
  rw [this, Option.or_none]
  rfl

structure Stage (H : Hist) (𝒬 : QuorumSystem NodeId) (s : State) (F : List LogEntry)
    (effects : List Figure2.Effect) : Prop where
  sound : Sound H 𝒬 s F (firstWrite effects)
  log : LogState H s F (.persistState ∈ effects)
  backed : ∀ f ∈ effects, ∀ e, direct? f = some e → Backed H s F e

/-- The message an event delivers, with its sender. -/
def message? : Figure2.Event → Option (NodeId × Message)
  | .receiveRequestVote sender q => some (sender, .requestVote q)
  | .receiveRequestVoteResponse sender q => some (sender, .requestVoteResponse q)
  | .receiveAppendEntries sender q => some (sender, .appendEntries q)
  | .receiveAppendEntriesResponse sender q => some (sender, .appendEntriesResponse q)
  | _ => none

/-- The message an event delivers to `n` was sent. -/
def Delivered (H : Hist) (n : NodeId) (event : Figure2.Event) : Prop :=
  ∀ sender m, message? event = some (sender, m) → Sent H sender n m

/-- The majorities a node counts are quorums. -/
def Quorate (𝒬 : QuorumSystem NodeId) (s : State) : Prop :=
  ∀ Q ⊆ insert s.node s.peers.toFinset, majority s ≤ Q.card → 𝒬.IsQuorum Q

section

variable {H : Hist} {s s₁ s' : State} {T : Nat} {q : PersistRaftHardState} {E F' : List LogEntry}
variable {sender : NodeId} {peers : List NodeId}

theorem Sound.decided (h : Sound H 𝒬 s F w) (hr : s.role = .leader) :
    H.DecidedBy s.persistent.currentTerm F s.volatileState.commitIndex := by
  rcases h.commit with h | ⟨_, _, h⟩
  · exact h
  · exact absurd hr h.role

/-! ## Stepping down and following -/

/-- Commitment survives a later term, as long as the node is no candidate without a write
outstanding. -/
theorem Commit.demote (h : Commit H 𝒬 s F w) {w' : Option PersistRaftHardState}
    (hterm : s.persistent.currentTerm ≤ s'.persistent.currentTerm)
    (hvol : s'.volatileState = s.volatileState) (hl : s'.role ≠ .leader)
    (hc : s'.role = .candidate → w' ≠ none) : Commit H 𝒬 s' F w' := by
  rcases h with h | ⟨T, hle, h⟩
  · refine .inl ?_
    rw [hvol]
    exact h.of_le hterm le_rfl
  · refine .inr ⟨T, by rw [hvol]; exact hle, ?_, hl, fun hr hw => absurd hw (hc hr)⟩
    rw [hvol]
    exact h.applied

theorem Sound.observed (h : Sound H 𝒬 s F none) (ho : Observed s T s₁ seen) :
    Sound H 𝒬 s₁ F (firstWrite seen) := by
  cases ho with
  | same => exact h
  | higher hlt =>
    have hterm := (h.hard.settled rfl).1
    exact {
      full := h.full.congr rfl rfl
      __ := h
      hard :=
        { settled := fun hw => (by cases hw)
          enter := fun _ _ _ => ⟨hterm.trans_lt hlt, by simp [Figure2.stepDown]⟩
          run := fun q hq hn => by
            cases hq
            cases hn
          grant := fun q C hq hn => by
            cases hq
            cases hn
          ballot := fun C _ hC => (by cases hC) }
      role := ⟨fun hr => (by cases hr), fun hr => (by cases hr)⟩
      commit := h.commit.demote hlt.le rfl (fun hr => (by cases hr)) (fun hr => (by cases hr))
      applied_le := h.applied_le }

theorem observed_votedFor (ho : Observed s T s₁ seen)
    (hq : firstWrite seen = some q) : q.state.votedFor = none := by
  cases ho with
  | same => cases hq
  | higher => cases hq; rfl

theorem Sound.following (h : Sound H 𝒬 s F w) (sender : NodeId)
    (hw : ∀ q, w = some q → q.state.votedFor = none) :
    Sound H 𝒬 (Figure2.following s sender) F w where
  full := h.full.congr rfl rfl
  __ := h
  hard :=
    { settled := h.hard.settled
      enter := h.hard.enter
      run := fun q hq hn => by
        rw [hw q hq] at hn
        cases hn
      grant := h.hard.grant
      ballot := h.hard.ballot }
  role := ⟨fun hr => (by cases hr), fun hr => (by cases hr)⟩
  commit := h.commit.demote le_rfl rfl (fun hr => (by cases hr)) (fun hr => (by cases hr))

theorem LogState.of_clean {dirty : Prop} (hlog : F = H.log s.node) (hd : ¬ dirty) :
    LogState H s F dirty :=
  ⟨fun _ => hlog, fun h => absurd h hd⟩

theorem Stage.of_quiet (h : Sound H 𝒬 s F none) (hlog : F = H.log s.node)
    (hu : Ungated effects) (hp : .persistState ∉ effects)
    (hb : ∀ f ∈ effects, ∀ e, direct? f = some e → Backed H s F e) : Stage H 𝒬 s F effects where
  sound := by rwa [firstWrite_of_ungated hu]
  log := .of_clean hlog hp
  backed := hb

theorem backed_observed (ho : Observed s T s₁ seen) (s' : State) :
    ∀ f ∈ seen, ∀ e, direct? f = some e → Backed H s' F e := by
  cases ho with
  | same => intro f hf; cases hf
  | higher =>
    intro f hf e he
    rw [mem_singleton.mp hf] at he
    cases he
    exact trivial

/-- A step down followed by effects that write nothing. -/
theorem Stage.of_observed (ho : Observed s T s₁ seen)
    (h : Sound H 𝒬 s' F (firstWrite seen)) (hlog : F = H.log s'.node) (hu : Ungated rest)
    (hp : .persistState ∉ rest)
    (hb : ∀ f ∈ rest, ∀ e, direct? f = some e → Backed H s' F e) :
    Stage H 𝒬 s' F (seen ++ rest) where
  sound := by rwa [firstWrite_append hu]
  log := by
    refine .of_clean hlog fun hmem => ?_
    rcases mem_append.mp hmem with h | h
    · exact ho.not_persistState h
    · exact hp h
  backed f hf := by
    rcases mem_append.mp hf with hf | hf
    · exact backed_observed ho s' f hf
    · exact hb f hf

/-! ## Elections -/

theorem Sound.campaigning (h : Sound H 𝒬 s F none) (hlog : F = H.log s.node)
    (hq : q.state.votedFor = some s.node) :
    Sound H 𝒬 (Figure2.campaigning s) F (some q) where
  full := h.full.congr rfl rfl
  __ := h
  hard :=
    { settled := fun hw => (by cases hw)
      enter := fun q' hq' hn => by
        cases hq'
        rw [hq] at hn
        cases hn
      run := fun _ _ _ => ⟨(h.hard.settled rfl).1.trans_lt (Nat.lt_succ_self _), rfl⟩
      grant := fun q' C hq' hC hne => by
        cases hq'
        rw [hq] at hC
        exact absurd (Option.some.inj hC).symm hne
      ballot := fun C _ hC hne => absurd (Option.some.inj hC).symm hne }
  role := by
    refine ⟨fun hr => (by cases hr), fun _ => ⟨rfl, hlog, fun hw => (by cases hw), ?_⟩⟩
    intro v hv hne
    exact absurd (Finset.mem_singleton.mp hv) hne
  commit := h.commit.demote (Nat.le_succ _) rfl (fun hr => (by cases hr)) (fun _ => by simp)

theorem upToDate_of_vote (hfull : Full s F) (hi : Contiguous 1 F) {request : RequestVoteRequest}
    (hindex : request.lastLogIndex = E.length) (hterm : request.lastLogTerm = lastTerm E)
    (hu : isLogAtLeastAsUpToDate s request.lastLogTerm request.lastLogIndex = true) :
    UpToDate E F := by
  simp only [isLogAtLeastAsUpToDate, hfull.lastTerm, hfull.lastIndex hi, hindex, hterm,
    Bool.or_eq_true, decide_eq_true_eq, Bool.and_eq_true, beq_iff_eq] at hu
  exact hu.imp_right fun h => ⟨h.1.symm, h.2⟩

/-- Granting a vote, after the step down that may come first. -/
theorem Sound.voting (h : Sound H 𝒬 s F none) (ho : Observed s T s₁ seen)
    (hne : sender ≠ s.node) (hv : s₁.persistent.votedFor = none)
    (hE : H.campaign sender s₁.persistent.currentTerm = some E)
    (hup : UpToDate E (H.log s.node)) {id : Nat}
    (hw : w = (firstWrite seen).or (some ⟨id, ⟨s₁.persistent.currentTerm, some sender⟩⟩)) :
    Sound H 𝒬 (Figure2.voting s₁ sender) F w := by
  have hs₁ := h.observed ho
  have hnode : s₁.node = s.node := ho.frame.node
  have hsome : w ≠ none := by rw [hw]; cases firstWrite seen <;> simp
  have hballot : ∀ C, w ≠ none → (Figure2.voting s₁ sender).persistent.votedFor = some C →
      C ≠ s₁.node → ∃ E, H.campaign C s₁.persistent.currentTerm = some E ∧
        UpToDate E (H.log s₁.node) := by
    intro C _ hC _
    cases hC
    rw [hnode]
    exact ⟨E, hE, hup⟩
  -- A leader or a candidate has voted for itself in its term.
  have hrole : s₁.role ≠ .leader ∧ s₁.role ≠ .candidate := by
    refine ⟨fun hr => ?_, fun hr => ?_⟩
    · rw [((hs₁.role.leader hr).2).vote] at hv
      cases hv
    · rw [(hs₁.role.candidate hr).vote] at hv
      cases hv
  refine {
    full := hs₁.full.congr rfl rfl
    coherent := hs₁.coherent
    hard := ?_
    role := ⟨fun hr => absurd hr hrole.1, fun hr => absurd hr hrole.2⟩
    commit := hs₁.commit.demote le_rfl rfl hrole.1 (fun hr => absurd hr hrole.2)
    base_le := hs₁.base_le
    applied_le := hs₁.applied_le }
  cases hseen : firstWrite seen with
  | none =>
    rw [hseen, Option.none_or] at hw
    rw [hseen] at hs₁
    exact {
      settled := fun h => absurd h hsome
      enter := fun q hq hn => by
        rw [hw] at hq
        cases hq
        cases hn
      run := fun q hq hn => by
        rw [hw] at hq
        cases hq
        exact absurd ((Option.some.inj hn).trans hnode) hne
      grant := fun q C _ _ _ => by
        have := hs₁.hard.settled rfl
        exact ⟨this.1, this.2.trans hv⟩
      ballot := hballot }
  | some q =>
    have hqv := observed_votedFor ho hseen
    rw [hseen, Option.some_or] at hw
    have henter := hs₁.hard.enter q hseen hqv
    exact {
      settled := fun h => absurd h hsome
      enter := fun _ _ _ => ⟨henter.1, fun h => hne ((Option.some.inj h).trans hnode)⟩
      run := fun q' hq' hn => by
        rw [hw] at hq'
        cases hq'
        rw [hqv] at hn
        cases hn
      grant := fun q' C hq' hn => by
        rw [hw] at hq'
        cases hq'
        rw [hqv] at hn
        cases hn
      ballot := hballot }

/-- Winning an election is the rule `elect`. -/
theorem Sound.elected (hv : H.Valid 𝒬) (hq : Quorate 𝒬 s) (hwf : WellFormed s)
    (h : Sound H 𝒬 s F none) (hr : s.role = .candidate)
    (hp : sender ∈ s.peers) (hvote : H.vote sender s.persistent.currentTerm = some s.node)
    (hm : majority s ≤ (insert sender s.votesReceived).card) :
    H.leader s.persistent.currentTerm = none ∧ (H.elect s.node s.persistent.currentTerm F).Valid 𝒬 ∧
      Sound (H.elect s.node s.persistent.currentTerm F) 𝒬 (Figure2.leading s) F none := by
  have hc := h.role.candidate hr
  obtain ⟨hterm, hself⟩ := h.hard.settled rfl
  obtain ⟨hcampaign, hnot⟩ := hc.campaign rfl
  have hvotes : ∀ v ∈ insert sender s.votesReceived,
      H.vote v s.persistent.currentTerm = some s.node := by
    intro v hmem
    rcases Finset.mem_insert.mp hmem with rfl | hmem
    · exact hvote
    · by_cases hne : v = s.node
      · rw [hne, hself, hc.vote]
      · exact hc.votes v hmem hne
  have hQ : 𝒬.IsQuorum (insert sender s.votesReceived) := by
    refine hq _ (fun v hmem => ?_) hm
    rcases Finset.mem_insert.mp hmem with rfl | hmem
    · simp [hp]
    · simpa using hwf.votes_peers v hmem
  have hnone : H.leader s.persistent.currentTerm = none := by
    by_contra hne
    obtain ⟨L, hL⟩ := Option.ne_none_iff_exists'.mp hne
    obtain ⟨R, hR, hLvotes⟩ := hv.leader_votes _ L hL
    obtain ⟨v, hvQ, hvR⟩ := 𝒬.meet hQ hR
    have := (hvotes v hvQ).symm.trans (hLvotes v hvR)
    rw [Option.some.inj this] at hnot
    exact hnot hL
  have hval := History.elect_valid hv hnone hQ hvotes hcampaign
  have hle : H.Le (H.elect s.node s.persistent.currentTerm F) := History.elect_le hv hnone
  have hzero : H.commit s.persistent.currentTerm = 0 := by
    by_contra hne
    exact hv.leader_of_commit (Nat.pos_of_ne_zero hne) hnone
  refine ⟨hnone, hval, ?_⟩
  exact {
    full := h.full.congr rfl rfl
    coherent := h.coherent.mono hle.led
    hard := .of_settled ⟨hterm, hself⟩
    role := by
      refine ⟨fun _ => ⟨rfl, hc.vote, ?_, ?_, ?_, ?_⟩, fun hr => (by cases hr)⟩
      · simp [History.elect, Figure2.leading]
      · simp [History.elect, Figure2.leading]
      · intro l hl p hp
        cases hl
        obtain ⟨peer, _, rfl⟩ := mem_map.mp hp
        exact Nat.zero_le _
      · show H.commit s.persistent.currentTerm ≤ _
        omega
    commit := by
      refine .inl ?_
      rcases h.commit with h | ⟨T, hT, hstuck⟩
      · exact h.mono hv hle
      · rcases hstuck.campaign hr rfl with hlt | hun
        · -- The new leader starts with what the earlier leader declared committed.
          refine ⟨T, hlt.le, hT, ?_⟩
          have hstart := hval.commit_prefix_start hlt (by simp [History.elect])
          have hlast : (H.elect s.node s.persistent.currentTerm F).start
              s.persistent.currentTerm = F := by simp [History.elect]
          rw [hlast] at hstart
          exact (List.take_prefix_take_left hT).trans hstart
        · exact absurd hvotes (hun.not_elected hQ)
    base_le := h.base_le
    applied_le := h.applied_le }

/-! ## Accepting entries -/

theorem take_eq_of_getElem? {l l' : List LogEntry}
    (h : ∀ i < k, l[i]? = l'[i]?) : l.take k = l'.take k := by
  refine ext_getElem? fun i => ?_
  rw [getElem?_take, getElem?_take]
  split
  case isTrue hlt => exact h i hlt
  case isFalse => rfl

theorem boundedCommit_cases (commit : Nat) (request : AppendEntriesRequest) :
    boundedCommit commit request = commit ∨
      (boundedCommit commit request ≤ request.leaderCommit ∧
        boundedCommit commit request ≤
          request.previousLogIndex + request.entries.length) := by
  simp only [boundedCommit]
  split
  · split <;> omega
  · exact .inl rfl

/-- A commit index that moves to a decided prefix of a log that keeps the committed one. -/
theorem Commit.accepting (hv : H.Valid 𝒬) (h : Commit H 𝒬 s F w) {log : List LogEntry}
    (hkeep : ∀ i < s.volatileState.commitIndex, F'[i]? = F[i]?)
    (hcommit : commit = s.volatileState.commitIndex ∨
      H.DecidedBy s.persistent.currentTerm F' commit) :
    Commit H 𝒬 (Figure2.accepting s log commit) F' w := by
  rcases hcommit with rfl | hd
  · rcases h with h | ⟨T, hle, h⟩
    · exact .inl (h.of_take_eq hv (take_eq_of_getElem? hkeep))
    · exact .inr ⟨T, hle, h.applied, h.role, h.campaign⟩
  · exact .inl hd

theorem Sound.accepting (hv : H.Valid 𝒬) (hi : Indexed H) (h : Sound H 𝒬 s F w)
    (hr : s.role = .follower) (hc : s.volatileState.commitIndex ≤ F.length)
    {log : List LogEntry}
    (hseg : Segment (H.led s.persistent.currentTerm) request)
    (hdec : H.DecidedBy s.persistent.currentTerm (H.led s.persistent.currentTerm)
      request.leaderCommit)
    (hm : Figure2.Merges s request log changed) :
    ∃ F', Sound H 𝒬 (Figure2.accepting s log
        (boundedCommit s.volatileState.commitIndex request)) F' w ∧
      (H.led s.persistent.currentTerm).take
        (request.previousLogIndex + request.entries.length) <+: F' ∧
      (∀ i < s.volatileState.commitIndex, F'[i]? = F[i]?) ∧
      (changed = false → F' = F) ∧
      (changed = true → F' <+: H.led s.persistent.currentTerm ∧ ¬ F' <+: F) := by
  have hG := hv.coherent_led s.persistent.currentTerm
  have key : ∀ F', (∀ i < s.volatileState.commitIndex, F'[i]? = F[i]?) → H.Coherent F' →
      (H.led s.persistent.currentTerm).take
        (request.previousLogIndex + request.entries.length) <+: F' →
      Full (Figure2.accepting s log
        (boundedCommit s.volatileState.commitIndex request)) F' →
      Sound H 𝒬 (Figure2.accepting s log
        (boundedCommit s.volatileState.commitIndex request)) F' w := by
    intro F' hkeep hF' hpre hfull
    have hrole : (Figure2.accepting s log
      (boundedCommit s.volatileState.commitIndex request)).role = .follower := hr
    exact {
      full := hfull
      coherent := hF'
      hard := { h.hard with }
      role := by
        constructor <;> intro hr' <;> rw [hrole] at hr' <;> cases hr'
      commit := by
        refine h.commit.accepting hv hkeep ?_
        refine (boundedCommit_cases s.volatileState.commitIndex request).imp_right ?_
        rintro ⟨hle, hlm⟩
        obtain ⟨T₀, hT₀, hk, hp⟩ := hdec.of_le le_rfl hle
        refine ⟨T₀, hT₀, hk, ?_⟩
        have hlen := hseg.matched_le
        rw [← History.Decided.take_eq hv (History.DecidedBy.decided ⟨T₀, hT₀, hk, hp⟩) hk]
        exact (List.take_prefix_take_left hlm).trans hpre
      base_le := h.base_le
      applied_le := h.applied_le.trans (Figure2.le_boundedCommit _ _) }
  have hmerged := h.full.merged (hi.of_coherent h.coherent) h.coherent hG hseg hc hm
  generalize hk : request.previousLogIndex + request.entries.length = k at hmerged key
  cases hmerged with
  | present hpre =>
    exact ⟨F, key F (fun _ _ => rfl) h.coherent hpre (h.full.congr rfl rfl), hpre,
      fun _ _ => rfl, fun _ => rfl, fun hc => (by cases hc)⟩
  | changed hnot hfull hkeep =>
    refine ⟨_, key _ hkeep (hG.of_isPrefix (List.take_prefix _ _)) (prefix_refl _)
      (hfull _ rfl rfl), prefix_refl _, hkeep, fun hc => (by cases hc), fun _ => ?_⟩
    exact ⟨List.take_prefix _ _, hnot⟩

/-! ## Leading -/

/-- A request built from the log of a leader carries a segment of it. -/
theorem sent_of_builds (hfull : Full s F) (hr : Leads H s F)
    (hd : H.DecidedBy s.persistent.currentTerm F s.volatileState.commitIndex) {next : Nat}
    (hb : Builds s next request) (dest : NodeId) :
    Sent H s.node dest (.appendEntries request) := by
  have hprev := hb.previous
  have hbase := hb.base_lt
  refine ⟨by rw [hb.term]; exact hr.leader, ?_, ?_⟩
  · rw [hb.term, ← hr.log]
    have hterm : 0 < request.previousLogIndex →
        ∃ e, F[request.previousLogIndex - 1]? = some e ∧ e.term = request.previousLogTerm :=
      fun h0 => (hfull.termAt hb.previousTerm (by omega)).2
    refine ⟨?_, hterm, ?_⟩
    · rcases Nat.eq_zero_or_pos request.previousLogIndex with h0 | h0
      · omega
      · obtain ⟨e, he, _⟩ := hterm h0
        have := (List.getElem?_eq_some_iff.mp he).1
        omega
    · rw [hb.entries, hfull.log, drop_drop,
        show base s + (next - base s - 1) = request.previousLogIndex by omega]
  · rw [hb.term, hb.commit, ← hr.log]
    exact hd

theorem Sends.backed (hi : Contiguous 1 F) (h : Sound H 𝒬 s F w) (hr : s.role = .leader)
    (hs : Sends s peers effects)
    (hn : s'.node = s.node) :
    ∀ f ∈ effects, ∀ e, direct? f = some e → Backed H s' F' e := by
  intro f hf e he
  obtain ⟨p, _, request, hreq, rfl⟩ := hs f hf
  cases he
  obtain ⟨_, hb⟩ := Figure2.appendRequest_eq_ok (h.full.contiguous hi) hreq
  show Sent H s'.node p (.appendEntries request)
  rw [hn]
  exact sent_of_builds h.full (h.role.leader hr).2 (h.decided hr) hb p

theorem mem_of_lookup {l : List (NodeId × PeerProgress)} {n : NodeId}
    (h : l.lookup n = some p) : (n, p) ∈ l := by
  induction l with
  | nil => cases h
  | cons x l ih =>
    rw [lookup_cons] at h
    split at h
    case h_1 heq =>
      have : n = x.1 := by simpa using heq
      rw [← Option.some.inj h, this]
      exact mem_cons_self
    case h_2 => exact mem_cons_of_mem _ (ih h)

/-- The progress map of a leader has one entry for each peer. -/
theorem progress_members {last : Nat} {leader : LeaderState}
    (h : Figure2.ProgressFits peers last leader) (hn : peers.Nodup) :
    (leader.progress.map Prod.fst).Nodup ∧
      ∀ p ∈ leader.progress, p.1 ∈ peers ∧ p.2.matchIndex ≤ last := by
  have hsub : peers ⊆ leader.progress.map Prod.fst := by
    intro p hp
    obtain ⟨q, hq, _⟩ := h.peer p hp
    exact mem_map.mpr ⟨_, mem_of_lookup hq, rfl⟩
  have hperm : peers.Perm (leader.progress.map Prod.fst) :=
    (hn.subperm hsub).perm_of_length_le (by rw [length_map, h.length])
  have hkeys := hperm.nodup_iff.mp hn
  refine ⟨hkeys, fun p hp => ?_⟩
  have hmem : p.1 ∈ peers := hperm.mem_iff.mpr (mem_map_of_mem hp)
  obtain ⟨q, hq, _, _, hle, _⟩ := h.peer p.1 hmem
  have : (p.1, q) = p := inj_on_of_nodup_map hkeys (mem_of_lookup hq) hp rfl
  rw [← this]
  exact ⟨hmem, hle⟩

theorem Sound.withLeader (h : Sound H 𝒬 s F none) (hr : s.role = .leader)
    (hm : ∀ p ∈ l.progress, p.2.matchIndex ≤ H.ack p.1 s.persistent.currentTerm) :
    Sound H 𝒬 (withLeader s l) F none where
  full := h.full.congr rfl rfl
  __ := h
  hard := { h.hard with }
  role := by
    have hl := (h.role.leader hr).2
    refine ⟨fun _ => ⟨rfl, hl.vote, hl.leader, hl.log, fun l' hl' => ?_, hl.commit⟩, fun hc => ?_⟩
    · cases hl'
      exact hm
    · exact absurd (hr.symm.trans hc) (by simp)
  commit := .inl (h.decided hr)

theorem mem_setProgress {progress : List (NodeId × PeerProgress)} {peer : NodeId}
    {x : NodeId × PeerProgress}
    (h : x ∈ setProgress progress peer p) : x ∈ progress ∨ x = (peer, p) := by
  obtain ⟨q, hq, rfl⟩ := mem_map.mp h
  split
  · exact .inr rfl
  · exact .inl hq

theorem setProgress_keys (progress : List (NodeId × PeerProgress)) (peer : NodeId)
    (p : PeerProgress) :
    (setProgress progress peer p).map Prod.fst = progress.map Prod.fst := by
  rw [setProgress, map_map]
  refine map_congr_left fun q _ => ?_
  by_cases h : q.1 = peer
  · simp [h]
  · simp [h]

/-- Advancing the commit index of a leader is the rule `learn`. -/
theorem Sound.advance (hv : H.Valid 𝒬) (hq : Quorate 𝒬 s) (hnode : s.node ∉ s.peers)
    (hpeers : s.peers ≠ []) (h : Sound H 𝒬 s F none) (hr : s.role = .leader)
    (hl : s.leader = some l) (hkeys : (l.progress.map Prod.fst).Nodup)
    (hmem : ∀ p ∈ l.progress, p.1 ∈ s.peers ∧ p.2.matchIndex ≤ k)
    (hself : k ≤ H.ack s.node s.persistent.currentTerm)
    (hlt : s.volatileState.commitIndex < commit)
    (hterm : Figure2.termAt s commit = .ok s.persistent.currentTerm)
    (hmaj : majority s ≤ replicated l commit) :
    (H.learn s.persistent.currentTerm commit).Valid 𝒬 ∧
      Sound (H.learn s.persistent.currentTerm commit) 𝒬 (withCommit s commit) F none := by
  have hlead := (h.role.leader hr).2
  -- The peers that hold the entry, and the leader itself.
  have hcard : replicated l commit = (insert s.node
      ((l.progress.filter fun p => commit ≤ p.2.matchIndex).map Prod.fst).toFinset).card := by
    rw [Finset.card_insert_of_notMem, toFinset_card_of_nodup, length_map,
      Figure2.replicated, Nat.add_comm]
    · exact hkeys.sublist (filter_sublist.map _)
    · intro hmem'
      rw [mem_toFinset, mem_map] at hmem'
      obtain ⟨p, hp, heq⟩ := hmem'
      exact hnode (heq ▸ (hmem p (mem_of_mem_filter hp)).1)
  have hQ : 𝒬.IsQuorum (insert s.node
      ((l.progress.filter fun p => commit ≤ p.2.matchIndex).map Prod.fst).toFinset) := by
    refine hq _ (fun v hmem' => ?_) (hcard ▸ hmaj)
    rcases Finset.mem_insert.mp hmem' with rfl | hmem'
    · exact Finset.mem_insert_self _ _
    · rw [mem_toFinset, mem_map] at hmem'
      obtain ⟨p, hp, rfl⟩ := hmem'
      exact Finset.mem_insert_of_mem (mem_toFinset.mpr (hmem p (mem_of_mem_filter hp)).1)
  -- At least one peer is among them, so the leader has the entry on disk as well.
  have hk : commit ≤ k := by
    have hlen : 0 < s.peers.length := length_pos_iff.mpr hpeers
    have hpos : 0 < (l.progress.filter fun p => commit ≤ p.2.matchIndex).length := by
      simp only [Figure2.majority, Figure2.replicated] at hmaj
      omega
    obtain ⟨p, hp⟩ := exists_mem_of_length_pos hpos
    obtain ⟨hp, hle⟩ := mem_filter.mp hp
    exact (of_decide_eq_true hle).trans (hmem p hp).2
  have hcommitted : H.Committed 𝒬 s.persistent.currentTerm commit := by
    obtain ⟨_, e, he, ht⟩ := h.full.termAt hterm (by omega)
    refine ⟨⟨by omega, e, by rw [← hlead.log]; exact he, ht⟩, _, hQ, fun v hmem' => ?_⟩
    rcases Finset.mem_insert.mp hmem' with rfl | hmem'
    · exact hk.trans hself
    · rw [mem_toFinset, mem_map] at hmem'
      obtain ⟨p, hp, rfl⟩ := hmem'
      obtain ⟨hp, hle⟩ := mem_filter.mp hp
      exact (of_decide_eq_true hle).trans (hlead.matched l hl p hp)
  have hcommit : (H.learn s.persistent.currentTerm commit).commit s.persistent.currentTerm =
      max (H.commit s.persistent.currentTerm) commit := by simp [History.learn]
  refine ⟨History.learn_valid hv hcommitted, ?_⟩
  exact {
    full := h.full.congr rfl rfl
    __ := h
    hard := { h.hard with }
    role := by
      refine ⟨fun _ => ⟨rfl, hlead.vote, hlead.leader, hlead.log, hlead.matched, ?_⟩,
        fun hc => absurd (hr.symm.trans hc) (by simp)⟩
      have := hlead.commit
      show (H.learn s.persistent.currentTerm commit).commit s.persistent.currentTerm ≤ commit
      omega
    commit := by
      refine .inl ⟨s.persistent.currentTerm, le_rfl, ?_, ?_⟩
      · show commit ≤ (H.learn s.persistent.currentTerm commit).commit s.persistent.currentTerm
        omega
      · rw [hlead.log]
        exact take_prefix _ _
    applied_le := h.applied_le.trans hlt.le }

/-- Appending a client command is the rule `append`. -/
theorem Sound.appending (hv : H.Valid 𝒬) (h : Sound H 𝒬 s F none) (hr : s.role = .leader)
    (hl : s.leader = some l) (command : CommandEnvelope) :
    let e : LogEntry := ⟨s.persistent.currentTerm, lastIndex s + 1, command⟩
    (H.append s.persistent.currentTerm e).Valid 𝒬 ∧
      Sound (H.append s.persistent.currentTerm e) 𝒬 (appending s l command) (F ++ [e])
        none := by
  intro e
  have hlead := (h.role.leader hr).2
  have hval : (H.append s.persistent.currentTerm e).Valid 𝒬 :=
    History.append_valid hv (by rw [hlead.leader]; simp) rfl
  have hle : H.Le (H.append s.persistent.currentTerm e) := History.append_le _ _
  have hled : (H.append s.persistent.currentTerm e).led s.persistent.currentTerm = F ++ [e] := by
    simp [History.append, ← hlead.log]
  refine ⟨hval, ?_⟩
  exact {
    full := by
      refine ⟨?_, ?_, fun m hm => ?_⟩
      · have := h.full.base_le
        rw [length_append]
        exact this.trans (Nat.le_add_right _ _)
      · show s.persistent.log ++ [e] = (F ++ [e]).drop (base s)
        rw [h.full.log, drop_append_of_le_length h.full.base_le]
      · obtain ⟨h0, e', he', ht⟩ := h.full.boundary m hm
        exact ⟨h0, e', getElem?_of_isPrefix (prefix_append _ _) he', ht⟩
    coherent := by
      rw [← hled]
      exact hval.coherent_led _
    hard := .of_settled (h.hard.settled rfl)
    role := by
      refine ⟨fun _ => ⟨rfl, hlead.vote, hlead.leader, hled.symm, fun l' hl' => ?_, hlead.commit⟩,
        fun hc => absurd (hr.symm.trans hc) (by simp)⟩
      cases hl'
      exact hlead.matched l hl
    commit := .inl (((h.decided hr).mono hv hle).of_isPrefix (prefix_append _ _))
    base_le := h.base_le
    applied_le := h.applied_le }

end

/-! ## Every outcome -/

/-- `H'` comes from `H` by rules of the node `n`. -/
structure Extends (𝒬 : QuorumSystem NodeId) (n : NodeId) (H H' : Hist) : Prop where
  valid : H'.Valid 𝒬
  indexed : Indexed H'
  locally : History.Local n H H'

/-- The rules of a handler, which leave alone what is on disk. -/
structure Advances (𝒬 : QuorumSystem NodeId) (n : NodeId) (H H' : Hist) : Prop
    extends Extends 𝒬 n H H' where
  steady : History.Steady H H'

section

variable {H H' : Hist} {s s₁ : State} {n sender : NodeId} {rules : List Figure2.RuleId}
variable {l' : LeaderState}

theorem Advances.refl (hv : H.Valid 𝒬) (hi : Indexed H) : Advances 𝒬 n H H :=
  ⟨⟨hv, hi, .refl n H⟩, .refl H⟩

theorem Extends.trans {H'' : Hist} (h : Extends 𝒬 n H H') (h' : Extends 𝒬 n H' H'') :
    Extends 𝒬 n H H'' :=
  ⟨h'.valid, h'.indexed, h.locally.trans h'.locally⟩

theorem Advances.trans {H'' : Hist} (h : Advances 𝒬 n H H') (h' : Advances 𝒬 n H' H'') :
    Advances 𝒬 n H H'' :=
  ⟨h.toExtends.trans h'.toExtends, h.steady.trans h'.steady⟩

theorem Advances.log (h : Advances 𝒬 n H H') (hlog : F = H.log n) : F = H'.log n := by
  rw [h.steady.log]
  exact hlog

/-- `advance_leader_commit` as a whole. -/
theorem Sound.advanced (hv : H.Valid 𝒬) (hi : Indexed H) (hq : Quorate 𝒬 s)
    (hnode : s.node ∉ s.peers) (hpeers : s.peers ≠ []) (h : Sound H 𝒬 s F none)
    (hr : s.role = .leader) (hl : s.leader = some l) (hkeys : (l.progress.map Prod.fst).Nodup)
    (hmem : ∀ p ∈ l.progress, p.1 ∈ s.peers ∧ p.2.matchIndex ≤ k)
    (hself : k ≤ H.ack s.node s.persistent.currentTerm) (ha : Advanced s l commit rules) :
    ∃ H', Advances 𝒬 s.node H H' ∧ H'.led = H.led ∧
      Sound H' 𝒬 (withCommit s commit) F none := by
  cases ha with
  | same => exact ⟨H, .refl hv hi, rfl, h⟩
  | advance hlt _ hterm hmaj =>
    obtain ⟨hval, hsound⟩ := h.advance hv hq hnode hpeers hr hl hkeys hmem hself hlt hterm hmaj
    exact ⟨_, ⟨⟨hval, hi, History.learn_local _ (h.role.leader hr).2.leader⟩,
      ⟨rfl, rfl, rfl, rfl⟩⟩, rfl, hsound⟩

/-- A candidate counts a vote. -/
theorem Sound.voteRecorded (h : Sound H 𝒬 s F none) (hr : s.role = .candidate)
    (hvote : H.vote sender s.persistent.currentTerm = some s.node) :
    Sound H 𝒬 { s with votesReceived := insert sender s.votesReceived } F none where
  full := h.full.congr rfl rfl
  __ := h
  hard := { h.hard with }
  role := by
    have hc := h.role.candidate hr
    refine ⟨fun hl => absurd (hr.symm.trans hl) (by simp),
      fun _ => ⟨hc.vote, hc.log, hc.campaign, fun v hmem hne => ?_⟩⟩
    rcases Finset.mem_insert.mp hmem with rfl | hmem
    · exact hvote
    · exact hc.votes v hmem hne
  commit := h.commit.imp_right fun ⟨T, hle, hs⟩ => ⟨T, hle, hs.applied, hs.role, hs.campaign⟩

theorem Stage.campaign (hi : Contiguous 1 F) (h : Sound H 𝒬 s F none) (hlog : F = H.log s.node) :
    Stage H 𝒬 (Figure2.campaigning s) F (.persistRaftHardState
          ⟨s.nextHardStateRequestId, ⟨s.persistent.currentTerm + 1, some s.node⟩⟩ ::
        .resetElectionTimer ::
        s.peers.map fun peer => .sendRequestVote peer
          ⟨s.persistent.currentTerm + 1, s.node, lastIndex s, Figure2.lastTerm s⟩) where
  sound := by
    rw [firstWrite_cons]
    exact h.campaigning hlog rfl
  log := .of_clean hlog (by simp)
  backed f hf e he := by
    rcases mem_cons.mp hf with rfl | hf
    · cases he
      exact trivial
    rcases mem_cons.mp hf with rfl | hf
    · cases he
    obtain ⟨peer, _, rfl⟩ := mem_map.mp hf
    cases he
    refine ⟨rfl, ?_⟩
    rw [h.full.lastIndex hi, h.full.lastTerm]
    rfl

theorem backed_answer (s : State) {f : Figure2.Effect} {dest : NodeId}
    (hf : f = .sendRequestVoteResponse dest ⟨s.persistent.currentTerm, false⟩ ∨
      ∃ context, f = .sendAppendEntriesResponse dest ⟨s.persistent.currentTerm, false, 0, context⟩)
    (e : Election.Effect) (he : direct? f = some e) : Backed H s F e := by
  rcases hf with rfl | ⟨context, rfl⟩ <;> cases he
  · exact ⟨rfl, fun h => (by cases h)⟩
  · exact ⟨rfl, fun h => (by cases h)⟩

theorem Stage.accept (hv : H.Valid 𝒬) (hi : Indexed H) (hwf : WellFormed s) (h : Sound H 𝒬 s F none)
    (hlog : F = H.log s.node)
    {log : List LogEntry}
    (ho : Observed s request.term s₁ seen) (ht : request.term = s₁.persistent.currentTerm)
    (hm : Figure2.Merges (Figure2.following s₁ sender) request log changed)
    (hd : Sent H sender s.node (.appendEntries request)) :
    ∃ F', Stage H 𝒬 (Figure2.accepting (Figure2.following s₁ sender) log
        (boundedCommit s₁.volatileState.commitIndex request)) F'
        (seen ++ .resetElectionTimer :: ((if changed then [.persistState] else []) ++
          [.sendAppendEntriesResponse sender ⟨s₁.persistent.currentTerm, true,
              request.previousLogIndex + request.entries.length, request.readContext⟩])) ∧
      ∀ i < s.volatileState.commitIndex, F'[i]? = F[i]? := by
  obtain ⟨_, hseg, hdec⟩ := hd
  rw [ht] at hseg hdec
  have hnode : s₁.node = s.node := ho.frame.node
  have hvol : s₁.volatileState = s.volatileState := ho.commit
  have hsound := (h.observed ho).following sender fun q hq => observed_votedFor ho hq
  have hc : s₁.volatileState.commitIndex ≤ F.length := by
    rw [hvol, ← h.full.lastIndex (hi.of_coherent h.coherent)]
    exact hwf.commit_le_last
  obtain ⟨F', hF', hpre, hkeep, hsame, hnew⟩ := hsound.accepting hv hi rfl hc hseg hdec hm
  refine ⟨F', ⟨?_, ?_, ?_⟩, by rw [← hvol]; exact hkeep⟩
  · rw [firstWrite_append]
    · exact hF'
    · intro q hq
      cases changed <;> simp at hq
  · cases changed with
    | false =>
      refine .of_clean ?_ ?_
      · rw [hsame rfl]
        show F = H.log s₁.node
        rw [hnode]
        exact hlog
      · simpa using ho.not_persistState
    | true =>
      refine ⟨fun hn => absurd (by simp) hn, fun _ => ⟨(hnew rfl).1, ?_⟩⟩
      show ¬ F' <+: H.log s₁.node
      rw [hnode, ← hlog]
      exact (hnew rfl).2
  · intro f hf e he
    rcases mem_append.mp hf with hf | hf
    · exact backed_observed ho _ f hf e he
    rcases mem_cons.mp hf with rfl | hf
    · cases he
    rcases mem_append.mp hf with hf | hf
    · cases changed with
      | false => cases hf
      | true =>
        rw [mem_singleton.mp hf] at he
        cases he
    rw [mem_singleton.mp hf] at he
    cases he
    exact ⟨rfl, fun _ => ⟨hseg.matched_le, hpre⟩⟩

theorem Stage.grant (hi : Contiguous 1 F) (hnode : s.node ∉ s.peers) (h : Sound H 𝒬 s F none)
    (hlog : F = H.log s.node) {request : RequestVoteRequest}
    (ho : Observed s request.term s₁ seen) (hp : sender ∈ s.peers)
    (ht : request.term = s₁.persistent.currentTerm) (hv : s₁.persistent.votedFor = none)
    (hu : isLogAtLeastAsUpToDate s₁ request.lastLogTerm request.lastLogIndex = true)
    (hd : Sent H sender s.node (.requestVote request)) :
    Stage H 𝒬 (Figure2.voting s₁ sender) F (seen ++ [.persistRaftHardState
        ⟨s₁.nextHardStateRequestId, ⟨s₁.persistent.currentTerm, some sender⟩⟩,
        .resetElectionTimer,
        .sendRequestVoteResponse sender ⟨s₁.persistent.currentTerm, true⟩]) := by
  obtain ⟨_, E, hE, hindex, hterm⟩ := hd
  rw [ht] at hE
  have hup := upToDate_of_vote (h.observed ho).full hi hindex hterm hu
  have hne : sender ≠ s.node := fun heq => hnode (heq ▸ hp)
  refine ⟨?_, ?_, ?_⟩
  · have hwrite : firstWrite (seen ++ [.persistRaftHardState
          ⟨s₁.nextHardStateRequestId, ⟨s₁.persistent.currentTerm, some sender⟩⟩,
          .resetElectionTimer,
          .sendRequestVoteResponse sender ⟨s₁.persistent.currentTerm, true⟩]) =
        (firstWrite seen).or
          (some ⟨s₁.nextHardStateRequestId, ⟨s₁.persistent.currentTerm, some sender⟩⟩) :=
      findSome?_append
    exact h.voting ho hne hv hE (hlog ▸ hup) hwrite
  · refine .of_clean ?_ (by simpa using ho.not_persistState)
    show F = H.log s₁.node
    rw [ho.frame.node]
    exact hlog
  · intro f hf e he
    rcases mem_append.mp hf with hf | hf
    · exact backed_observed ho _ f hf e he
    simp only [mem_cons, not_mem_nil, or_false] at hf
    rcases hf with rfl | rfl | rfl <;> cases he
    · exact trivial
    · exact ⟨rfl, fun _ => rfl⟩

variable (hv : H.Valid 𝒬) (hi : Indexed H) (hq : Quorate 𝒬 s) (hwf : WellFormed s)
variable (hpeers : s.peers ≠ []) (h : Sound H 𝒬 s F none) (hlog : F = H.log s.node)
include hv hi hq hwf hpeers h hlog

theorem Stage.replicate (hr : s.role = .leader)
    (hself : F.length ≤ H.ack s.node s.persistent.currentTerm) {response : AppendEntriesResponse}
    (ht : response.term = s.persistent.currentTerm) (hsucc : response.succeeded = true)
    (hl : s.leader = some l) (hp : l.progress.lookup sender = some p)
    (hm : response.matchedIndex ≤ lastIndex s) (hl' : l' = { l with
      progress := setProgress l.progress sender
        ⟨max p.matchIndex response.matchedIndex + 1, max p.matchIndex response.matchedIndex⟩ })
    (ha : Advanced (withLeader s l') l' commit rules)
    (hd : Sent H sender s.node (.appendEntriesResponse response)) :
    ∃ H', Advances 𝒬 s.node H H' ∧
      Stage H' 𝒬 (withCommit (withLeader s l') commit) F [] := by
  have hlead := (h.role.leader hr).2
  have hlast := h.full.lastIndex (hi.of_coherent h.coherent)
  obtain ⟨hkeys, hmem⟩ := progress_members (hwf.progress l hl) hwf.peers_nodup
  have hsender := mem_of_lookup hp
  have hack := hd hsucc
  rw [ht] at hack
  have hmatched : ∀ x ∈ l'.progress, x.2.matchIndex ≤ H.ack x.1 s.persistent.currentTerm := by
    rw [hl']
    intro x hx
    rcases mem_setProgress hx with hx | rfl
    · exact hlead.matched l hl x hx
    · exact max_le (hlead.matched l hl _ hsender) hack
  have hmem' : ∀ x ∈ l'.progress, x.1 ∈ s.peers ∧ x.2.matchIndex ≤ F.length := by
    rw [hl', ← hlast]
    intro x hx
    rcases mem_setProgress hx with hx | rfl
    · exact hmem x hx
    · exact ⟨(hmem _ hsender).1, max_le (hmem _ hsender).2 hm⟩
  have hkeys' : (l'.progress.map Prod.fst).Nodup := by
    rw [hl', setProgress_keys]
    exact hkeys
  obtain ⟨H', hadv, _, hsound⟩ := Sound.advanced (s := withLeader s l') hv hi hq
    hwf.node_not_mem hpeers (h.withLeader hr hmatched) hr rfl hkeys' hmem' hself ha
  exact ⟨H', hadv, .of_quiet hsound (hadv.log hlog) (by simp [Ungated]) (by simp) (by simp)⟩

/-- A client command, its replication and the commitment it may lead to. -/
theorem Stage.append (hr : s.role = .leader)
    (hself : F.length ≤ H.ack s.node s.persistent.currentTerm) {command : CommandEnvelope}
    (hl : s.leader = some l) (hl' : (appending s l command).leader = some l')
    (hs : Sends (appending s l command) s.peers effects)
    (ha : Advanced (appending s l command) l' commit rules) :
    ∃ H' F', Advances 𝒬 s.node H H' ∧
      Stage H' 𝒬 (withCommit (appending s l command) commit) F'
        (.persistState :: effects) ∧ F <+: F' := by
  have hlead := (h.role.leader hr).2
  have hiF := hi.of_coherent h.coherent
  have hlast := h.full.lastIndex hiF
  obtain ⟨hkeys, hmem⟩ := progress_members (hwf.progress l hl) hwf.peers_nodup
  obtain ⟨hval, hsound⟩ := h.appending hv hr hl command
  generalize he : (⟨s.persistent.currentTerm, lastIndex s + 1, command⟩ : LogEntry) = e
    at hval hsound
  have hindex : e.index = F.length + 1 := by rw [← he, ← hlast]
  have hcontig : Contiguous 1 (F ++ [e]) := by
    refine hiF.append fun i e' he' => ?_
    cases i with
    | zero =>
      rw [getElem?_cons_zero, Option.some.injEq] at he'
      rw [← he', hindex]
      omega
    | succ i => simp at he'
  have hindexed : Indexed (H.append s.persistent.currentTerm e) := by
    intro T
    by_cases hT : T = s.persistent.currentTerm
    · subst hT
      simp only [History.append, Function.update_self, ← hlead.log]
      exact hcontig
    · simp only [History.append, Function.update_of_ne hT]
      exact hi T
  have hadv : Advances 𝒬 s.node H (H.append s.persistent.currentTerm e) :=
    ⟨⟨hval, hindexed, History.append_local e hlead.leader⟩, ⟨rfl, rfl, rfl, rfl⟩⟩
  cases hl'
  obtain ⟨H', hadv', hled, hsound'⟩ := Sound.advanced (s := appending s l command) hval
    hindexed hq hwf.node_not_mem hpeers hsound hr rfl hkeys (by rw [← hlast]; exact hmem) hself ha
  have hlong : ¬ F ++ [e] <+: F := by
    intro hp
    have := hp.length_le
    rw [length_append, length_singleton] at this
    omega
  refine ⟨H', F ++ [e], hadv.trans hadv', ⟨?_, ?_, ?_⟩, prefix_append _ _⟩
  · rw [firstWrite_of_ungated]
    · exact hsound'
    · intro q hq
      rcases mem_cons.mp hq with hq | hq
      · cases hq
      · exact hs.ungated q hq
  · refine ⟨fun hn => absurd mem_cons_self hn, fun _ => ⟨?_, ?_⟩⟩
    · rw [hled]
      have := ((hsound.role.leader hr).2).log
      exact this ▸ prefix_refl _
    · show ¬ F ++ [e] <+: H'.log s.node
      rw [← (hadv.trans hadv').log hlog]
      exact hlong
  · intro f hf e' he'
    rcases mem_cons.mp hf with rfl | hf
    · cases he'
    · have hb : Backed (H.append s.persistent.currentTerm e)
          (withCommit (appending s l command) commit) (F ++ [e]) e' :=
        Sends.backed hcontig hsound hr hs rfl f hf e' he'
      exact hb.mono hval hadv'.locally.toLe

/-- **Every outcome of a handler is a stage**, after the rules it stands for; the committed
entries stay. -/
theorem outcome_stage (hself : s.role = .leader → F.length ≤ H.ack s.node s.persistent.currentTerm)
    {event : Figure2.Event} {r : Figure2.StepResult} (hd : Delivered H s.node event)
    (he : event.isCompletion = false) (ho : Outcome s event r) :
    ∃ H' F', Advances 𝒬 s.node H H' ∧ Stage H' 𝒬 r.state F' r.effects ∧
      ∀ i < s.volatileState.commitIndex, F'[i]? = F[i]? := by
  have hiF := hi.of_coherent h.coherent
  have hstay : ∀ {s' : State} {effects : List Figure2.Effect}, Stage H 𝒬 s' F effects →
      ∃ H' F', Advances 𝒬 s.node H H' ∧ Stage H' 𝒬 s' F' effects ∧
        ∀ i < s.volatileState.commitIndex, F'[i]? = F[i]? :=
    fun hstage => ⟨H, F, .refl hv hi, hstage, fun _ _ => rfl⟩
  cases ho with
  | idle => exact hstay (.of_quiet h hlog (by simp [Ungated]) (by simp) (by simp))
  | heartbeat hr _ hs =>
    exact hstay (.of_quiet h hlog hs.ungated hs.not_persistState (Sends.backed hiF h hr hs rfl))
  | campaign => exact hstay (.campaign hiF h hlog)
  | observe _ _ hT =>
    have ho := Observed.higher hT
    exact hstay ⟨h.observed ho, .of_clean hlog (by simp), backed_observed ho _⟩
  | voteStale =>
    refine hstay (.of_quiet h hlog (by simp [Ungated]) (by simp) fun f hf => ?_)
    exact backed_answer s (.inl (mem_singleton.mp hf))
  | @voteDeny _ _ _ s₁ _ _ ho =>
    refine hstay (.of_observed ho (h.observed ho) ?_ (by simp [Ungated]) (by simp) fun f hf => ?_)
    · rw [ho.frame.node]
      exact hlog
    · exact backed_answer s₁ (.inl (mem_singleton.mp hf))
  | voteAgain _ _ _ hvote =>
    refine hstay (.of_quiet h hlog (by simp [Ungated]) (by simp) fun f hf e he => ?_)
    simp only [mem_cons, not_mem_nil, or_false] at hf
    rcases hf with rfl | rfl <;> cases he
    exact ⟨rfl, fun _ => hvote⟩
  | voteGrant _ ho hp _ ht hvote hu =>
    exact hstay (.grant hiF hwf.node_not_mem h hlog ho hp ht hvote hu (hd _ _ rfl))
  | voteRecorded _ _ hr ht hg =>
    have hvote := hd _ _ rfl hg
    rw [ht] at hvote
    exact hstay (.of_quiet (h.voteRecorded hr hvote) hlog (by simp [Ungated]) (by simp) (by simp))
  | elected _ hp hr ht hg hm hs =>
    have hvote := hd _ _ rfl hg
    rw [ht] at hvote
    -- the only outcome that gives a term its leader
    obtain ⟨hnone, hval, hsound⟩ := h.elected hv hq hwf hr hp hvote hm
    refine ⟨_, F, ⟨⟨hval, ?_, History.elect_local hv hnone⟩, ⟨rfl, rfl, rfl, rfl⟩⟩,
      .of_quiet hsound hlog hs.ungated hs.not_persistState
        (Sends.backed hiF hsound rfl hs rfl), fun _ _ => rfl⟩
    intro T
    by_cases hT : T = s.persistent.currentTerm
    · subst hT
      simpa [History.elect] using hiF
    · simpa [History.elect, hT] using hi T
  | appendStale =>
    refine hstay (.of_quiet h hlog (by simp [Ungated]) (by simp) fun f hf => ?_)
    exact backed_answer s (.inr ⟨_, mem_singleton.mp hf⟩)
  | @appendReject sender _ _ s₁ _ _ ho =>
    refine hstay (.of_observed ho
      ((h.observed ho).following sender fun q hq => observed_votedFor ho hq) ?_
      (by simp [Ungated]) (by simp) fun f hf => ?_)
    · show F = H.log s₁.node
      rw [ho.frame.node]
      exact hlog
    · simp only [mem_cons, not_mem_nil, or_false] at hf
      rcases hf with rfl | rfl
      · exact fun e he => (by cases he)
      · exact backed_answer (Figure2.following s₁ sender) (.inr ⟨_, rfl⟩)
  | appendAccept _ ho _ _ ht hm =>
    obtain ⟨F', hstage, hkeep⟩ := Stage.accept hv hi hwf h hlog ho ht hm (hd _ _ rfl)
    exact ⟨H, F', .refl hv hi, hstage, hkeep⟩
  | replicated hr ht hsucc hl hp hm hl' ha =>
    obtain ⟨H', hadv, hstage⟩ := Stage.replicate hv hi hq hwf hpeers h hlog hr (hself hr) ht
      hsucc hl hp hm hl' ha (hd _ _ rfl)
    exact ⟨H', F, hadv, hstage, fun _ _ => rfl⟩
  | @retried sender _ _ l l' p request _ hr _ _ hl hp hl' hs hq' =>
    have hmatched : ∀ x ∈ l'.progress, x.2.matchIndex ≤ H.ack x.1 s.persistent.currentTerm := by
      rw [hl']
      intro x hx
      rcases mem_setProgress hx with hx | rfl
      · exact (h.role.leader hr).2.matched l hl x hx
      · have := (h.role.leader hr).2.matched l hl _ (mem_of_lookup hp)
        exact this
    have hsound := h.withLeader hr hmatched
    refine hstay (.of_quiet hsound hlog (by simp [Ungated]) (by simp) fun f hf e he => ?_)
    rw [mem_singleton.mp hf] at he
    cases he
    obtain ⟨_, hb⟩ := Figure2.appendRequest_eq_ok (hsound.full.contiguous hiF) hq'
    exact sent_of_builds hsound.full (hsound.role.leader hr).2 (hsound.decided hr) hb sender
  | appended hr hl hl' hs ha =>
    obtain ⟨H', F', hadv, hstage, hpre⟩ := Stage.append hv hi hq hwf hpeers h hlog hr
      (hself hr) hl hl' hs ha
    refine ⟨H', F', hadv, hstage, fun i hlt => ?_⟩
    have hlen : s.volatileState.commitIndex ≤ F.length := by
      rw [← h.full.lastIndex hiF]
      exact hwf.commit_le_last
    obtain ⟨t, rfl⟩ := hpre
    exact getElem?_append_left (by omega)
  | released => cases he

end

end KuraMetadata.Replica
