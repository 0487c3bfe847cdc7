import KuraMetadata.Library.Consensus.Agreement
import KuraMetadata.Raft.Core.Durability
import KuraMetadata.Raft.SimulationNode

/-! # The log behind the snapshot

A node keeps the log from its snapshot on. `Full s F` says that `F` is the whole log: the kept
entries are its suffix, and the snapshot's boundary is the entry before them. In terms of `F`
an index is a position, whatever has been compacted. -/

namespace KuraMetadata.Replica

open List
open Figure2 (base lastIndex termAt entryAt Contiguous Merges State Dirty)
open Consensus (History lastTerm QuorumSystem UpToDate)
open Election (Core Effect Recovered PendingSnapshotPersistence PendingSnapshotRestore direct?
  OwnSnapshot)

variable {i : Nat} {request : AppendEntriesRequest} {s : State} {H' : Hist} {disk : Recovered}
variable {F : List LogEntry} {𝒬 : QuorumSystem NodeId}

instance : Consensus.Termed LogEntry := ⟨LogEntry.term⟩

theorem termOf_eq (e : LogEntry) : Consensus.termOf e = e.term := rfl

theorem getElem?_of_isPrefix {α : Type} {l l' : List α} (h : l <+: l') {a : α}
    (ha : l[i]? = some a) : l'[i]? = some a := by
  obtain ⟨t, rfl⟩ := h
  rw [getElem?_append_left (List.getElem?_eq_some_iff.mp ha).1, ha]

structure Full (s : State) (F : List LogEntry) : Prop where
  base_le : base s ≤ F.length
  log : s.persistent.log = F.drop (base s)
  boundary : ∀ m, s.persistent.snapshot = some m → 0 < m.lastIncludedIndex ∧
    ∃ e, F[m.lastIncludedIndex - 1]? = some e ∧ e.term = m.lastIncludedTerm

section

variable {F G : List LogEntry} {e : LogEntry}

section

variable (h : Full s F)
include h

theorem Full.congr {s' : State} (hl : s'.persistent.log = s.persistent.log)
    (hs : s'.persistent.snapshot = s.persistent.snapshot) : Full s' F where
  base_le := by rw [Figure2.base_congr hs]; exact h.base_le
  log := by rw [Figure2.base_congr hs, hl]; exact h.log
  boundary := by rw [hs]; exact h.boundary

theorem Full.contiguous (hi : Contiguous 1 F) :
    Contiguous (base s + 1) s.persistent.log := by
  rw [h.log, Nat.add_comm]
  exact hi.drop _

theorem Full.lastIndex (hi : Contiguous 1 F) : lastIndex s = F.length := by
  rw [Figure2.lastIndex_eq (h.contiguous hi), h.log, length_drop]
  have := h.base_le
  omega

theorem Full.getLast? (hlt : base s < F.length) :
    s.persistent.log.getLast? = F.getLast? := by
  rw [h.log, getLast?_drop, if_neg (by omega)]

theorem Full.lastTerm : Figure2.lastTerm s = lastTerm F := by
  rcases Nat.lt_or_ge (base s) F.length with hlt | hge
  · rw [Figure2.lastTerm, Consensus.lastTerm, h.getLast? hlt]
    cases he : F.getLast? with
    | none => simp [getLast?_eq_none_iff] at he; simp [he] at hlt
    | some e => rfl
  · -- The log is empty, and the boundary is the last entry.
    have hnil : s.persistent.log = [] := by rw [h.log, drop_eq_nil_of_le hge]
    have hlen : base s = F.length := le_antisymm h.base_le hge
    cases hm : s.persistent.snapshot with
    | none =>
      simp only [base, hm] at hlen
      simp [Figure2.lastTerm, hnil, hm, Consensus.lastTerm, length_eq_zero_iff.mp hlen.symm]
    | some m =>
      obtain ⟨_, e, he, ht⟩ := h.boundary m hm
      simp only [base, hm] at hlen
      rw [hlen] at he
      rw [History.lastTerm_eq_of_getElem? he, termOf_eq, ht]
      simp [Figure2.lastTerm, hnil, hm]

theorem Full.entryAt : entryAt s i = .ok e ↔ base s < i ∧ F[i - 1]? = some e := by
  rw [Figure2.entryAt_eq_ok, h.log, getElem?_drop]
  refine and_congr_right fun hlt => ?_
  rw [show base s + (i - base s - 1) = i - 1 by omega]

/-- The term at an index is that of the entry at its position. -/
theorem Full.termAt {t : Nat} (ht : termAt s i = .ok t) (h0 : i ≠ 0) :
    base s ≤ i ∧ ∃ e, F[i - 1]? = some e ∧ e.term = t := by
  have key : (Figure2.entryAt s i).map LogEntry.term = .ok t →
      base s ≤ i ∧ ∃ e, F[i - 1]? = some e ∧ e.term = t := by
    intro ht
    obtain ⟨e, he, ht⟩ := Except.map_eq_ok.mp ht
    obtain ⟨hlt, he⟩ := h.entryAt.mp he
    exact ⟨hlt.le, e, he, ht⟩
  simp only [Figure2.termAt, if_neg h0] at ht
  split at ht
  case h_1 m hm =>
    split at ht
    case isTrue hi =>
      obtain ⟨_, e, he, hte⟩ := h.boundary m hm
      rw [← hi] at he
      exact ⟨by simp [base, hm, hi], e, he, hte.trans (Except.ok.inj ht)⟩
    case isFalse =>
      rw [Except.ite_error_eq_ok] at ht
      exact key ht.2
  case h_2 => exact key ht

end

/-! ## Segments of another log -/

/-- The request carries a segment of the log `G`, and the term before it. -/
structure Segment (G : List LogEntry) (request : AppendEntriesRequest) : Prop where
  previous_le : request.previousLogIndex ≤ G.length
  previous : 0 < request.previousLogIndex →
    ∃ e, G[request.previousLogIndex - 1]? = some e ∧ e.term = request.previousLogTerm
  entries : request.entries <+: G.drop request.previousLogIndex

theorem Segment.mono {G' : List LogEntry}
    (h : Segment G request) (hp : G <+: G') : Segment G' request where
  previous_le := h.previous_le.trans hp.length_le
  previous h0 := by
    obtain ⟨e, he, ht⟩ := h.previous h0
    exact ⟨e, getElem?_of_isPrefix hp he, ht⟩
  entries := by
    obtain ⟨t, rfl⟩ := hp
    rw [drop_append_of_le_length h.previous_le]
    exact h.entries.trans (prefix_append _ _)

variable {before after : List LogEntry}

theorem Segment.getElem? (h : Segment G request) {j : Nat}
    (he : request.entries[j]? = some e) : G[request.previousLogIndex + j]? = some e := by
  have := getElem?_of_isPrefix h.entries he
  rwa [getElem?_drop] at this

theorem Segment.matched_le (h : Segment G request) :
    request.previousLogIndex + request.entries.length ≤ G.length := by
  have := h.entries.length_le
  rw [length_drop] at this
  have := h.previous_le
  omega

theorem Segment.take_eq (h : Segment G request) (he : request.entries = before ++ after) :
    G.take (request.previousLogIndex + request.entries.length) =
      G.take (request.previousLogIndex + before.length) ++ after := by
  rw [take_add, take_add, append_assoc]
  congr 1
  have htake : (G.drop request.previousLogIndex).take request.entries.length =
      request.entries := (prefix_iff_eq_take.mp h.entries).symm
  have hbefore : (G.drop request.previousLogIndex).take before.length = before := by
    rw [show before.length = min before.length request.entries.length by simp [he],
      ← take_take, htake, he, take_left]
  rw [htake, hbefore, he]

/-! ## Merging a segment -/

variable {H : History NodeId LogEntry} {log : List LogEntry} {changed : Bool}

/-- The entries before the first new one are common to both logs. -/
theorem Full.take_eq_of_present (h : Full s F) (hi : Contiguous 1 F) (hF : H.Coherent F)
    (hG : H.Coherent G) (hseg : Segment G request) (hm : Merges s request log changed)
    (he : request.entries = before ++ after)
    (hall : ∀ e ∈ before, e.index ≤ Figure2.lastIndex s ∧ Figure2.termAt s e.index = .ok e.term) :
    F.take (request.previousLogIndex + before.length) =
        G.take (request.previousLogIndex + before.length) ∧
      request.previousLogIndex + before.length ≤ F.length := by
  obtain ⟨_, hle, hterm⟩ := hm.previous
  rw [h.lastIndex hi] at hle
  cases hl : before.getLast? with
  | none =>
    rw [getLast?_eq_none_iff] at hl
    subst hl
    rw [length_nil, Nat.add_zero]
    refine ⟨?_, hle⟩
    rcases Nat.eq_zero_or_pos request.previousLogIndex with h0 | hpos
    · simp [h0]
    · obtain ⟨_, e, hFe, ht⟩ := h.termAt hterm (by omega)
      obtain ⟨e', hGe, ht'⟩ := hseg.previous hpos
      have := hF.take_eq hG hFe hGe (ht.trans ht'.symm)
      rwa [Nat.sub_add_cancel hpos] at this
  | some e =>
    have hmem := mem_of_getLast? hl
    rw [getLast?_eq_getElem?] at hl
    have hlt := (List.getElem?_eq_some_iff.mp hl).1
    have hent : request.entries[before.length - 1]? = some e := by
      rw [he, getElem?_append_left hlt, hl]
    have hindex := hm.entries _ e hent
    have hidx : e.index = request.previousLogIndex + before.length := by omega
    obtain ⟨hlast, ht⟩ := hall e hmem
    rw [h.lastIndex hi, hidx] at hlast
    refine ⟨?_, hlast⟩
    obtain ⟨_, e', hFe, ht'⟩ := h.termAt ht (by omega)
    have hGe := hseg.getElem? hent
    rw [hidx, show request.previousLogIndex + before.length - 1 =
      request.previousLogIndex + (before.length - 1) by omega] at hFe
    have := hF.take_eq hG hFe hGe ht'
    rwa [show request.previousLogIndex + (before.length - 1) + 1 =
      request.previousLogIndex + before.length by omega] at this

/-- Merging a segment of `G`: the log already had it, or it becomes the prefix of `G` that
ends with the segment, and what was committed stays. -/
inductive MergedWith (s : State) (F G : List LogEntry) (m : Nat) : List LogEntry → Bool → Prop
  | present (h : G.take m <+: F) : MergedWith s F G m s.persistent.log false
  | changed (h : ¬ G.take m <+: F) (hfull : ∀ s' : State,
      s'.persistent.log = (G.take m).drop (base s) →
      s'.persistent.snapshot = s.persistent.snapshot → Full s' (G.take m))
      (hkeep : ∀ i < s.volatileState.commitIndex, (G.take m)[i]? = F[i]?) :
      MergedWith s F G m ((G.take m).drop (base s)) true

theorem Full.merged (h : Full s F) (hi : Contiguous 1 F) (hF : H.Coherent F)
    (hG : H.Coherent G) (hseg : Segment G request) (hc : s.volatileState.commitIndex ≤ F.length)
    (hm : Merges s request log changed) :
    MergedWith s F G (request.previousLogIndex + request.entries.length) log changed := by
  obtain ⟨hbase, hprev, _⟩ := hm.previous
  -- A log that ends with new entries after a common prefix `G.take k`.
  have new : ∀ {before after : List LogEntry} (k : Nat), request.entries = before ++ after →
      k = request.previousLogIndex + before.length → base s ≤ k → k ≤ F.length →
      F.take k = G.take k → s.volatileState.commitIndex ≤ k →
      ¬ G.take (request.previousLogIndex + request.entries.length) <+: F →
      log = (F.take k).drop (base s) ++ after → changed = true →
      MergedWith s F G (request.previousLogIndex + request.entries.length) log changed := by
    intro before after k he hk hbk hkF htake hck hnot hlog hch
    have hsplit := hseg.take_eq he
    rw [← hk, ← htake] at hsplit
    have hkeep : ∀ i, i < k →
        (G.take (request.previousLogIndex + request.entries.length))[i]? = F[i]? := by
      intro i hik
      rw [hsplit, getElem?_append_left (by rw [length_take]; omega),
        getElem?_take_of_lt hik]
    have hlog' : log =
        (G.take (request.previousLogIndex + request.entries.length)).drop (base s) := by
      rw [hlog, hsplit, drop_append_of_le_length (by rw [length_take]; omega)]
    subst hch
    rw [hlog']
    refine .changed hnot (fun s' hl hs => ?_) (fun i hic => hkeep i (by omega))
    have hb := Figure2.base_congr hs
    refine ⟨?_, by rw [hl, hb], fun m hm => ?_⟩
    · rw [hb, hsplit, length_append, length_take]
      omega
    · rw [hs] at hm
      obtain ⟨h0, e, he, ht⟩ := h.boundary m hm
      refine ⟨h0, e, ?_, ht⟩
      rw [hkeep _ (by simp only [base, hm] at hbk; omega), he]
  cases hm.merged with
  | present hall =>
    refine .present ?_
    rw [← (h.take_eq_of_present hi hF hG hseg hm (append_nil _).symm hall).1]
    exact take_prefix _ _
  | @extend before after e he hall hlt =>
    obtain ⟨htake, hk⟩ := h.take_eq_of_present hi hF hG hseg hm he hall
    have hindex := hm.entries before.length e (by rw [he]; simp)
    rw [h.lastIndex hi] at hlt
    have hlen : request.previousLogIndex + before.length = F.length := by omega
    refine new F.length he hlen.symm h.base_le le_rfl (by rw [← hlen]; exact htake) hc
      (fun hp => ?_) ?_ rfl
    · have := hp.length_le
      rw [length_take, min_eq_left hseg.matched_le, he, length_append,
        length_cons] at this
      omega
    · rw [take_length, h.log]
  | @replace before after e t he hall hle hce hterm hne =>
    obtain ⟨htake, hk⟩ := h.take_eq_of_present hi hF hG hseg hm he hall
    have hindex := hm.entries before.length e (by rw [he]; simp)
    rw [h.lastIndex hi] at hle
    refine new (request.previousLogIndex + before.length) he rfl (by omega) hk htake (by omega)
      (fun hp => ?_) ?_ rfl
    · -- The first new entry differs from the local one in its term.
      obtain ⟨_, e', he', ht'⟩ := h.termAt hterm (by omega)
      have hGe : (G.take (request.previousLogIndex + request.entries.length))[e.index - 1]? =
          some e := by
        rw [hseg.take_eq he, getElem?_append_right (by rw [length_take]; omega),
          length_take, min_eq_left (by have := hseg.matched_le; simp [he] at this; omega),
          show e.index - 1 - (request.previousLogIndex + before.length) = 0 by omega]
        rfl
      have := getElem?_of_isPrefix hp hGe
      rw [he', Option.some.injEq] at this
      exact hne (by rw [← ht', this])
    · rw [h.log, show e.index - base s - 1 =
        request.previousLogIndex + before.length - base s by omega, drop_take]

end

/-! ## How a history describes a core

The protocol of `Library.Consensus` speaks of terms, votes and logs on disk. `Tracks H 𝒬 c F`
says how the core `c` stands to a history `H`: `F` is its whole log, the hard-state write it
waits for is the next rule of its node, its role is one the history knows, and what waits
behind a write will be true once the write is complete. `Stored` says the same of a disk, which
is all that is left of a node after a crash, and `Sent` of a message. -/

variable {c : Core}

/-- The histories of a cluster. -/
abbrev Hist := History NodeId LogEntry

/-- The logs of leaders start with index one and have no gaps. -/
def Indexed (H : Hist) : Prop := ∀ T, Contiguous 1 (H.led T)

variable {H : Hist}

theorem Indexed.of_coherent (h : Indexed H) {ℓ : List LogEntry} (hc : H.Coherent ℓ) :
    Contiguous 1 ℓ := by
  intro i e he
  refine h _ i e (getElem?_of_isPrefix (hc i e he) ?_)
  rw [getElem?_take_of_lt (Nat.lt_succ_self i), he]

/-! ## Messages -/

/-- The metadata describes a decided prefix of the log of `T`'s leader. -/
structure SnapshotOf (H : Hist) (T : Nat) (m : SnapshotMetadata) : Prop where
  pos : 0 < m.lastIncludedIndex
  boundary : ∃ e, (H.led T)[m.lastIncludedIndex - 1]? = some e ∧ e.term = m.lastIncludedTerm
  decided : H.DecidedBy T (H.led T) m.lastIncludedIndex

/-- What a message that was sent says about the history. -/
def Sent (H : Hist) (source dest : NodeId) : Message → Prop
  | .requestVote q => q.candidate = source ∧ ∃ E, H.campaign source q.term = some E ∧
      q.lastLogIndex = E.length ∧ q.lastLogTerm = lastTerm E
  | .requestVoteResponse q => q.granted = true → H.vote source q.term = some dest
  | .appendEntries q => H.leader q.term = some source ∧ Segment (H.led q.term) q ∧
      H.DecidedBy q.term (H.led q.term) q.leaderCommit
  | .appendEntriesResponse q => q.succeeded = true → q.matchedIndex ≤ H.ack source q.term
  | .installSnapshot q => H.leader q.term = some source ∧ SnapshotOf H q.term q.metadata
  | .installSnapshotResponse q =>
    q.succeeded = true → q.lastIncludedIndex ≤ H.ack source q.term

/-- What makes an effect of the core true once the state `s` with the log `F` is on disk. -/
def Backed (H : Hist) (s : State) (F : List LogEntry) : Effect → Prop
  | .sendRequestVote _ q => s.role = .candidate ∧
      q = ⟨s.persistent.currentTerm, s.node, F.length, lastTerm F⟩
  | .sendRequestVoteResponse dest q => q.term = s.persistent.currentTerm ∧
      (q.granted = true → s.persistent.votedFor = some dest)
  | .sendAppendEntries dest q => Sent H s.node dest (.appendEntries q)
  | .sendAppendEntriesResponse _ q => q.term = s.persistent.currentTerm ∧
      (q.succeeded = true → q.matchedIndex ≤ (H.led q.term).length ∧
        (H.led q.term).take q.matchedIndex <+: F)
  | .sendInstallSnapshot dest q => Sent H s.node dest (.installSnapshot q)
  | .sendInstallSnapshotResponse _ q => q.term = s.persistent.currentTerm ∧
      (q.succeeded = true → q.lastIncludedIndex ≤ (H.led q.term).length ∧
        (H.led q.term).take q.lastIncludedIndex <+: F)
  | _ => True

/-! ## The parts of a core -/

/-- The hard state, while the write `w` is outstanding. -/
structure HardState (H : Hist) (s : State) (w : Option PersistRaftHardState) : Prop where
  settled : w = none → H.term s.node = s.persistent.currentTerm ∧
    H.vote s.node s.persistent.currentTerm = s.persistent.votedFor
  /-- A bare term comes with a new term, and at most a vote for another node follows. -/
  enter : ∀ q, w = some q → q.state.votedFor = none →
    H.term s.node < s.persistent.currentTerm ∧ s.persistent.votedFor ≠ some s.node
  run : ∀ q, w = some q → q.state.votedFor = some s.node →
    H.term s.node < s.persistent.currentTerm ∧ s.role = .candidate
  grant : ∀ q C, w = some q → q.state.votedFor = some C → C ≠ s.node →
    H.term s.node = s.persistent.currentTerm ∧ H.vote s.node s.persistent.currentTerm = none
  /-- The vote goes to a candidate whose log is up to date. -/
  ballot : ∀ C, w ≠ none → s.persistent.votedFor = some C → C ≠ s.node →
    ∃ E, H.campaign C s.persistent.currentTerm = some E ∧ UpToDate E (H.log s.node)

/-- A leader is the one of its term, and its log is the log of that term. -/
structure Leads (H : Hist) (s : State) (F : List LogEntry) : Prop where
  vote : s.persistent.votedFor = some s.node
  leader : H.leader s.persistent.currentTerm = some s.node
  log : F = H.led s.persistent.currentTerm
  matched : ∀ l, s.leader = some l → ∀ p ∈ l.progress,
    p.2.matchIndex ≤ H.ack p.1 s.persistent.currentTerm
  commit : H.commit s.persistent.currentTerm ≤ s.volatileState.commitIndex

/-- A candidate has recorded its candidacy once its vote is on disk. -/
structure Campaigns (H : Hist) (s : State) (F : List LogEntry)
    (w : Option PersistRaftHardState) : Prop where
  vote : s.persistent.votedFor = some s.node
  log : F = H.log s.node
  campaign : w = none → H.campaign s.node s.persistent.currentTerm = some F ∧
    H.leader s.persistent.currentTerm ≠ some s.node
  votes : ∀ v ∈ s.votesReceived, v ≠ s.node → H.vote v s.persistent.currentTerm = some s.node

structure Role (H : Hist) (s : State) (F : List LogEntry) (w : Option PersistRaftHardState) :
    Prop where
  leader : s.role = .leader → w = none ∧ Leads H s F
  candidate : s.role = .candidate → Campaigns H s F w

/-- The log, which is on disk unless it is `dirty`. -/
structure LogState (H : Hist) (s : State) (F : List LogEntry) (dirty : Prop) : Prop where
  clean : ¬ dirty → F = H.log s.node
  ahead : dirty → F <+: H.led s.persistent.currentTerm ∧ ¬ F <+: H.log s.node

/-- The node has recovered an applied index that its log does not cover: everything up to its
commit index is applied, and it cannot become a leader before its log has caught up. -/
structure Stuck (H : Hist) (𝒬 : QuorumSystem NodeId) (s : State)
    (w : Option PersistRaftHardState) (T : Nat) : Prop where
  applied : s.volatileState.lastApplied = s.volatileState.commitIndex
  role : s.role ≠ .leader
  campaign : s.role = .candidate → w = none →
    T < s.persistent.currentTerm ∨ H.Unelectable 𝒬 s.node s.persistent.currentTerm

/-- What is committed was declared committed by some leader. -/
def Commit (H : Hist) (𝒬 : QuorumSystem NodeId) (s : State) (F : List LogEntry)
    (w : Option PersistRaftHardState) : Prop :=
  H.DecidedBy s.persistent.currentTerm F s.volatileState.commitIndex ∨
    ∃ T, s.volatileState.commitIndex ≤ H.commit T ∧ Stuck H 𝒬 s w T

/-- What holds of a state of the specification with the whole log `F` while the write `w` is
outstanding. -/
structure Sound (H : Hist) (𝒬 : QuorumSystem NodeId) (s : State) (F : List LogEntry)
    (w : Option PersistRaftHardState) : Prop where
  full : Full s F
  coherent : H.Coherent F
  hard : HardState H s w
  role : Role H s F w
  commit : Commit H 𝒬 s F w
  base_le : base s ≤ s.volatileState.lastApplied
  applied_le : s.volatileState.lastApplied ≤ s.volatileState.commitIndex

/-- A snapshot being published: the node's own, or one it received from its leader. -/
structure Publishing (H : Hist) (s : State) (p : PendingSnapshotPersistence) : Prop where
  settled : s.pendingHardState = none
  own : p.localCreation = true → OwnSnapshot s p.request.snapshot.metadata
  received : p.localCreation = false → s.role = .follower ∧
    SnapshotOf H s.persistent.currentTerm p.request.snapshot.metadata ∧
    s.volatileState.lastApplied < p.request.snapshot.metadata.lastIncludedIndex ∧
    ∀ x, p.reply = some x → x.2.term = s.persistent.currentTerm ∧
      x.2.lastIncludedIndex = p.request.snapshot.metadata.lastIncludedIndex

/-- A received snapshot on disk that the state machine has not restored yet: the log on disk
already is the one the node will have. -/
structure Restoring (H : Hist) (s : State) (F : List LogEntry) (p : PendingSnapshotRestore) :
    Prop where
  settled : s.pendingHardState = none
  role : s.role = .follower
  snapshot : SnapshotOf H s.persistent.currentTerm p.snapshot.metadata
  applied : s.volatileState.lastApplied < p.snapshot.metadata.lastIncludedIndex
  term : p.response.term = s.persistent.currentTerm
  index : p.response.lastIncludedIndex = p.snapshot.metadata.lastIncludedIndex
  log : (F = H.log s.node ∧
      (H.led s.persistent.currentTerm).take p.snapshot.metadata.lastIncludedIndex <+: F) ∨
    (H.log s.node =
        (H.led s.persistent.currentTerm).take p.snapshot.metadata.lastIncludedIndex ∧
      ¬ H.log s.node <+: F)

/-! ## Cores and disks -/

/-- The hard-state write a core waits for. -/
def writeOf (s : State) : Option PersistRaftHardState := s.pendingHardState.map fun p => p.request

structure Tracks (H : Hist) (𝒬 : QuorumSystem NodeId) (c : Core) (F : List LogEntry) :
    Prop where
  orderly : c.Orderly
  sound : Sound H 𝒬 c.state F (writeOf c.state)
  log : c.pendingSnapshotRestore = none →
    LogState H c.state F (c.pendingLog.isSome ∨ Dirty c.state)
  waiting : ∀ p, c.state.pendingHardState = some p → ∀ f ∈ p.deferredEffects,
    ∀ e, direct? f = some e → Backed H c.state F e
  deferred : ∀ p, c.pendingLog = some p → ∀ e ∈ p.deferredEffects, Backed H c.state F e
  written : ∀ p, c.pendingLog = some p → p.request.log = c.state.persistent.log
  publishing : ∀ p, c.pendingSnapshot = some p → Publishing H c.state p
  restoring : ∀ p, c.pendingSnapshotRestore = some p → Restoring H c.state F p
  install : ∀ x, c.installAfterHardState = some x →
    Sent H x.1 c.state.node (.installSnapshot x.2)
  application : ∀ p, c.pendingApplication = some p →
    p.request.entry.index = c.state.volatileState.lastApplied + 1 ∧
      c.state.volatileState.lastApplied < c.state.volatileState.commitIndex ∧
      F[c.state.volatileState.lastApplied]? = some p.request.entry
  snapshot : c.durableSnapshot.map RaftSnapshot.metadata = c.state.persistent.snapshot

/-- The index of the snapshot on a disk. -/
def snapshotIndex (disk : Recovered) : Nat :=
  (disk.snapshot.map fun d => d.metadata.lastIncludedIndex).getD 0

/-- What the history says about the disk of the node `n`. The log on it is the suffix of the
node's log from an earlier snapshot on, or it is older than the snapshot, which then ends the
node's log. -/
structure Stored (H : Hist) (n : NodeId) (disk : Recovered) : Prop where
  hardState : disk.hardState = ⟨H.term n, H.vote n (H.term n)⟩
  applied : ∃ T, disk.applied ≤ H.commit T
  snapshot : ∀ d, disk.snapshot = some d → 0 < d.metadata.lastIncludedIndex ∧
    (∃ e, (H.log n)[d.metadata.lastIncludedIndex - 1]? = some e ∧
      e.term = d.metadata.lastIncludedTerm) ∧ ∃ T, d.metadata.lastIncludedIndex ≤ H.commit T
  log : ∃ E b, disk.log = E.drop b ∧ H.Coherent E ∧ b ≤ snapshotIndex disk ∧
    (E = H.log n ∨ ((H.log n).length = snapshotIndex disk ∧ b < snapshotIndex disk ∧
      ¬ H.log n <+: E ∧ H.Decided (H.log n) (snapshotIndex disk)))

/-- The snapshot of a core is the one on its disk, except while it is being restored. -/
structure Holds (c : Core) (disk : Recovered) : Prop where
  same : c.pendingSnapshotRestore = none →
    disk.snapshot.map RaftSnapshot.metadata = c.durableSnapshot.map RaftSnapshot.metadata
  ahead : ∀ p, c.pendingSnapshotRestore = some p →
    disk.snapshot.map RaftSnapshot.metadata = some p.snapshot.metadata

/-! ## Nothing left to write -/

theorem HardState.of_settled (h : H.term s.node = s.persistent.currentTerm ∧
      H.vote s.node s.persistent.currentTerm = s.persistent.votedFor) : HardState H s none :=
  ⟨fun _ => h, fun _ hw => (by cases hw), fun _ hw => (by cases hw), fun _ _ hw => (by cases hw),
    fun _ hw => absurd rfl hw⟩

theorem not_dirty (hlog : c.pendingLog = none) (hn : c.state.pendingHardState = none) :
    ¬ (c.pendingLog.isSome ∨ Dirty c.state) := by
  rw [hlog]
  rintro (h | ⟨p, hp, _⟩)
  · cases h
  · cases hn.symm.trans hp

theorem LogState.of_settled (hlog : c.pendingLog = none)
    (hn : c.state.pendingHardState = none) (hF : F = H.log c.state.node) :
    LogState H c.state F (c.pendingLog.isSome ∨ Dirty c.state) :=
  ⟨fun _ => hF, fun hd => absurd hd (not_dirty hlog hn)⟩

/-! ## Later histories -/

section

variable {H H' : Hist} {w : Option PersistRaftHardState} {T : Nat} {m : SnapshotMetadata}

theorem SnapshotOf.mono (hv : H.Valid 𝒬) (hle : H.Le H')
    (h : SnapshotOf H T m) : SnapshotOf H' T m where
  pos := h.pos
  boundary := by
    obtain ⟨e, he, ht⟩ := h.boundary
    exact ⟨e, getElem?_of_isPrefix (hle.led T) he, ht⟩
  decided := (h.decided.mono hv hle).of_isPrefix (hle.led T)

theorem Sent.mono (hv : H.Valid 𝒬) (hle : H.Le H') {source dest : NodeId} {message : Message}
    (h : Sent H source dest message) : Sent H' source dest message := by
  cases message with
  | requestVote q =>
    obtain ⟨hc, E, hE, hlast⟩ := h
    exact ⟨hc, E, hle.campaign _ _ E hE, hlast⟩
  | requestVoteResponse q => exact fun hg => hle.vote _ _ _ (h hg)
  | appendEntries q =>
    obtain ⟨hl, hseg, hd⟩ := h
    exact ⟨hle.leader _ _ hl, hseg.mono (hle.led _), (hd.mono hv hle).of_isPrefix (hle.led _)⟩
  | appendEntriesResponse q | installSnapshotResponse q =>
    exact fun hs => (h hs).trans (hle.ack _ _)
  | installSnapshot q => exact ⟨hle.leader _ _ h.1, h.2.mono hv hle⟩

/-- What fits into the log of a leader is the same in a later history. -/
theorem take_led (hle : H.Le H') {k : Nat} (hk : k ≤ (H.led T).length) :
    k ≤ (H'.led T).length ∧ (H'.led T).take k = (H.led T).take k := by
  obtain ⟨t, ht⟩ := hle.led T
  rw [← ht, take_append_of_le_length hk, length_append]
  exact ⟨by omega, rfl⟩

theorem Backed.mono (hv : H.Valid 𝒬) (hle : H.Le H') {e : Effect} (h : Backed H s F e) :
    Backed H' s F e := by
  cases e with
  | sendAppendEntries dest q =>
    have h : Sent H s.node dest (.appendEntries q) := h
    exact h.mono hv hle
  | sendInstallSnapshot dest q =>
    have h : Sent H s.node dest (.installSnapshot q) := h
    exact h.mono hv hle
  | sendAppendEntriesResponse dest q | sendInstallSnapshotResponse dest q =>
    refine ⟨h.1, fun hs => ?_⟩
    obtain ⟨hk, hp⟩ := h.2 hs
    obtain ⟨hk', heq⟩ := take_led hle hk
    exact ⟨hk', heq ▸ hp⟩
  | _ => exact h

theorem SnapshotOf.le_length (h : SnapshotOf H T m) : m.lastIncludedIndex ≤ (H.led T).length := by
  obtain ⟨e, he, _⟩ := h.boundary
  have := (List.getElem?_eq_some_iff.mp he).1
  have := h.pos
  omega

variable (hv : H.Valid 𝒬) (hs : History.SameFor s.node H H')
include hs

theorem HardState.mono (h : HardState H s w) : HardState H' s w where
  settled hw := by
    rw [hs.term_eq, hs.vote_eq]
    exact h.settled hw
  enter q hq hn := by
    rw [hs.term_eq]
    exact h.enter q hq hn
  run q hq hn := by
    rw [hs.term_eq]
    exact h.run q hq hn
  grant q C hq hC hne := by
    rw [hs.term_eq, hs.vote_eq]
    exact h.grant q C hq hC hne
  ballot C hw hC hne := by
    obtain ⟨E, hE, hup⟩ := h.ballot C hw hC hne
    rw [hs.log_eq]
    exact ⟨E, hs.campaign _ _ E hE, hup⟩

theorem Leads.mono (h : Leads H s F) : Leads H' s F where
  vote := h.vote
  leader := hs.leader _ _ h.leader
  log := h.log.trans (hs.led_eq _ h.leader).symm
  matched l hl p hp := (h.matched l hl p hp).trans (hs.ack _ _)
  commit := (hs.commit_eq _ h.leader).trans_le h.commit

theorem Campaigns.mono (h : Campaigns H s F w) : Campaigns H' s F w where
  vote := h.vote
  log := h.log.trans hs.log_eq.symm
  campaign hw := ⟨hs.campaign _ _ _ (h.campaign hw).1,
    fun hl => (h.campaign hw).2 (hs.leader_eq _ hl)⟩
  votes v hv hne := hs.vote _ _ _ (h.votes v hv hne)

theorem Role.mono (h : Role H s F w) : Role H' s F w where
  leader hr := ⟨(h.leader hr).1, (h.leader hr).2.mono hs⟩
  candidate hr := (h.candidate hr).mono hs

theorem LogState.mono {dirty : Prop} (h : LogState H s F dirty) : LogState H' s F dirty where
  clean hd := (h.clean hd).trans hs.log_eq.symm
  ahead hd := by
    rw [hs.log_eq]
    exact ⟨(h.ahead hd).1.trans (hs.led _), (h.ahead hd).2⟩

include hv

theorem Commit.mono (h : Commit H 𝒬 s F w) : Commit H' 𝒬 s F w := by
  rcases h with h | ⟨T, hle, h⟩
  · exact .inl (h.mono hv hs.toLe)
  · exact .inr ⟨T, hle.trans (hs.commit T), h.applied, h.role,
      fun hr hw => (h.campaign hr hw).imp_right (History.Unelectable.mono hs.toLe)⟩

theorem Sound.mono (h : Sound H 𝒬 s F w) : Sound H' 𝒬 s F w where
  __ := h
  coherent := h.coherent.mono hs.led
  hard := h.hard.mono hs
  role := h.role.mono hs
  commit := h.commit.mono hv hs

theorem Publishing.mono {p : PendingSnapshotPersistence} (h : Publishing H s p) :
    Publishing H' s p where
  __ := h
  received hl := by
    obtain ⟨hr, hsnap, happlied, hreply⟩ := h.received hl
    exact ⟨hr, hsnap.mono hv hs.toLe, happlied, hreply⟩

theorem Restoring.mono {p : PendingSnapshotRestore} (h : Restoring H s F p) :
    Restoring H' s F p where
  __ := h
  snapshot := h.snapshot.mono hv hs.toLe
  log := by
    rw [(take_led hs.toLe h.snapshot.le_length).2, hs.log_eq]
    exact h.log

end

/-- A core does not notice what others do, or its own acknowledgements. -/
theorem Tracks.mono (hv : H.Valid 𝒬) (hs : History.SameFor c.state.node H H') (h : Tracks H 𝒬 c F) :
    Tracks H' 𝒬 c F where
  __ := h
  sound := h.sound.mono hv hs
  log hr := (h.log hr).mono hs
  waiting p hp f hf e he := (h.waiting p hp f hf e he).mono hv hs.toLe
  deferred p hp e he := (h.deferred p hp e he).mono hv hs.toLe
  publishing p hp := (h.publishing p hp).mono hv hs
  restoring p hp := (h.restoring p hp).mono hv hs
  install x hx := (h.install x hx).mono hv hs.toLe

theorem Stored.written {n : NodeId} (hv : H.Valid 𝒬) (hle : H.Le H')
    (hlog : H'.log n = H.log n) {state : RaftHardState}
    (hs : state = ⟨H'.term n, H'.vote n (H'.term n)⟩) (h : Stored H n disk) :
    Stored H' n { disk with hardState := state } where
  hardState := hs
  applied := by
    obtain ⟨T, hT⟩ := h.applied
    exact ⟨T, hT.trans (hle.commit T)⟩
  snapshot d hd := by
    obtain ⟨hpos, hb, T, hT⟩ := h.snapshot d hd
    rw [hlog]
    exact ⟨hpos, hb, T, hT.trans (hle.commit T)⟩
  log := by
    obtain ⟨E, b, hdisk, hE, hb, hcase⟩ := h.log
    rw [hlog]
    exact ⟨E, b, hdisk, hE.mono hle.led, hb,
      hcase.imp_right fun ⟨h₁, h₂, h₃, h₄⟩ => ⟨h₁, h₂, h₃, h₄.mono hv hle⟩⟩

theorem Stored.mono {n : NodeId}
    (hv : H.Valid 𝒬) (hle : H.Le H') (hterm : H'.term n = H.term n) (hvote : H'.vote n = H.vote n)
    (hlog : H'.log n = H.log n) (h : Stored H n disk) : Stored H' n disk := by
  refine h.written hv hle hlog ?_
  rw [hterm, hvote]
  exact h.hardState

end KuraMetadata.Replica
