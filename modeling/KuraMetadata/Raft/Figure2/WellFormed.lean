import KuraMetadata.Raft.Figure2
import KuraMetadata.Library.Except
import Mathlib.Data.Finset.Basic

/-! # The representation invariant as a proposition

`validate` reports the violated clauses of the representation invariant; `WellFormed` states
the clauses over the natural numbers and `Unwrapped` the one whose bound is a 64-bit sum.
`validate_eq_nil_iff` says that the executable check decides them. -/

namespace KuraMetadata.Figure2

open List

variable {peers : List NodeId} {first : Nat} {s : State}

/-- The indexes of the entries are `first`, `first + 1`, and so on. -/
def Contiguous (first : Nat) (log : List LogEntry) : Prop :=
  ∀ i e, log[i]? = some e → e.index = first + i

/-- The progress map of a leader covers its peers and stays within its log. -/
structure ProgressFits (peers : List NodeId) (last : Nat) (leader : LeaderState) : Prop where
  length : leader.progress.length = peers.length
  peer : ∀ p ∈ peers, ∃ q, leader.progress.lookup p = some q ∧ 1 ≤ q.nextIndex ∧
    q.nextIndex ≤ last + 1 ∧ q.matchIndex ≤ last ∧ q.matchIndex < q.nextIndex
  clients : ∀ i ∈ leader.pendingClients, i ≠ 0 ∧ i ≤ last

structure WellFormed (s : State) : Prop where
  node_not_mem : s.node ∉ s.peers
  peers_nodup : s.peers.Nodup
  snapshot_pos : ∀ m, s.persistent.snapshot = some m →
    m.lastIncludedIndex ≠ 0 ∧ m.lastIncludedTerm ≠ 0 ∧
      m.lastIncludedTerm ≤ s.persistent.currentTerm
  base_le_commit : base s ≤ s.volatileState.commitIndex
  base_le_applied : base s ≤ s.volatileState.lastApplied
  contiguous : Contiguous (base s + 1) s.persistent.log
  terms : ∀ e ∈ s.persistent.log, e.term ≤ s.persistent.currentTerm
  commit_le_last : s.volatileState.commitIndex ≤ lastIndex s
  applied_le_commit : s.volatileState.lastApplied ≤ s.volatileState.commitIndex
  leader_some : s.role = .leader → s.leader ≠ none
  leader_none : s.role ≠ .leader → s.leader = none
  votes_empty : s.role ≠ .candidate → s.votesReceived = ∅
  request_pos : s.nextHardStateRequestId ≠ 0
  pending_pos : ∀ p, s.pendingHardState = some p → p.request.requestId ≠ 0
  votes_peers : ∀ v ∈ s.votesReceived, v = s.node ∨ v ∈ s.peers
  progress : ∀ leader, s.leader = some leader → ProgressFits s.peers (lastIndex s) leader

/-- No `nextIndex` exceeds the bound of the source, whose sum is one of 64 bits. -/
def Unwrapped (s : State) : Prop :=
  ∀ leader, s.leader = some leader → ∀ p ∈ s.peers, ∀ q, leader.progress.lookup p = some q →
    q.nextIndex ≤ (lastIndex s + 1) % (u64Max + 1)

/-! ## The clauses one by one -/

theorem peerViolations_eq_nil {node : NodeId} {seen : List NodeId} :
    peerViolations node seen peers = [] ↔
      node ∉ peers ∧ peers.Nodup ∧ ∀ p ∈ peers, p ∉ seen := by
  induction peers generalizing seen with
  | nil => simp [peerViolations]
  | cons peer rest ih =>
    simp only [peerViolations, append_eq_nil_iff, ih, ite_eq_right_iff,
      cons_ne_nil, imp_false, mem_cons, not_or, nodup_cons, forall_eq_or_imp]
    constructor
    · rintro ⟨⟨hne, hseen⟩, hnode, hnodup, hrest⟩
      exact ⟨⟨fun h => hne h.symm, hnode⟩, ⟨fun h => (hrest _ h).1 rfl, hnodup⟩, hseen,
        fun p hp => (hrest p hp).2⟩
    · rintro ⟨⟨hne, hnode⟩, ⟨hmem, hnodup⟩, hseen, hrest⟩
      exact ⟨⟨fun h => hne h.symm, hseen⟩, hnode, hnodup,
        fun p hp => ⟨fun h => hmem (h ▸ hp), hrest p hp⟩⟩

theorem contiguous_cons {entry : LogEntry} {rest : List LogEntry} :
    Contiguous first (entry :: rest) ↔ entry.index = first ∧ Contiguous (first + 1) rest := by
  constructor
  · intro h
    refine ⟨h 0 entry rfl, fun i e he => ?_⟩
    rw [h (i + 1) e he]
    omega
  · rintro ⟨h, hrest⟩ i e he
    cases i with
    | zero => rw [← h]; simp at he; rw [he]; rfl
    | succ i =>
      rw [hrest i e he]
      omega

theorem logViolations_eq_nil {term : Nat} {log : List LogEntry} :
    logViolations term first log = [] ↔ Contiguous first log ∧ ∀ e ∈ log, e.term ≤ term := by
  induction log generalizing first with
  | nil =>
    simp only [logViolations, not_mem_nil, false_imp_iff, implies_true, and_true, true_iff]
    intro i e he
    simp at he
  | cons entry rest ih =>
    rw [logViolations, contiguous_cons, forall_mem_cons]
    split
    case isTrue h => simp [h]
    case isFalse h =>
      split
      case isTrue h' => simp; omega
      case isFalse h' =>
        rw [ih]
        constructor
        · rintro ⟨hc, ht⟩
          exact ⟨⟨by omega, hc⟩, by omega, ht⟩
        · rintro ⟨⟨_, hc⟩, _, ht⟩
          exact ⟨hc, ht⟩

theorem progressViolations_eq_nil {progress : List (NodeId × PeerProgress)} {last : Nat} :
    progressViolations progress last peers = [] ↔
      ∀ p ∈ peers, ∃ q, progress.lookup p = some q ∧ 1 ≤ q.nextIndex ∧
        q.nextIndex ≤ (last + 1) % (u64Max + 1) ∧ q.matchIndex ≤ last ∧
        q.matchIndex < q.nextIndex := by
  induction peers with
  | nil => simp [progressViolations]
  | cons peer rest ih =>
    rw [progressViolations, append_eq_nil_iff, ih, forall_mem_cons]
    refine and_congr_left fun _ => ?_
    cases progress.lookup peer with
    | none => simp
    | some q =>
      simp only [append_eq_nil_iff, ite_eq_right_iff, cons_ne_nil, imp_false,
        Option.some.injEq, exists_eq_left']
      omega

theorem leaderViolations_eq_nil {leader : LeaderState} :
    leaderViolations s leader = [] ↔ ProgressFits s.peers (lastIndex s) leader ∧
      ∀ p ∈ s.peers, ∀ q, leader.progress.lookup p = some q →
        q.nextIndex ≤ (lastIndex s + 1) % (u64Max + 1) := by
  simp only [leaderViolations, append_eq_nil_iff, progressViolations_eq_nil,
    ite_eq_right_iff, cons_ne_nil, imp_false, not_not, replicate_eq_nil_iff,
    Finset.card_eq_zero, Finset.filter_eq_empty_iff, not_or, not_lt]
  constructor
  · rintro ⟨⟨hlen, hpeer⟩, hclients⟩
    refine ⟨⟨hlen, fun p hp => ?_, fun i hi => hclients hi⟩, fun p hp q hq => ?_⟩
    · obtain ⟨q, hq, h1, h2, h3⟩ := hpeer p hp
      exact ⟨q, hq, h1, h2.trans (Nat.mod_le _ _), h3⟩
    · obtain ⟨q', hq', _, hle, _⟩ := hpeer p hp
      cases hq.symm.trans hq'
      exact hle
  · rintro ⟨h, hle⟩
    refine ⟨⟨h.length, fun p hp => ?_⟩, fun i hi => h.clients i hi⟩
    obtain ⟨q, hq, h1, _, h3⟩ := h.peer p hp
    exact ⟨q, hq, h1, hle p hp q hq, h3⟩

theorem snapshotViolations_eq_nil :
    snapshotViolations s = [] ↔ ∀ m, s.persistent.snapshot = some m →
      m.lastIncludedIndex ≠ 0 ∧ m.lastIncludedTerm ≠ 0 ∧
        m.lastIncludedTerm ≤ s.persistent.currentTerm := by
  unfold snapshotViolations
  cases s.persistent.snapshot with
  | none | some m => simp

theorem validate_eq_nil_iff : validate s = [] ↔ WellFormed s ∧ Unwrapped s := by
  simp only [validate, append_eq_nil_iff, peerViolations_eq_nil, snapshotViolations_eq_nil,
    logViolations_eq_nil, ite_eq_right_iff, cons_ne_nil, imp_false,
    replicate_eq_nil_iff, Finset.card_eq_zero, Finset.filter_eq_empty_iff, not_or, not_and,
    not_lt, not_not]
  constructor
  · rintro ⟨⟨⟨⟨⟨⟨⟨⟨⟨⟨⟨⟨⟨h1, h2, _⟩, h3⟩, h4, h5⟩, h6, h7⟩, h8⟩, h9⟩, h10⟩, h11⟩, h12⟩, h13⟩, h14⟩,
      h15⟩, h16⟩
    have hleader : ∀ leader, s.leader = some leader → leaderViolations s leader = [] :=
      fun leader hl => by rwa [hl] at h16
    refine ⟨⟨h1, h2, h3, h4, h5, h6, h7, h8, h9, h10, h11, h12, h13, fun p hp => ?_,
      fun v hv => Classical.or_iff_not_imp_left.mpr (h15 hv),
      fun leader hl => (leaderViolations_eq_nil.mp (hleader leader hl)).1⟩,
      fun leader hl => (leaderViolations_eq_nil.mp (hleader leader hl)).2⟩
    rw [hp] at h14
    simpa using h14
  · rintro ⟨⟨h1, h2, h3, h4, h5, h6, h7, h8, h9, h10, h11, h12, h13, h14, h15, h16⟩, h17⟩
    refine ⟨⟨⟨⟨⟨⟨⟨⟨⟨⟨⟨⟨⟨h1, h2, by simp⟩, h3⟩, h4, h5⟩, h6, h7⟩, h8⟩, h9⟩, h10⟩, h11⟩, h12⟩, h13⟩,
      ?_⟩, fun v hv => Classical.or_iff_not_imp_left.mp (h15 v hv)⟩, ?_⟩
    · cases hp : s.pendingHardState with
      | none => rfl
      | some p => exact if_neg (h14 p hp)
    · cases hl : s.leader with
      | none => rfl
      | some leader => exact leaderViolations_eq_nil.mpr ⟨h16 leader hl, h17 leader hl⟩

@[simp]
theorem ensureValid_eq_ok {when_ : String} {u : Unit} :
    ensureValid s when_ = .ok u ↔ validate s = [] := by
  rw [ensureValid]
  cases validate s <;> simp

end KuraMetadata.Figure2
