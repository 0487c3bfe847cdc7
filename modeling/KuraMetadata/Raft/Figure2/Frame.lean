import KuraMetadata.Raft.Figure2.Outcome

/-! # What no step of the specification changes

The node, its peers, its snapshot and the applied index stay, the commit index only grows, and
a committed entry is never taken out of the log. -/

namespace KuraMetadata.Figure2

open List Except

variable {T first : Nat} {e : LogEntry} {s s₁ : State} {request : AppendEntriesRequest}
variable {changed : Bool} {observed : List Effect} {event : Event} {r : StepResult}

section

variable {log : List LogEntry}

/-! ## Indexes of a contiguous log -/

theorem Contiguous.getElem? (h : Contiguous first log) (he : e ∈ log) :
    log[e.index - first]? = some e ∧ first ≤ e.index := by
  obtain ⟨i, hi⟩ := mem_iff_getElem?.mp he
  have hidx := h i e hi
  rw [show e.index - first = i by omega]
  exact ⟨hi, by omega⟩

theorem Contiguous.append {log log' : List LogEntry} (h : Contiguous first log)
    (h' : Contiguous (first + log.length) log') : Contiguous first (log ++ log') := by
  intro i e he
  rcases Nat.lt_or_ge i log.length with hi | hi
  · exact h i e (by rwa [getElem?_append_left hi] at he)
  · rw [getElem?_append_right hi] at he
    rw [h' _ e he]
    omega

theorem Contiguous.drop (h : Contiguous first log) (k : Nat) :
    Contiguous (first + k) (log.drop k) := by
  intro i e he
  rw [getElem?_drop] at he
  rw [h _ e he]
  omega

theorem Contiguous.take (h : Contiguous first log) (k : Nat) : Contiguous first (log.take k) := by
  intro i e he
  rw [getElem?_take] at he
  split at he
  · exact h i e he
  · cases he

theorem contiguous_nil (first : Nat) : Contiguous first [] := by
  intro i e he
  simp at he

theorem contiguousFrom_iff : contiguousFrom first log = true ↔ Contiguous first log := by
  induction log generalizing first with
  | nil => exact ⟨fun _ => contiguous_nil first, fun _ => rfl⟩
  | cons entry rest ih =>
    rw [contiguousFrom, Bool.and_eq_true, beq_iff_eq, ih, contiguous_cons]

theorem lastIndex_eq (h : Contiguous (base s + 1) s.persistent.log) :
    lastIndex s = base s + s.persistent.log.length := by
  unfold lastIndex
  rw [getLast?_eq_getElem?]
  cases he : s.persistent.log[s.persistent.log.length - 1]? with
  | none =>
    have := List.getElem?_eq_none_iff.mp he
    simp only
    omega
  | some e =>
    have hidx := h _ e he
    have hlt := (List.getElem?_eq_some_iff.mp he).1
    simp only
    omega

theorem entryAt_eq_ok {i : Nat} :
    entryAt s i = .ok e ↔ base s < i ∧ s.persistent.log[i - base s - 1]? = some e := by
  unfold entryAt
  split
  case isTrue h => simp; omega
  case isFalse h =>
    cases s.persistent.log[i - base s - 1]? with
    | none => simp
    | some e' => simp; omega

theorem entryAt_index (h : Contiguous (base s + 1) s.persistent.log) {i : Nat}
    (he : entryAt s i = .ok e) : e.index = i ∧ e ∈ s.persistent.log := by
  obtain ⟨hlt, he⟩ := entryAt_eq_ok.mp he
  have := h _ e he
  exact ⟨by omega, mem_of_getElem? he⟩

/-! ## Merging the entries of a request -/

/-- What the scan of the incoming entries finds: a prefix of entries the log already has, and
then nothing, an entry beyond the log, or an entry of another term. -/
inductive Scanned (s : State) (entries : List LogEntry) : Scan → Prop where
  | present (h : ∀ e ∈ entries, e.index ≤ lastIndex s ∧ termAt s e.index = .ok e.term) :
      Scanned s entries .present
  | conflict {e : LogEntry} {t : Nat} (he : e ∈ entries)
      (hc : e.index ≤ s.volatileState.commitIndex) (ht : termAt s e.index = .ok t)
      (hne : t ≠ e.term) : Scanned s entries .conflict
  | extend {before new : List LogEntry} {e : LogEntry} (he : entries = before ++ e :: new)
      (h : ∀ e ∈ before, e.index ≤ lastIndex s ∧ termAt s e.index = .ok e.term)
      (hlt : lastIndex s < e.index) : Scanned s entries (.extend (e :: new))
  | replace {before new : List LogEntry} {e : LogEntry} {t : Nat}
      (he : entries = before ++ e :: new)
      (h : ∀ e ∈ before, e.index ≤ lastIndex s ∧ termAt s e.index = .ok e.term)
      (hle : e.index ≤ lastIndex s) (hc : s.volatileState.commitIndex < e.index)
      (ht : termAt s e.index = .ok t) (hne : t ≠ e.term) :
      Scanned s entries (.replace e.index (e :: new))

theorem scanEntries_eq_ok {entries : List LogEntry} {scan : Scan}
    (h : scanEntries s entries = .ok scan) : Scanned s entries scan := by
  induction entries with
  | nil =>
    rw [← Except.ok.inj h]
    exact .present (by simp)
  | cons entry rest ih =>
    unfold scanEntries at h
    split at h
    case isTrue hlast =>
      rw [← Except.ok.inj h]
      exact @Scanned.extend s _ [] rest entry rfl (by simp) hlast
    case isFalse hlast =>
      obtain ⟨term, hterm, h⟩ := bind_eq_ok.mp h
      split at h
      case isTrue hne =>
        split at h
        case isTrue hcommit =>
          rw [← pure_eq_ok.mp h]
          exact .conflict mem_cons_self hcommit hterm hne
        case isFalse hcommit =>
          rw [← pure_eq_ok.mp h]
          exact @Scanned.replace s _ [] rest entry term rfl (by simp) (by omega) (by omega)
            hterm hne
      case isFalse heq =>
        have hentry : entry.index ≤ lastIndex s ∧ termAt s entry.index = .ok entry.term :=
          ⟨by omega, by rw [hterm, not_not.mp heq]⟩
        cases ih h with
        | present hrest => exact .present (forall_mem_cons.mpr ⟨hentry, hrest⟩)
        | conflict he hc ht hne => exact .conflict (mem_cons_of_mem _ he) hc ht hne
        | @extend before new e he hbefore hlt =>
          exact @Scanned.extend s _ (entry :: before) new e (by rw [he]; rfl)
            (forall_mem_cons.mpr ⟨hentry, hbefore⟩) hlt
        | @replace before new e t he hbefore hle hc ht hne =>
          exact @Scanned.replace s _ (entry :: before) new e t (by rw [he]; rfl)
            (forall_mem_cons.mpr ⟨hentry, hbefore⟩) hle hc ht hne

/-- How the incoming entries change the log. -/
inductive Merged (s : State) (entries : List LogEntry) : List LogEntry → Bool → Prop where
  | present (h : ∀ e ∈ entries, e.index ≤ lastIndex s ∧ termAt s e.index = .ok e.term) :
      Merged s entries s.persistent.log false
  | extend {before new : List LogEntry} {e : LogEntry} (he : entries = before ++ e :: new)
      (h : ∀ e ∈ before, e.index ≤ lastIndex s ∧ termAt s e.index = .ok e.term)
      (hlt : lastIndex s < e.index) :
      Merged s entries (s.persistent.log ++ e :: new) true
  | replace {before new : List LogEntry} {e : LogEntry} {t : Nat}
      (he : entries = before ++ e :: new)
      (h : ∀ e ∈ before, e.index ≤ lastIndex s ∧ termAt s e.index = .ok e.term)
      (hle : e.index ≤ lastIndex s) (hc : s.volatileState.commitIndex < e.index)
      (ht : termAt s e.index = .ok t) (hne : t ≠ e.term) :
      Merged s entries (s.persistent.log.take (e.index - base s - 1) ++ e :: new) true

theorem Merges.merged (h : Merges s request log changed) :
    Merged s request.entries log changed := by
  obtain ⟨_, _, scan, hscan, hmerge⟩ := h
  cases scanEntries_eq_ok hscan with
  | conflict => cases hmerge
  | present h =>
    simp only [mergedLog, Option.some.injEq, Prod.mk.injEq] at hmerge
    obtain ⟨rfl, rfl⟩ := hmerge
    exact .present h
  | extend he h hlt =>
    simp only [mergedLog, Option.some.injEq, Prod.mk.injEq] at hmerge
    obtain ⟨rfl, rfl⟩ := hmerge
    exact .extend he h hlt
  | replace he h hle hc ht hne =>
    simp only [mergedLog, Option.some.injEq, Prod.mk.injEq] at hmerge
    obtain ⟨rfl, rfl⟩ := hmerge
    exact .replace he h hle hc ht hne

theorem Merges.previous (h : Merges s request log changed) :
    base s ≤ request.previousLogIndex ∧ request.previousLogIndex ≤ lastIndex s ∧
      termAt s request.previousLogIndex = .ok request.previousLogTerm := by
  have hm := h.1
  simp only [matchesPrevious] at hm
  split at hm
  case isTrue hb =>
    obtain ⟨t, ht, heq⟩ := bind_eq_ok.mp hm
    have heq : t = request.previousLogTerm := by simpa using pure_eq_ok.mp heq
    exact ⟨hb.1, hb.2, heq ▸ ht⟩
  case isFalse => cases hm

theorem Merges.entries (h : Merges s request log changed) :
    Contiguous (request.previousLogIndex + 1) request.entries :=
  contiguousFrom_iff.mp h.2.1

/-- Entries within a log that follow an index within it end within it. -/
theorem Contiguous.within {previous last : Nat} {before rest : List LogEntry}
    (h : Contiguous (previous + 1) (before ++ rest)) (hle : previous ≤ last)
    (hall : ∀ e ∈ before, e.index ≤ last) : previous + before.length ≤ last := by
  cases hl : before.getLast? with
  | none =>
    rw [getLast?_eq_none_iff] at hl
    simpa [hl] using hle
  | some e =>
    have hmem := mem_of_getLast? hl
    rw [getLast?_eq_getElem?] at hl
    have hpos := (List.getElem?_eq_some_iff.mp hl).1
    have hidx := h (before.length - 1) e (by
      rw [getElem?_append_left hpos]
      exact hl)
    have := hall e hmem
    omega

theorem Contiguous.middle {previous : Nat} {before new : List LogEntry}
    (h : Contiguous (previous + 1) (before ++ e :: new)) :
    e.index = previous + 1 + before.length :=
  h before.length e (by simp)

/-- After the merge the log reaches at least to the last of the incoming entries. -/
theorem Merges.matched_le (hc : Contiguous (base s + 1) s.persistent.log)
    (h : Merges s request log changed) :
    request.previousLogIndex + request.entries.length ≤ base s + log.length := by
  obtain ⟨hb, hle, _⟩ := h.previous
  have hent := h.entries
  have hlast := lastIndex_eq hc
  cases h.merged with
  | present hall =>
    rw [← append_nil request.entries] at hent
    have := hent.within hle fun e he => (hall e he).1
    omega
  | extend he hall hlt =>
    rw [he] at hent ⊢
    have := hent.within hle fun e he => (hall e he).1
    have := hent.middle
    simp only [length_append, length_cons]
    omega
  | replace he _ hle =>
    rw [he] at hent ⊢
    have := hent.middle
    simp only [length_append, length_cons, List.length_take]
    omega

theorem Merges.contiguous (hc : Contiguous (base s + 1) s.persistent.log)
    (h : Merges s request log changed) : Contiguous (base s + 1) log := by
  obtain ⟨hb, hle, _⟩ := h.previous
  have hent := h.entries
  have hlast := lastIndex_eq hc
  cases h.merged with
  | present => exact hc
  | @extend before new e he hall hlt =>
    rw [he] at hent
    have := hent.within hle fun e he => (hall e he).1
    refine hc.append ?_
    have hdrop := hent.drop before.length
    rw [drop_left] at hdrop
    rwa [show base s + 1 + s.persistent.log.length =
      request.previousLogIndex + 1 + before.length by
        have := hent.middle
        omega]
  | @replace before new e _ he _ hle' =>
    rw [he] at hent
    have hidx := hent.middle
    refine (hc.take _).append ?_
    have hdrop := hent.drop before.length
    rw [drop_left] at hdrop
    rw [List.length_take]
    rwa [show base s + 1 + min (e.index - base s - 1) s.persistent.log.length =
      request.previousLogIndex + 1 + before.length by omega]

theorem mem_take_of_index_le {k : Nat} (h : Contiguous first log)
    (he : e ∈ log) (hlt : e.index < first + k) : e ∈ log.take k := by
  obtain ⟨hget, hle⟩ := h.getElem? he
  refine mem_iff_getElem?.mpr ⟨e.index - first, ?_⟩
  rw [getElem?_take_of_lt (by omega)]
  exact hget

theorem Merges.committed (hc : Contiguous (base s + 1) s.persistent.log)
    (h : Merges s request log changed) (he : e ∈ s.persistent.log)
    (hle : e.index ≤ s.volatileState.commitIndex) : e ∈ log := by
  cases h.merged with
  | present => exact he
  | extend => exact mem_append_left _ he
  | replace _ _ _ hlt =>
    refine mem_append_left _ (mem_take_of_index_le hc he ?_)
    have := (hc.getElem? he).2
    omega

end

/-! ## Replication requests -/

/-- The request a leader builds for a peer: the entries from `next` on and what stands before
them. -/
structure Builds (s : State) (next : Nat) (request : AppendEntriesRequest) : Prop where
  term : request.term = s.persistent.currentTerm
  base_lt : base s < next
  previous : request.previousLogIndex + 1 = next
  previousTerm : termAt s request.previousLogIndex = .ok request.previousLogTerm
  entries : request.entries = s.persistent.log.drop (next - base s - 1)
  commit : request.leaderCommit = s.volatileState.commitIndex

theorem appendRequest_eq_ok {peer : NodeId} {readContext : Option Nat}
    (hc : Contiguous (base s + 1) s.persistent.log)
    (h : appendRequest s peer readContext = .ok request) :
    ∃ next, Builds s next request := by
  simp only [appendRequest] at h
  cases hl : s.leader with
  | none => simp [hl] at h
  | some leader =>
    cases hp : leader.progress.lookup peer with
    | none => simp [hl, hp] at h
    | some progress =>
      simp only [hl, Option.bind_some, hp, bind_eq_ok, pure_eq_ok] at h
      obtain ⟨t, ht, rfl⟩ := h
      refine ⟨max progress.nextIndex (base s + 1), rfl, by omega, ?_, ht, ?_, rfl⟩
      · show max progress.nextIndex (base s + 1) - 1 + 1 = _
        omega
      · show (if _ then _ else _) = _
        split
        case isTrue => rfl
        case isFalse hlt =>
          rw [lastIndex_eq hc] at hlt
          rw [drop_eq_nil_of_le (by omega)]

/-! ## Fields and entries that stay -/

/-- What holds between the states before and after every step. -/
structure Frame (s s' : State) : Prop where
  node : s'.node = s.node
  peers : s'.peers = s.peers
  snapshot : s'.persistent.snapshot = s.persistent.snapshot
  lastApplied : s'.volatileState.lastApplied = s.volatileState.lastApplied
  commit : s.volatileState.commitIndex ≤ s'.volatileState.commitIndex

theorem base_congr {s' : State} (h : s'.persistent.snapshot = s.persistent.snapshot) :
    base s' = base s := by
  simp only [base, h]

theorem Frame.base {s' : State} (h : Frame s s') : base s' = base s := base_congr h.snapshot

theorem le_boundedCommit (commit : Nat) (request : AppendEntriesRequest) :
    commit ≤ boundedCommit commit request := by
  simp only [boundedCommit]
  split
  · split <;> omega
  · exact le_rfl

theorem Advanced.le {leader : LeaderState} {commit : Nat} {rules : List RuleId}
    (h : Advanced s leader commit rules) : s.volatileState.commitIndex ≤ commit := by
  cases h with
  | same => exact le_rfl
  | advance hlt => exact hlt.le

theorem Observed.frame (h : Observed s T s₁ observed) : Frame s s₁ := by
  cases h <;> exact ⟨rfl, rfl, rfl, rfl, le_rfl⟩

theorem Observed.log (h : Observed s T s₁ observed) : s₁.persistent.log = s.persistent.log := by
  cases h <;> rfl

theorem Observed.commit (h : Observed s T s₁ observed) : s₁.volatileState = s.volatileState := by
  cases h <;> rfl

theorem Observed.pending (h : Observed s T s₁ observed) :
    s₁.pendingHardState = s.pendingHardState := by
  cases h <;> rfl

theorem Outcome.frame (h : Outcome s event r) : Frame s r.state := by
  cases h with
  | voteDeny _ ho => exact ho.frame
  | voteGrant _ ho | appendReject _ ho =>
    exact ⟨ho.frame.1, ho.frame.2, ho.frame.3, ho.frame.4, ho.frame.5⟩
  | appendAccept _ ho =>
    exact ⟨ho.frame.1, ho.frame.2, ho.frame.3, ho.frame.4, ho.frame.5.trans (le_boundedCommit _ _)⟩
  | replicated _ _ _ _ _ _ _ ha | appended _ _ _ _ ha => exact ⟨rfl, rfl, rfl, rfl, ha.le⟩
  | _ => exact ⟨rfl, rfl, rfl, rfl, le_rfl⟩

theorem Outcome.pending (h : Outcome s event r) (he : event.isCompletion = false) :
    r.state.pendingHardState = s.pendingHardState := by
  cases h with
  | voteDeny _ ho | voteGrant _ ho | appendReject _ ho | appendAccept _ ho => exact ho.pending
  | released => cases he
  | _ => rfl

theorem Sends.not_persistState {peers : List NodeId} {effects : List Effect}
    (h : Sends s peers effects) : .persistState ∉ effects := by
  intro hmem
  obtain ⟨_, _, _, _, heq⟩ := h _ hmem
  cases heq

theorem Observed.not_persistState (h : Observed s T s₁ observed) : .persistState ∉ observed := by
  cases h <;> simp

/-- A handler leaves the log alone, or it asks for a write of the log and keeps the committed
entries. -/
theorem Outcome.log (hc : Contiguous (base s + 1) s.persistent.log) (h : Outcome s event r)
    (he : event.isCompletion = false) :
    (r.state.persistent.log = s.persistent.log ∧ .persistState ∉ r.effects) ∨
      (.persistState ∈ r.effects ∧ ∀ e ∈ s.persistent.log,
        e.index ≤ s.volatileState.commitIndex → e ∈ r.state.persistent.log) := by
  cases h with
  | idle | campaign | observe | voteStale | voteAgain | voteRecorded | appendStale | replicated
  | retried => exact .inl ⟨rfl, by simp⟩
  | heartbeat _ _ hs | elected _ _ _ _ _ _ hs => exact .inl ⟨rfl, hs.not_persistState⟩
  | voteDeny _ ho | voteGrant _ ho | appendReject _ ho =>
    exact .inl ⟨ho.log, by simpa using ho.not_persistState⟩
  | @appendAccept sender _ _ s₁ observed log changed _ ho _ _ _ hm =>
    cases hchanged : changed with
    | false =>
      subst hchanged
      cases hm.merged with
      | present => exact .inl ⟨ho.log, by simpa using ho.not_persistState⟩
    | true =>
      subst hchanged
      refine .inr ⟨by simp, fun e he hle => hm.committed ?_ ?_ ?_⟩
      · have hbase : base (following s₁ sender) = base s := ho.frame.base
        rw [hbase]
        exact ho.log.symm ▸ hc
      · exact ho.log.symm ▸ he
      · exact hle.trans ho.frame.commit
  | appended => exact .inr ⟨by simp, fun e he _ => mem_append_left _ he⟩
  | released => cases he

end KuraMetadata.Figure2
