import KuraMetadata.Library.Consensus.Rules
import Mathlib.Data.Nat.Find

/-! # What a history settles

A history only grows (`History.Le`), so a fact that speaks of votes cast, leaders elected,
entries written and acknowledgements given stays true. `Decided ℓ k` says that the first `k`
entries of a log are covered by what some leader declared committed; any two logs agree on
their decided prefixes, and every later leader starts with them. -/

namespace Consensus.History

open List

variable {ν ε : Type*} [Termed ε] {T T' : ℕ}

/-- `H'` is a later history than `H`. -/
structure Le (H H' : History ν ε) : Prop where
  term : ∀ n, H.term n ≤ H'.term n
  vote : ∀ n T C, H.vote n T = some C → H'.vote n T = some C
  vote_past : ∀ n T, T < H.term n → H'.vote n T = H.vote n T
  campaign : ∀ n T E, H.campaign n T = some E → H'.campaign n T = some E
  leader : ∀ T L, H.leader T = some L → H'.leader T = some L
  start : ∀ T, H.leader T ≠ none → H'.start T = H.start T
  led : ∀ T, H.led T <+: H'.led T
  ack : ∀ n T, H.ack n T ≤ H'.ack n T
  commit : ∀ T, H.commit T ≤ H'.commit T

omit [Termed ε] in
theorem Le.refl (H : History ν ε) : H.Le H where
  term _ := le_rfl
  vote _ _ _ h := h
  vote_past _ _ _ := rfl
  campaign _ _ _ h := h
  leader _ _ h := h
  start _ _ := rfl
  led _ := prefix_rfl
  ack _ _ := le_rfl
  commit _ := le_rfl

omit [Termed ε] in
theorem Le.leader_ne_none {H H' : History ν ε} (h : H.Le H') (hL : H.leader T ≠ none) :
    H'.leader T ≠ none := by
  obtain ⟨L, hL⟩ := Option.ne_none_iff_exists'.mp hL
  rw [h.leader T L hL]
  exact Option.some_ne_none L

omit [Termed ε] in
theorem Le.trans {H H' H'' : History ν ε} (h : H.Le H') (h' : H'.Le H'') : H.Le H'' where
  term n := (h.term n).trans (h'.term n)
  vote n T C hC := h'.vote n T C (h.vote n T C hC)
  vote_past n T hT := (h'.vote_past n T (hT.trans_le (h.term n))).trans (h.vote_past n T hT)
  campaign n T E hE := h'.campaign n T E (h.campaign n T E hE)
  leader T L hL := h'.leader T L (h.leader T L hL)
  start T hT := (h'.start T (h.leader_ne_none hT)).trans (h.start T hT)
  led T := (h.led T).trans (h'.led T)
  ack n T := (h.ack n T).trans (h'.ack n T)
  commit T := (h.commit T).trans (h'.commit T)

variable {H H' : History ν ε} {𝒬 : QuorumSystem ν}

/-! ## Every rule leads to a later history -/

section

variable [DecidableEq ν]

omit [Termed ε] in
theorem raiseTerm_le {n : ν} (h : H.term n < T) : H.Le (H.raiseTerm n T) :=
  { Le.refl H with term := term_le_update h }

theorem runFor_le (hv : H.Valid 𝒬) {n : ν} (h : H.term n < T) : H.Le (H.runFor n T) :=
  { Le.refl H with
    term := term_le_update h
    vote := fun _ _ _ => update₂_of_none (hv.vote_eq_none h)
    vote_past := fun m T' hT => by
      simp only [runFor, update₂]
      rw [if_neg]
      rintro ⟨rfl, rfl⟩
      omega
    campaign := fun _ _ _ => update₂_of_none (hv.campaign_eq_none h) }

omit [Termed ε] in
theorem grant_le {n C : ν} (hnone : H.vote n (H.term n) = none) : H.Le (H.grant n C) :=
  { Le.refl H with
    vote := fun _ _ _ => update₂_of_none hnone
    vote_past := fun m T hT => by
      simp only [grant, update₂]
      rw [if_neg]
      rintro ⟨rfl, rfl⟩
      omega }

omit [DecidableEq ν] in
theorem elect_le (hv : H.Valid 𝒬) {C : ν} {E : List ε} (hnone : H.leader T = none) :
    H.Le (H.elect C T E) := by
  have hne : ∀ T', H.leader T' ≠ none → T' ≠ T := by
    rintro T' h rfl
    exact h hnone
  exact { Le.refl H with
    leader := fun T' L hL => by
      have h := hne T' (by rw [hL]; exact Option.some_ne_none L)
      simpa [elect, h] using hL
    start := fun T' hT => by simp [elect, hne T' hT]
    led := fun T' => by
      by_cases h : T' = T
      · subst h
        rw [hv.led_nil T' hnone]
        exact List.nil_prefix
      · simp [elect, h] }

omit [DecidableEq ν] [Termed ε] in
theorem append_le (T : ℕ) (e : ε) : H.Le (H.append T e) :=
  { Le.refl H with
    led := fun T' => by
      by_cases h : T' = T
      · subst h
        simp [append]
      · simp [append, h] }

omit [Termed ε] in
theorem overwrite_le (n : ν) (k : ℕ) : H.Le (H.overwrite n k) :=
  { Le.refl H with }

omit [Termed ε] in
theorem acknowledge_le (n : ν) (k : ℕ) : H.Le (H.acknowledge n k) :=
  { Le.refl H with
    ack := fun m T => by
      simp only [acknowledge, update₂]
      split
      case isTrue h =>
        obtain ⟨rfl, rfl⟩ := h
        exact le_max_left _ _
      case isFalse => exact le_rfl }

omit [DecidableEq ν] [Termed ε] in
theorem learn_le (T c : ℕ) : H.Le (H.learn T c) :=
  { Le.refl H with
    commit := fun T' => by
      by_cases h : T' = T
      · subst h
        simp [learn]
      · simp [learn, h] }

end

/-! ## Decided prefixes -/

/-- The first `k` entries of `ℓ` are declared committed by some leader. -/
def Decided (H : History ν ε) (ℓ : List ε) (k : ℕ) : Prop :=
  ∃ T, k ≤ H.commit T ∧ (H.led T).take k <+: ℓ

section

variable (hv : H.Valid 𝒬) {T k : ℕ} {ℓ : List ε}

include hv

theorem Valid.commit_le_length (T : ℕ) : H.commit T ≤ (H.led T).length := by
  rcases Nat.eq_zero_or_pos (H.commit T) with h | h
  · omega
  · exact (hv.commit_committed T h).1.le_length

/-- **Leader completeness.** A leader starts with everything a leader of an earlier term
declared committed. -/
theorem Valid.commit_prefix_start (hlt : T < T') (hL : H.leader T' ≠ none) :
    (H.led T).take (H.commit T) <+: H.start T' := by
  rcases Nat.eq_zero_or_pos (H.commit T) with h | h
  · simp [h]
  · exact hv.complete T _ T' (hv.commit_committed T h).choosable hlt hL

theorem Valid.leader_of_commit (h : 0 < H.commit T) : H.leader T ≠ none :=
  (hv.commit_committed T h).choosable.leader_ne_none hv

/-- **Agreement.** Two leaders agree on what both have declared committed. -/
theorem Valid.take_commit_eq (hk : k ≤ H.commit T) (hk' : k ≤ H.commit T') :
    (H.led T).take k = (H.led T').take k := by
  rcases Nat.eq_zero_or_pos k with rfl | hpos
  · simp
  · -- Of two terms the later leader starts with the earlier one's committed entries.
    have key : ∀ {T T' : ℕ}, T < T' → k ≤ H.commit T → k ≤ H.commit T' →
        (H.led T).take k = (H.led T').take k := by
      intro T T' hlt hk hk'
      have hL := hv.leader_of_commit (hpos.trans_le hk')
      have hp : (H.led T).take k <+: H.led T' :=
        ((take_prefix_take_left hk).trans (hv.commit_prefix_start hlt hL)).trans
          (hv.start_prefix T')
      have hlen : ((H.led T).take k).length = k := by
        rw [List.length_take, min_eq_left (hk.trans (hv.commit_le_length T))]
      have := List.prefix_iff_eq_take.mp hp
      rwa [hlen] at this
    rcases Nat.lt_trichotomy T T' with h | rfl | h
    · exact key h hk hk'
    · rfl
    · exact (key h hk' hk).symm

omit [Termed ε] hv in
theorem Decided.of_le {j : ℕ} (h : H.Decided ℓ k) (hj : j ≤ k) : H.Decided ℓ j := by
  obtain ⟨T, hk, hp⟩ := h
  exact ⟨T, hj.trans hk, (take_prefix_take_left hj).trans hp⟩

theorem Decided.le_length (h : H.Decided ℓ k) : k ≤ ℓ.length := by
  obtain ⟨T, hk, hp⟩ := h
  have := hp.length_le
  rwa [List.length_take, min_eq_left (hk.trans (hv.commit_le_length T))] at this

/-- A decided prefix is the prefix of any log whose leader declared as much committed. -/
theorem Decided.take_eq (h : H.Decided ℓ k) (hk : k ≤ H.commit T) :
    ℓ.take k = (H.led T).take k := by
  obtain ⟨T', hk', hp⟩ := id h
  rw [hv.take_commit_eq hk hk']
  have hlen : ((H.led T').take k).length = k := by
    rw [List.length_take, min_eq_left (hk'.trans (hv.commit_le_length T'))]
  have := List.prefix_iff_eq_take.mp hp
  rw [hlen] at this
  exact this.symm

theorem Decided.agree {ℓ' : List ε} (h : H.Decided ℓ k) (h' : H.Decided ℓ' k) :
    ℓ.take k = ℓ'.take k := by
  obtain ⟨T, hk, _⟩ := id h
  rw [Decided.take_eq hv h hk, Decided.take_eq hv h' hk]

theorem Decided.mono (hle : H.Le H') (h : H.Decided ℓ k) : H'.Decided ℓ k := by
  obtain ⟨T, hk, hp⟩ := h
  refine ⟨T, hk.trans (hle.commit T), ?_⟩
  have hlen : k ≤ (H.led T).length := hk.trans (hv.commit_le_length T)
  obtain ⟨t, ht⟩ := hle.led T
  rw [← ht, take_append_of_le_length hlen]
  exact hp

end

/-! ## Candidates that cannot win -/

/-- A quorum has refused, or can no longer grant, its vote for `n` in term `T`. -/
def Unelectable (H : History ν ε) (𝒬 : QuorumSystem ν) (n : ν) (T : ℕ) : Prop :=
  ∃ Q, 𝒬.IsQuorum Q ∧ ∀ v ∈ Q, H.vote v T ≠ some n ∧ (T < H.term v ∨ H.vote v T ≠ none)

omit [Termed ε] in
theorem Unelectable.mono {n : ν} (hle : H.Le H') (h : H.Unelectable 𝒬 n T) :
    H'.Unelectable 𝒬 n T := by
  obtain ⟨Q, hQ, hvotes⟩ := h
  refine ⟨Q, hQ, fun v hv => ?_⟩
  obtain ⟨hne, hpast | hsome⟩ := hvotes v hv
  · rw [hle.vote_past v T hpast]
    exact ⟨hne, .inl (hpast.trans_le (hle.term v))⟩
  · obtain ⟨C, hC⟩ := Option.ne_none_iff_exists'.mp hsome
    rw [hle.vote v T C hC, ← hC]
    exact ⟨hne, .inr hsome⟩

omit [Termed ε] in
theorem Unelectable.not_elected {n : ν} (h : H.Unelectable 𝒬 n T) {Q : Finset ν}
    (hQ : 𝒬.IsQuorum Q) : ¬ ∀ v ∈ Q, H.vote v T = some n := by
  intro hvotes
  obtain ⟨R, hR, hrefused⟩ := h
  obtain ⟨v, hvQ, hvR⟩ := 𝒬.meet hQ hR
  exact (hrefused v hvR).1 (hvotes v hvQ)

/-- A node that campaigns in a term that already has a later, or its own, committed entry
cannot be elected in it. -/
theorem Valid.unelectable_runFor [DecidableEq ν] (hv : H.Valid 𝒬) {n : ν}
    (hn : H.term n < T') (hle : T' ≤ T) (hc : 0 < H.commit T) :
    (H.runFor n T').Unelectable 𝒬 n T' := by
  have hvote : ∀ v, v ≠ n → (H.runFor n T').vote v T' = H.vote v T' := by
    intro v hne
    simp only [runFor, update₂]
    rw [if_neg (fun h => hne h.1)]
  have hterm : ∀ v, H.term v ≤ (H.runFor n T').term v := term_le_update hn
  have hnot : ∀ v, H.vote v T' ≠ some n := fun v h =>
    hv.vote_campaign v T' n h (hv.campaign_eq_none hn)
  rcases Nat.lt_or_eq_of_le hle with hlt | rfl
  · -- The quorum that acknowledged the entry has left the term.
    obtain ⟨⟨hpos, _⟩, Q, hQ, hacks⟩ := hv.commit_committed T hc
    refine ⟨Q, hQ, fun v hvQ => ?_⟩
    have hTv : T ≤ H.term v := hv.ack_term v T (lt_of_lt_of_le hpos (hacks v hvQ))
    have hne : v ≠ n := by
      rintro rfl
      omega
    rw [hvote v hne]
    exact ⟨hnot v, .inl (by have := hterm v; omega)⟩
  · -- The term has a leader, elected by votes that are not for `n`.
    obtain ⟨L, hL⟩ := Option.ne_none_iff_exists'.mp (hv.leader_of_commit hc)
    obtain ⟨Q, hQ, hvotes⟩ := hv.leader_votes T' L hL
    refine ⟨Q, hQ, fun v hvQ => ?_⟩
    have hne : v ≠ n := by
      rintro rfl
      have := hv.vote_term v T' L (hvotes v hvQ)
      omega
    rw [hvote v hne]
    exact ⟨hnot v, .inr (by rw [hvotes v hvQ]; exact Option.some_ne_none L)⟩

/-! ## What a rule leaves alone

Every rule acts for one node. `History.Local n` says what a rule of `n` leaves alone at the
other nodes; a fact about another node that only speaks of these parts of the history, or of
parts that only grow, survives the rule.

`DecidedBy T` is the form of `Decided` in which the deciding leader is of a term at most `T`,
and `settle` acknowledges everything a node can acknowledge. -/

section

variable {ν ε : Type*} {H H' : History ν ε}

/-- `H'` comes from `H` by rules of the node `n`. -/
structure Local (n : ν) (H H' : History ν ε) : Prop extends Le H H' where
  term_of_ne : ∀ m, m ≠ n → H'.term m = H.term m
  vote_of_ne : ∀ m T, m ≠ n → H'.vote m T = H.vote m T
  log_of_ne : ∀ m, m ≠ n → H'.log m = H.log m
  leader_of_ne : ∀ m T, m ≠ n → H'.leader T = some m → H.leader T = some m
  led_of_ne : ∀ m T, m ≠ n → H.leader T = some m → H'.led T = H.led T
  commit_of_ne : ∀ m T, m ≠ n → H.leader T = some m → H'.commit T = H.commit T

theorem Local.refl (n : ν) (H : History ν ε) : Local n H H :=
  { Le.refl H with
    term_of_ne := fun _ _ => rfl
    vote_of_ne := fun _ _ _ => rfl
    log_of_ne := fun _ _ => rfl
    leader_of_ne := fun _ _ _ h => h
    led_of_ne := fun _ _ _ _ => rfl
    commit_of_ne := fun _ _ _ _ => rfl }

theorem Local.trans {n : ν} {H'' : History ν ε} (h : Local n H H') (h' : Local n H' H'') :
    Local n H H'' :=
  { h.toLe.trans h'.toLe with
    term_of_ne := fun m hm => (h'.term_of_ne m hm).trans (h.term_of_ne m hm)
    vote_of_ne := fun m T hm => (h'.vote_of_ne m T hm).trans (h.vote_of_ne m T hm)
    log_of_ne := fun m hm => (h'.log_of_ne m hm).trans (h.log_of_ne m hm)
    leader_of_ne := fun m T hm hL => h.leader_of_ne m T hm (h'.leader_of_ne m T hm hL)
    led_of_ne := fun m T hm hL =>
      (h'.led_of_ne m T hm (h.leader T m hL)).trans (h.led_of_ne m T hm hL)
    commit_of_ne := fun m T hm hL =>
      (h'.commit_of_ne m T hm (h.leader T m hL)).trans (h.commit_of_ne m T hm hL) }

/-- `H'` is a later history that the node `n` cannot tell from `H` by what it has on disk or
does as a leader. -/
structure SameFor (n : ν) (H H' : History ν ε) : Prop extends Le H H' where
  term_eq : H'.term n = H.term n
  vote_eq : ∀ T, H'.vote n T = H.vote n T
  log_eq : H'.log n = H.log n
  leader_eq : ∀ T, H'.leader T = some n → H.leader T = some n
  led_eq : ∀ T, H.leader T = some n → H'.led T = H.led T
  commit_eq : ∀ T, H.leader T = some n → H'.commit T = H.commit T

theorem Local.sameFor {n m : ν} (h : Local m H H') (hne : n ≠ m) : SameFor n H H' :=
  { h.toLe with
    term_eq := h.term_of_ne n hne
    vote_eq := fun T => h.vote_of_ne n T hne
    log_eq := h.log_of_ne n hne
    leader_eq := fun T => h.leader_of_ne n T hne
    led_eq := fun T => h.led_of_ne n T hne
    commit_eq := fun T => h.commit_of_ne n T hne }

/-- The rules between `H` and `H'` concern elections, logs of leaders and acknowledgements
only: what the nodes have on disk is as before. -/
structure Steady (H H' : History ν ε) : Prop where
  term : H'.term = H.term
  vote : H'.vote = H.vote
  log : H'.log = H.log
  campaign : H'.campaign = H.campaign

theorem Steady.refl (H : History ν ε) : Steady H H := ⟨rfl, rfl, rfl, rfl⟩

theorem Steady.trans {H'' : History ν ε} (h : Steady H H') (h' : Steady H' H'') : Steady H H'' :=
  ⟨h'.term.trans h.term, h'.vote.trans h.vote, h'.log.trans h.log, h'.campaign.trans h.campaign⟩

section

variable [Termed ε] {H H' : History ν ε} {𝒬 : QuorumSystem ν} {T k : ℕ} {ℓ : List ε}

/-! ## The rules -/

section

variable [DecidableEq ν] {n : ν}

omit [Termed ε] in
theorem raiseTerm_local (h : H.term n < T) : Local n H (H.raiseTerm n T) :=
  { Local.refl n H with
    toLe := raiseTerm_le h
    term_of_ne := fun _ hm => Function.update_of_ne hm _ _ }

theorem runFor_local (hv : H.Valid 𝒬) (h : H.term n < T) : Local n H (H.runFor n T) :=
  { Local.refl n H with
    toLe := runFor_le hv h
    term_of_ne := fun m hm => Function.update_of_ne hm _ _
    vote_of_ne := fun m T' hm => by
      simp only [runFor, update₂]
      rw [if_neg (fun h => hm h.1)] }

omit [Termed ε] in
theorem grant_local {C : ν} (hnone : H.vote n (H.term n) = none) : Local n H (H.grant n C) :=
  { Local.refl n H with
    toLe := grant_le hnone
    vote_of_ne := fun m T' hm => by
      simp only [grant, update₂]
      rw [if_neg (fun h => hm h.1)] }

omit [DecidableEq ν] in
theorem elect_local (hv : H.Valid 𝒬) {E : List ε} (hnone : H.leader T = none) :
    Local n H (H.elect n T E) := by
  have hne : ∀ m T', H.leader T' = some m → T' ≠ T := by
    rintro m T' h rfl
    rw [hnone] at h
    cases h
  exact { Local.refl n H with
    toLe := elect_le hv hnone
    leader_of_ne := fun m T' hm hL => by
      by_cases h : T' = T
      · subst h
        simp only [elect, Function.update_self, Option.some.injEq] at hL
        exact absurd hL.symm hm
      · simpa [elect, h] using hL
    led_of_ne := fun m T' _ hL => Function.update_of_ne (hne m T' hL) _ _ }

omit [DecidableEq ν] [Termed ε] in
theorem append_local (e : ε) (hL : H.leader T = some n) : Local n H (H.append T e) :=
  { Local.refl n H with
    toLe := append_le T e
    led_of_ne := fun m T' hm hL' => by
      refine Function.update_of_ne ?_ _ _
      rintro rfl
      rw [hL] at hL'
      exact hm (Option.some.inj hL').symm }

omit [Termed ε] in
theorem overwrite_local (n : ν) (k : ℕ) : Local n H (H.overwrite n k) :=
  { Local.refl n H with
    toLe := overwrite_le n k
    log_of_ne := fun _ hm => Function.update_of_ne hm _ _ }

omit [Termed ε] in
theorem acknowledge_local (n : ν) (k : ℕ) : Local n H (H.acknowledge n k) :=
  { Local.refl n H with toLe := acknowledge_le n k }

omit [DecidableEq ν] [Termed ε] in
theorem learn_local (c : ℕ) (hL : H.leader T = some n) : Local n H (H.learn T c) :=
  { Local.refl n H with
    toLe := learn_le T c
    commit_of_ne := fun m T' hm hL' => by
      refine Function.update_of_ne ?_ _ _
      rintro rfl
      rw [hL] at hL'
      exact hm (Option.some.inj hL').symm }

/-! ## Acknowledging everything -/

/-- A node acknowledges as much of its term's leader's log as its own log holds. -/
noncomputable def settle (H : History ν ε) (n : ν) : History ν ε :=
  open Classical in
  H.acknowledge n (Nat.findGreatest (fun k => (H.led (H.term n)).take k <+: H.log n)
    (H.led (H.term n)).length)

theorem settle_valid (hv : H.Valid 𝒬) (n : ν) : (H.settle n).Valid 𝒬 := by
  classical
  refine acknowledge_valid hv (Nat.findGreatest_le _) ?_
  exact Nat.findGreatest_spec (P := fun k => (H.led (H.term n)).take k <+: H.log n)
    (Nat.zero_le _) (by simp)

omit [Termed ε] in
theorem settle_local (n : ν) : Local n H (H.settle n) := acknowledge_local n _

omit [Termed ε] in
theorem settle_sameFor (n m : ν) : SameFor m H (H.settle n) :=
  { acknowledge_le n _ with
    term_eq := rfl
    vote_eq := fun _ => rfl
    log_eq := rfl
    leader_eq := fun _ h => h
    led_eq := fun _ _ => rfl
    commit_eq := fun _ _ => rfl }

omit [Termed ε] in
theorem le_ack_settle {k : ℕ} (hk : k ≤ (H.led (H.term n)).length)
    (hp : (H.led (H.term n)).take k <+: H.log n) : k ≤ (H.settle n).ack n (H.term n) := by
  classical
  simp only [settle, acknowledge, update₂, and_self, if_true]
  exact le_max_of_le_right (Nat.le_findGreatest hk hp)

end

/-! ## Decided by a term -/

/-- The first `k` entries of `ℓ` are declared committed by a leader of a term at most `T`. -/
def DecidedBy (H : History ν ε) (T : ℕ) (ℓ : List ε) (k : ℕ) : Prop :=
  ∃ T₀, T₀ ≤ T ∧ k ≤ H.commit T₀ ∧ (H.led T₀).take k <+: ℓ

omit [Termed ε] in
theorem DecidedBy.decided (h : H.DecidedBy T ℓ k) : H.Decided ℓ k := by
  obtain ⟨T₀, _, hk, hp⟩ := h
  exact ⟨T₀, hk, hp⟩

omit [Termed ε] in
theorem DecidedBy.of_le {j : ℕ} (h : H.DecidedBy T ℓ k) (hT : T ≤ T') (hj : j ≤ k) :
    H.DecidedBy T' ℓ j := by
  obtain ⟨T₀, hT₀, hk, hp⟩ := h
  exact ⟨T₀, hT₀.trans hT, hj.trans hk, (take_prefix_take_left hj).trans hp⟩

omit [Termed ε] in
theorem DecidedBy.of_isPrefix {ℓ' : List ε} (h : H.DecidedBy T ℓ k) (hp : ℓ <+: ℓ') :
    H.DecidedBy T ℓ' k := by
  obtain ⟨T₀, hT₀, hk, hT⟩ := h
  exact ⟨T₀, hT₀, hk, hT.trans hp⟩

variable (hv : H.Valid 𝒬)
include hv

theorem DecidedBy.of_take_eq {ℓ' : List ε} (h : H.DecidedBy T ℓ k)
    (he : ℓ'.take k = ℓ.take k) : H.DecidedBy T ℓ' k := by
  obtain ⟨T₀, hT₀, hk, _⟩ := id h
  refine ⟨T₀, hT₀, hk, ?_⟩
  rw [← Decided.take_eq hv h.decided hk, ← he]
  exact List.take_prefix _ _

theorem DecidedBy.mono (hle : H.Le H') (h : H.DecidedBy T ℓ k) :
    H'.DecidedBy T ℓ k := by
  obtain ⟨T₀, hT₀, hk, hp⟩ := h
  refine ⟨T₀, hT₀, hk.trans (hle.commit T₀), ?_⟩
  have hlen : k ≤ (H.led T₀).length := hk.trans (hv.commit_le_length T₀)
  obtain ⟨t, ht⟩ := hle.led T₀
  rw [← ht, take_append_of_le_length hlen]
  exact hp

/-- **Leader completeness**, for a log whose prefix is decided. -/
theorem DecidedBy.prefix_start (h : H.DecidedBy T ℓ k) (hlt : T < T')
    (hL : H.leader T' ≠ none) :
    ℓ.take k <+: H.start T' := by
  obtain ⟨T₀, hT₀, hk, _⟩ := id h
  rw [Decided.take_eq hv h.decided hk]
  exact (take_prefix_take_left hk).trans (hv.commit_prefix_start (hT₀.trans_lt hlt) hL)

theorem Decided.getElem? {i : ℕ} {e : ε} (h : H.Decided ℓ k) (hi : i < k) (he : ℓ[i]? = some e) :
    ∃ T, k ≤ H.commit T ∧ (H.led T)[i]? = some e := by
  obtain ⟨T, hk, _⟩ := id h
  refine ⟨T, hk, ?_⟩
  have := Decided.take_eq hv h hk
  rw [← getElem?_take_of_lt hi, ← this, getElem?_take_of_lt hi, he]

theorem Valid.getElem?_commit {T' i : ℕ} {e e' : ε} (hi : i < H.commit T)
    (hi' : i < H.commit T') (he : (H.led T)[i]? = some e) (he' : (H.led T')[i]? = some e') :
    e = e' := by
  have := hv.take_commit_eq (k := i + 1) hi hi'
  have hget : ((H.led T).take (i + 1))[i]? = ((H.led T').take (i + 1))[i]? := by rw [this]
  rw [getElem?_take_of_lt (Nat.lt_succ_self i), getElem?_take_of_lt (Nat.lt_succ_self i),
    he, he'] at hget
  exact Option.some.inj hget

end

end

end Consensus.History
