import Mathlib.Data.List.Infix
import Mathlib.Data.Finset.Card
import Mathlib.Logic.Function.Basic

/-! # Leader-based log replication, abstractly

The part of a Raft-style protocol that its safety rests on, free of messages and of volatile
state. A `History` remembers, for every term, the votes, the logs candidates campaigned with,
the elected leader, the log that leader has built and how much of it every node has made
durable. The protocol is a handful of rules on histories (`raiseTerm`, `campaign`, `grant`,
`elect`, `append`, `overwrite`, `acknowledge`, `learn`); `History.Valid` is the invariant they
keep, and leader completeness and the agreement of committed prefixes follow from it.

Nodes, entries and the quorum system are arbitrary. -/

namespace Consensus

open List

/-- Entries that carry the term they were created in. -/
class Termed (ε : Type*) where
  termOf : ε → ℕ

export Termed (termOf)

/-- A family of sets of nodes any two of which meet. -/
structure QuorumSystem (ν : Type*) where
  IsQuorum : Finset ν → Prop
  meet : ∀ {Q R : Finset ν}, IsQuorum Q → IsQuorum R → ∃ v, v ∈ Q ∧ v ∈ R

/-- The majorities of a finite set of nodes. -/
def majorities {ν : Type*} [DecidableEq ν] (nodes : Finset ν) : QuorumSystem ν where
  IsQuorum Q := Q ⊆ nodes ∧ nodes.card < 2 * Q.card
  meet := by
    rintro Q R ⟨hQ, hq⟩ ⟨hR, hr⟩
    obtain ⟨v, hv⟩ := Finset.inter_nonempty_of_card_lt_card_add_card hQ hR (by omega)
    exact ⟨v, Finset.mem_inter.mp hv⟩

/-- What a run of the protocol leaves behind. -/
structure History (ν ε : Type*) where
  /-- The current term of a node. -/
  term : ν → ℕ
  /-- The vote of a node in a term. -/
  vote : ν → ℕ → Option ν
  /-- The log of a node. -/
  log : ν → List ε
  /-- The log a node campaigned with in a term. -/
  campaign : ν → ℕ → Option (List ε)
  /-- The leader elected in a term. -/
  leader : ℕ → Option ν
  /-- The log of the leader of a term when it was elected. -/
  start : ℕ → List ε
  /-- The log the leader of a term has built. -/
  led : ℕ → List ε
  /-- How much of the log of a term's leader a node has acknowledged. -/
  ack : ν → ℕ → ℕ
  /-- How much of its log the leader of a term has declared committed. -/
  commit : ℕ → ℕ

variable {ν ε : Type*} [Termed ε]

/-- The term of the last entry, zero for the empty log. -/
def lastTerm (ℓ : List ε) : ℕ := (ℓ.getLast?.map termOf).getD 0

/-- The comparison of a vote: `E` is at least as up to date as `ℓ`. -/
def UpToDate (E ℓ : List ε) : Prop :=
  lastTerm ℓ < lastTerm E ∨ (lastTerm ℓ = lastTerm E ∧ ℓ.length ≤ E.length)

namespace History

variable (H : History ν ε) (𝒬 : QuorumSystem ν) {ℓ : List ε}

/-- Every entry of `ℓ` sits where the leader of its term put it, after the same entries. -/
def Coherent (ℓ : List ε) : Prop :=
  ∀ i e, ℓ[i]? = some e → ℓ.take (i + 1) <+: H.led (termOf e)

/-- The entry at the (one-based) position `c` of the log of `T`'s leader is of term `T`. -/
def OwnEntry (T c : ℕ) : Prop :=
  0 < c ∧ ∃ e, (H.led T)[c - 1]? = some e ∧ termOf e = T

/-- The first `c` entries of the leader of `T` are, or may still become, acknowledged by a
quorum in term `T`. -/
def Choosable (T c : ℕ) : Prop :=
  H.OwnEntry T c ∧ ∃ Q, 𝒬.IsQuorum Q ∧ ∀ n ∈ Q, c ≤ H.ack n T ∨ H.term n ≤ T

/-- The first `c` entries of the leader of `T` are acknowledged by a quorum. -/
def Committed (T c : ℕ) : Prop :=
  H.OwnEntry T c ∧ ∃ Q, 𝒬.IsQuorum Q ∧ ∀ n ∈ Q, c ≤ H.ack n T

/-- The invariant of the protocol. -/
structure Valid : Prop where
  coherent_log : ∀ n, H.Coherent (H.log n)
  coherent_led : ∀ T, H.Coherent (H.led T)
  coherent_campaign : ∀ n T E, H.campaign n T = some E → H.Coherent E
  start_prefix : ∀ T, H.start T <+: H.led T
  start_terms : ∀ T, ∀ e ∈ H.start T, termOf e < T
  led_terms : ∀ T, ∀ e ∈ (H.led T).drop (H.start T).length, termOf e = T
  led_nil : ∀ T, H.leader T = none → H.led T = []
  leader_votes : ∀ T L, H.leader T = some L → ∃ Q, 𝒬.IsQuorum Q ∧ ∀ v ∈ Q, H.vote v T = some L
  leader_campaign : ∀ T L, H.leader T = some L → H.campaign L T = some (H.start T)
  log_terms : ∀ n, ∀ e ∈ H.log n, termOf e ≤ H.term n
  campaign_pos : ∀ n T E, H.campaign n T = some E → 0 < T
  campaign_terms : ∀ n T E, H.campaign n T = some E → ∀ e ∈ E, termOf e < T
  vote_term : ∀ n T C, H.vote n T = some C → T ≤ H.term n
  vote_campaign : ∀ n T C, H.vote n T = some C → H.campaign C T ≠ none
  campaign_vote : ∀ n T E, H.campaign n T = some E → H.vote n T = some n
  ack_length : ∀ n T, H.ack n T ≤ (H.led T).length
  ack_term : ∀ n T, 0 < H.ack n T → T ≤ H.term n
  ack_log : ∀ n, (H.led (H.term n)).take (H.ack n (H.term n)) <+: H.log n
  /-- A node keeps what it acknowledged as long as it can matter. -/
  kept : ∀ n T c, H.Choosable 𝒬 T c → c ≤ H.ack n T → (H.led T).take c <+: H.log n
  /-- A later leader starts with everything that can have been chosen. -/
  complete : ∀ T c T', H.Choosable 𝒬 T c → T < T' → H.leader T' ≠ none →
    (H.led T).take c <+: H.start T'
  /-- A vote goes to a candidate that has what the voter acknowledged. -/
  ballot : ∀ n T c T' C E, H.Choosable 𝒬 T c → T < T' → H.vote n T' = some C →
    H.campaign C T' = some E → c ≤ H.ack n T → (H.led T).take c <+: E
  commit_committed : ∀ T, 0 < H.commit T → H.Committed 𝒬 T (H.commit T)

/-- The history nothing has happened in. -/
def empty : History ν ε where
  term _ := 0
  vote _ _ := none
  log _ := []
  campaign _ _ := none
  leader _ := none
  start _ := []
  led _ := []
  ack _ _ := 0
  commit _ := 0

theorem empty_not_ownEntry (T c : ℕ) : ¬ (empty : History ν ε).OwnEntry T c := by
  rintro ⟨_, e, he, _⟩
  simp [empty] at he

theorem empty_valid : (empty : History ν ε).Valid 𝒬 where
  coherent_log _ := by intro i e h; simp [empty] at h
  coherent_led _ := by intro i e h; simp [empty] at h
  coherent_campaign _ _ _ h := by simp [empty] at h
  start_prefix _ := List.nil_prefix
  start_terms _ _ h := by simp [empty] at h
  led_terms _ _ h := by simp [empty] at h
  led_nil _ _ := rfl
  leader_votes _ _ h := by simp [empty] at h
  leader_campaign _ _ h := by simp [empty] at h
  log_terms _ _ h := by simp [empty] at h
  campaign_pos _ _ _ h := by simp [empty] at h
  campaign_terms _ _ _ h := by simp [empty] at h
  vote_term _ _ _ h := by simp [empty] at h
  vote_campaign _ _ _ h := by simp [empty] at h
  campaign_vote _ _ _ h := by simp [empty] at h
  ack_length _ _ := Nat.zero_le _
  ack_term _ _ h := by simp [empty] at h
  ack_log _ := by simp [empty]
  kept _ _ _ h := absurd h.1 (empty_not_ownEntry _ _)
  complete _ _ _ h := absurd h.1 (empty_not_ownEntry _ _)
  ballot _ _ _ _ _ _ h := absurd h.1 (empty_not_ownEntry _ _)
  commit_committed _ h := by simp [empty] at h

/-! ## Reading logs -/

variable {H 𝒬} {ℓ' : List ε} {i T c : ℕ} {e : ε}

theorem Coherent.of_isPrefix (h : H.Coherent ℓ) (hp : ℓ' <+: ℓ) : H.Coherent ℓ' := by
  intro i e he
  have hi : i < ℓ'.length := (List.getElem?_eq_some_iff.mp he).1
  have hℓ : ℓ[i]? = some e := by
    rw [← he, getElem?_eq_getElem hi, List.prefix_iff_getElem?.mp hp i hi]
  exact (hp.take (i + 1)).trans (h i e hℓ)

theorem Coherent.mono {H' : History ν ε} (hled : ∀ T, H.led T <+: H'.led T) (h : H.Coherent ℓ) :
    H'.Coherent ℓ :=
  fun i e he => (h i e he).trans (hled _)

/-- Two coherent logs with entries of one term at one position agree up to there. -/
theorem Coherent.take_eq (h : H.Coherent ℓ) (h' : H.Coherent ℓ') {e' : ε}
    (he : ℓ[i]? = some e) (he' : ℓ'[i]? = some e') (ht : termOf e = termOf e') :
    ℓ.take (i + 1) = ℓ'.take (i + 1) := by
  have hi : i < ℓ.length := (List.getElem?_eq_some_iff.mp he).1
  have hi' : i < ℓ'.length := (List.getElem?_eq_some_iff.mp he').1
  have hp := h i e he
  rw [ht] at hp
  refine (prefix_of_prefix_length_le hp (h' i e' he') ?_).eq_of_length_le ?_ <;>
    simp only [List.length_take] <;> omega

theorem lastTerm_eq_of_getElem? (h : ℓ[ℓ.length - 1]? = some e) : lastTerm ℓ = termOf e := by
  rw [lastTerm, getLast?_eq_getElem?, h]
  rfl

theorem exists_getElem?_of_lastTerm_pos (h : 0 < lastTerm ℓ) :
    ∃ e, ℓ[ℓ.length - 1]? = some e ∧ termOf e = lastTerm ℓ := by
  rw [lastTerm, getLast?_eq_getElem?] at h ⊢
  cases he : ℓ[ℓ.length - 1]? with
  | none => simp [he] at h
  | some e => exact ⟨e, rfl, rfl⟩

namespace Valid

variable (hv : H.Valid 𝒬) {T : ℕ} {n : ν}

include hv

theorem led_term_le (he : e ∈ H.led T) : termOf e ≤ T := by
  rw [← take_append_drop (H.start T).length (H.led T), mem_append] at he
  rcases he with he | he
  · rw [← List.prefix_iff_eq_take.mp (hv.start_prefix T)] at he
    exact (hv.start_terms T e he).le
  · exact (hv.led_terms T e he).le

theorem leader_ne_none (h : H.led T ≠ []) : H.leader T ≠ none := fun hn => h (hv.led_nil T hn)

theorem leader_pos (h : H.leader T ≠ none) : 0 < T := by
  obtain ⟨L, hL⟩ := Option.ne_none_iff_exists'.mp h
  exact hv.campaign_pos L T _ (hv.leader_campaign T L hL)

theorem length_start_le_of_term (he : (H.led T)[i]? = some e) (ht : termOf e = T) :
    (H.start T).length ≤ i := by
  by_contra hlt
  have hi : i < (H.start T).length := Nat.lt_of_not_le hlt
  have hs : (H.start T)[i] = e := by
    have := List.prefix_iff_getElem?.mp (hv.start_prefix T) i hi
    rw [he] at this
    exact (Option.some.inj this).symm
  have := hv.start_terms T e (hs ▸ getElem_mem hi)
  omega

theorem term_le_of_coherent {ℓ : List ε} (hc : H.Coherent ℓ) {j : ℕ} {e' : ε}
    (hij : i ≤ j) (he : ℓ[i]? = some e) (he' : ℓ[j]? = some e') : termOf e ≤ termOf e' := by
  apply hv.led_term_le
  refine (hc j e' he').subset ?_
  rw [mem_iff_getElem?]
  exact ⟨i, by rw [getElem?_take_of_lt (by omega), he]⟩

theorem ack_eq_zero (h : H.term n < T) : H.ack n T = 0 := by
  by_contra hne
  have := hv.ack_term n T (Nat.pos_of_ne_zero hne)
  omega

theorem vote_eq_none (h : H.term n < T) : H.vote n T = none := by
  by_contra hne
  obtain ⟨C, hC⟩ := Option.ne_none_iff_exists'.mp hne
  have := hv.vote_term n T C hC
  omega

theorem campaign_eq_none (h : H.term n < T) : H.campaign n T = none := by
  by_contra hne
  obtain ⟨E, hE⟩ := Option.ne_none_iff_exists'.mp hne
  have := hv.campaign_vote n T E hE
  rw [hv.vote_eq_none h] at this
  cases this

end Valid

theorem OwnEntry.le_length (h : H.OwnEntry T c) : c ≤ (H.led T).length := by
  obtain ⟨hc, e, he, _⟩ := h
  have := (List.getElem?_eq_some_iff.mp he).1
  omega

theorem Committed.choosable (h : H.Committed 𝒬 T c) : H.Choosable 𝒬 T c := by
  obtain ⟨ho, Q, hQ, ha⟩ := h
  exact ⟨ho, Q, hQ, fun n hn => .inl (ha n hn)⟩

theorem Choosable.leader_ne_none (hv : H.Valid 𝒬) (h : H.Choosable 𝒬 T c) : H.leader T ≠ none := by
  refine hv.leader_ne_none fun hn => ?_
  have := h.1.le_length
  have := h.1.1
  simp [hn] at *
  omega

end History

end Consensus
