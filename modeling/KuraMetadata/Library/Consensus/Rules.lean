import KuraMetadata.Library.Consensus.History

/-! # The rules of log replication

Each rule of the protocol as a function on histories, and the theorem that it keeps
`History.Valid` under its guard. The two rules with an argument in them are `grant`, where the
up-to-date comparison hands a choosable prefix from the voter to the candidate
(`prefix_of_upToDate`), and `elect`, where a quorum of votes meets the quorum of a choosable
prefix. -/

namespace Consensus.History

open List
open Function (forall_update_iff update update_of_ne update_self)

variable {ν ε : Type*} [Termed ε] {H : History ν ε} {𝒬 : QuorumSystem ν}

/-! ## The rules -/

variable [DecidableEq ν]

/-- Set a two-argument function at one point. -/
def update₂ {α β γ : Type*} [DecidableEq α] [DecidableEq β] (f : α → β → γ) (a : α) (b : β)
    (c : γ) : α → β → γ :=
  fun a' b' => if a' = a ∧ b' = b then c else f a' b'

section

variable {α β γ : Type*} [DecidableEq α] [DecidableEq β] {f : α → β → Option γ} {a a' : α}
  {b b' : β} {x y : γ}

theorem update₂_eq_some (h : update₂ f a b (some y) a' b' = some x) :
    (a' = a ∧ b' = b ∧ x = y) ∨ f a' b' = some x := by
  unfold update₂ at h
  split at h
  case isTrue hc => exact .inl ⟨hc.1, hc.2, (Option.some.inj h).symm⟩
  case isFalse => exact .inr h

theorem update₂_of_none (hnone : f a b = none) (h : f a' b' = some x) :
    update₂ f a b (some y) a' b' = some x := by
  unfold update₂
  rw [if_neg]
  · exact h
  · rintro ⟨rfl, rfl⟩
    rw [hnone] at h
    cases h

end

omit [Termed ε] in
theorem term_le_update {n : ν} {T : ℕ} (h : H.term n < T) (m : ν) :
    H.term m ≤ update H.term n T m := by
  by_cases hm : m = n
  · subst hm; simp [h.le]
  · simp [hm]

/-- A node learns of a later term. -/
def raiseTerm (H : History ν ε) (n : ν) (T : ℕ) : History ν ε :=
  { H with term := Function.update H.term n T }

/-- A node enters a term as a candidate and votes for itself. -/
def runFor (H : History ν ε) (n : ν) (T : ℕ) : History ν ε :=
  { H with
    term := Function.update H.term n T
    vote := update₂ H.vote n T (some n)
    campaign := update₂ H.campaign n T (some (H.log n)) }

/-- A node votes for a candidate of its term. -/
def grant (H : History ν ε) (n C : ν) : History ν ε :=
  { H with vote := update₂ H.vote n (H.term n) (some C) }

/-- A candidate with a quorum of votes becomes the leader of its term. -/
def elect (H : History ν ε) (C : ν) (T : ℕ) (E : List ε) : History ν ε :=
  { H with
    leader := Function.update H.leader T (some C)
    start := Function.update H.start T E
    led := Function.update H.led T E }

/-- A leader appends an entry. -/
def append (H : History ν ε) (T : ℕ) (e : ε) : History ν ε :=
  { H with led := Function.update H.led T (H.led T ++ [e]) }

/-- A node replaces its log by the first `k` entries of the leader of its term. -/
def overwrite (H : History ν ε) (n : ν) (k : ℕ) : History ν ε :=
  { H with log := Function.update H.log n ((H.led (H.term n)).take k) }

/-- A node acknowledges the first `k` entries of the leader of its term. -/
def acknowledge (H : History ν ε) (n : ν) (k : ℕ) : History ν ε :=
  { H with ack := update₂ H.ack n (H.term n) (max (H.ack n (H.term n)) k) }

/-- A leader declares its first `c` entries committed. -/
def learn (H : History ν ε) (T c : ℕ) : History ν ε :=
  { H with commit := Function.update H.commit T (max (H.commit T) c) }

/-! ## The rules keep the invariant -/

section

variable (hv : H.Valid 𝒬) {n : ν} {T : ℕ} {E : List ε}

include hv

theorem ack_log_update (h : H.term n < T) (m : ν) :
    (H.led (update H.term n T m)).take (H.ack m (update H.term n T m))
      <+: H.log m := by
  by_cases hm : m = n
  · subst hm
    simp [hv.ack_eq_zero h]
  · simpa [hm] using hv.ack_log m

theorem raiseTerm_valid (h : H.term n < T) : (H.raiseTerm n T).Valid 𝒬 := by
  have hle := term_le_update h
  have hch : ∀ T' c, (H.raiseTerm n T).Choosable 𝒬 T' c → H.Choosable 𝒬 T' c :=
    fun T' c ⟨ho, Q, hQ, ha⟩ =>
      ⟨ho, Q, hQ, fun m hm => (ha m hm).imp_right fun h => (hle m).trans h⟩
  exact { hv with
    log_terms := fun m e he => (hv.log_terms m e he).trans (hle m)
    vote_term := fun m T' C hC => (hv.vote_term m T' C hC).trans (hle m)
    ack_term := fun m T' hm => (hv.ack_term m T' hm).trans (hle m)
    ack_log := ack_log_update hv h
    kept := fun m T' c hc => hv.kept m T' c (hch _ _ hc)
    complete := fun T' c T'' hc => hv.complete T' c T'' (hch _ _ hc)
    ballot := fun m T' c T'' C E hc => hv.ballot m T' c T'' C E (hch _ _ hc) }

theorem runFor_valid (h : H.term n < T) : (H.runFor n T).Valid 𝒬 := by
  have hr := raiseTerm_valid hv h
  have hnone : H.campaign n T = none := hv.campaign_eq_none h
  have hkeep : ∀ {m T' E}, H.campaign m T' = some E → (H.runFor n T).campaign m T' = some E :=
    update₂_of_none hnone
  have hvkeep : ∀ {m T' C}, H.vote m T' = some C → (H.runFor n T).vote m T' = some C :=
    update₂_of_none (hv.vote_eq_none h)
  have hself : (H.runFor n T).campaign n T = some (H.log n) := by simp [runFor, update₂]
  exact { hr with
    coherent_campaign := fun m T' E hE => by
      rcases update₂_eq_some hE with ⟨rfl, rfl, rfl⟩ | hE
      · exact hv.coherent_log m
      · exact hv.coherent_campaign m T' E hE
    leader_votes := fun T' L hL => by
      obtain ⟨Q, hQ, hvotes⟩ := hv.leader_votes T' L hL
      exact ⟨Q, hQ, fun v hm => hvkeep (hvotes v hm)⟩
    leader_campaign := fun T' L hL => hkeep (hv.leader_campaign T' L hL)
    campaign_pos := fun m T' E hE => by
      rcases update₂_eq_some hE with ⟨rfl, rfl, rfl⟩ | hE
      · omega
      · exact hv.campaign_pos m T' E hE
    campaign_terms := fun m T' E hE e he => by
      rcases update₂_eq_some hE with ⟨rfl, rfl, rfl⟩ | hE
      · exact (hv.log_terms m e he).trans_lt h
      · exact hv.campaign_terms m T' E hE e he
    vote_term := fun m T' C hC => by
      rcases update₂_eq_some hC with ⟨rfl, rfl, rfl⟩ | hC
      · simp [runFor]
      · exact hr.vote_term m T' C hC
    vote_campaign := fun m T' C hC => by
      rcases update₂_eq_some hC with ⟨rfl, rfl, rfl⟩ | hC
      · rw [hself]
        exact Option.some_ne_none _
      · obtain ⟨E, hE⟩ := Option.ne_none_iff_exists'.mp (hv.vote_campaign m T' C hC)
        rw [hkeep hE]
        exact Option.some_ne_none _
    campaign_vote := fun m T' E hE => by
      rcases update₂_eq_some hE with ⟨rfl, rfl, rfl⟩ | hE
      · simp [runFor, update₂]
      · exact hvkeep (hv.campaign_vote m T' E hE)
    ballot := fun m T' c T'' C E hc hlt hC hE hack => by
      rcases update₂_eq_some hC with ⟨rfl, rfl, rfl⟩ | hC'
      · -- The candidate's own vote: what it acknowledged is in the log it campaigns with.
        rw [hself] at hE
        rw [← Option.some.inj hE]
        exact hr.kept _ T' c hc hack
      · rcases update₂_eq_some hE with ⟨rfl, rfl, rfl⟩ | hE'
        · exact absurd hnone (hv.vote_campaign _ _ _ hC')
        · exact hr.ballot m T' c T'' C E hc hlt hC' hE' hack }

omit [DecidableEq ν] in
/-- The heart of a vote: a candidate that is at least as up to date as a log holding a
choosable prefix holds that prefix, too. -/
theorem prefix_of_upToDate {ℓ : List ε} {c : ℕ} (hℓ : H.Coherent ℓ) (hE : H.Coherent E)
    (hup : UpToDate E ℓ) (hc : H.Choosable 𝒬 T c) (hp : (H.led T).take c <+: ℓ) :
    (H.led T).take c <+: E := by
  obtain ⟨⟨hpos, e, he, het⟩, _⟩ := id hc
  have hcl := hc.1.le_length
  have hT : 0 < T := hv.leader_pos (hc.leader_ne_none hv)
  have hlen : c ≤ ℓ.length := by
    have := hp.length_le
    rwa [length_take, min_eq_left hcl] at this
  have heℓ : ℓ[c - 1]? = some e := by
    have hi : c - 1 < ((H.led T).take c).length := by rw [length_take]; omega
    rw [prefix_iff_getElem?.mp hp _ hi, getElem_take, ← he, List.getElem?_eq_getElem]
  -- The last term of the voter's log is at least `T`, and so is the candidate's.
  have hlastℓ : T ≤ lastTerm ℓ := by
    obtain ⟨e', he'⟩ : ∃ e', ℓ[ℓ.length - 1]? = some e' := ⟨_, List.getElem?_eq_getElem (by omega)⟩
    rw [lastTerm_eq_of_getElem? he', ← het]
    exact hv.term_le_of_coherent hℓ (by omega) heℓ he'
  have hlastE : lastTerm ℓ ≤ lastTerm E := by rcases hup with h | h <;> omega
  obtain ⟨u, hu, hut⟩ := exists_getElem?_of_lastTerm_pos (ℓ := E) (by omega)
  have hEpos : 0 < E.length := by
    have := (List.getElem?_eq_some_iff.mp hu).1
    omega
  have hEled : E <+: H.led (lastTerm E) := by
    have := hE _ u hu
    rwa [Nat.sub_add_cancel hEpos, take_length, hut] at this
  rcases Nat.lt_or_eq_of_le (hlastℓ.trans hlastE) with hlt | heq
  · -- A later leader wrote the candidate's last entry, after everything choosable.
    have hne : H.leader (lastTerm E) ≠ none := by
      refine hv.leader_ne_none fun hn => ?_
      rw [hn, prefix_nil] at hEled
      simp [hEled] at hEpos
    have hstart := hv.complete T c _ hc hlt hne
    refine prefix_of_prefix_length_le (hstart.trans (hv.start_prefix _)) hEled ?_
    have hule : (H.start (lastTerm E)).length ≤ E.length - 1 := by
      have hi : E.length - 1 < E.length := by omega
      refine hv.length_start_le_of_term ?_ hut
      rw [prefix_iff_getElem?.mp hEled _ hi, ← hu, List.getElem?_eq_getElem hi]
    exact hstart.length_le.trans (by omega)
  · -- Both logs end in term `T`, and the candidate's is the longer one.
    have hEl : ℓ.length ≤ E.length := by rcases hup with h | h <;> omega
    rw [← heq] at hEled
    refine prefix_of_prefix_length_le (List.take_prefix _ _) hEled ?_
    rw [length_take]
    omega

theorem grant_valid {C : ν} (hnone : H.vote n (H.term n) = none)
    (hE : H.campaign C (H.term n) = some E) (hup : UpToDate E (H.log n)) :
    (H.grant n C).Valid 𝒬 :=
  { hv with
    leader_votes := fun T L hL => by
      obtain ⟨Q, hQ, hvotes⟩ := hv.leader_votes T L hL
      exact ⟨Q, hQ, fun v hm => update₂_of_none hnone (hvotes v hm)⟩
    vote_term := fun m T C' hC => by
      rcases update₂_eq_some hC with ⟨rfl, rfl, rfl⟩ | hC
      · exact le_rfl
      · exact hv.vote_term m T C' hC
    vote_campaign := fun m T C' hC => by
      rcases update₂_eq_some hC with ⟨rfl, rfl, rfl⟩ | hC
      · exact Option.ne_none_iff_exists'.mpr ⟨E, hE⟩
      · exact hv.vote_campaign m T C' hC
    campaign_vote := fun m T E' hE' => update₂_of_none hnone (hv.campaign_vote m T E' hE')
    ballot := fun m T c T' C' E' hc hlt hC hE' hack => by
      rcases update₂_eq_some hC with ⟨rfl, rfl, rfl⟩ | hC
      · obtain rfl : E = E' := Option.some.inj (hE.symm.trans hE')
        exact prefix_of_upToDate hv (hv.coherent_log m) (hv.coherent_campaign _ _ _ hE) hup hc
          (hv.kept m T c hc hack)
      · exact hv.ballot m T c T' C' E' hc hlt hC hE' hack }

omit [DecidableEq ν] in
theorem elect_valid {C : ν} {Q : Finset ν} (hnone : H.leader T = none) (hQ : 𝒬.IsQuorum Q)
    (hvotes : ∀ v ∈ Q, H.vote v T = some C) (hE : H.campaign C T = some E) :
    (H.elect C T E).Valid 𝒬 := by
  have hnil : H.led T = [] := hv.led_nil T hnone
  have hled : ∀ T', T' ≠ T → (H.elect C T E).led T' = H.led T' :=
    fun T' h => update_of_ne h _ _
  have hledT : (H.elect C T E).led T = E := update_self ..
  have hmono : ∀ T', H.led T' <+: (H.elect C T E).led T' := by
    intro T'
    by_cases h : T' = T
    · subst h
      rw [hnil]
      exact nil_prefix
    · rw [hled T' h]
  have hstart : ∀ T', T' ≠ T → (H.elect C T E).start T' = H.start T' :=
    fun T' h => update_of_ne h _ _
  have hstartT : (H.elect C T E).start T = E := update_self ..
  have hack : ∀ n, H.ack n T = 0 := by
    intro n
    have := hv.ack_length n T
    simpa [hnil] using this
  -- The new leader has no entry of its own yet.
  have hch : ∀ T' c, (H.elect C T E).Choosable 𝒬 T' c → T' ≠ T ∧ H.Choosable 𝒬 T' c := by
    rintro T' c ⟨⟨hpos, e, he, het⟩, hq⟩
    have hne : T' ≠ T := by
      rintro rfl
      rw [hledT] at he
      have := hv.campaign_terms C T' E hE e (mem_of_getElem? he)
      omega
    rw [hled T' hne] at he
    exact ⟨hne, ⟨hpos, e, he, het⟩, hq⟩
  have hcomplete : ∀ T' c, H.Choosable 𝒬 T' c → T' < T → (H.led T').take c <+: E := by
    rintro T' c hc hlt
    obtain ⟨_, R, hR, hacks⟩ := id hc
    obtain ⟨v, hvQ, hvR⟩ := 𝒬.meet hQ hR
    have hterm := hv.vote_term v T C (hvotes v hvQ)
    rcases hacks v hvR with h | h
    · exact hv.ballot v T' c T C E hc hlt (hvotes v hvQ) hE h
    · omega
  exact { hv with
    coherent_log := fun n => (hv.coherent_log n).mono hmono
    coherent_led := (forall_update_iff _ fun _ ℓ => Coherent _ ℓ).mpr
      ⟨(hv.coherent_campaign C T E hE).mono hmono, fun T' _ => (hv.coherent_led T').mono hmono⟩
    coherent_campaign := fun n T' E' hE' => (hv.coherent_campaign n T' E' hE').mono hmono
    start_prefix := fun T' => by
      by_cases h : T' = T
      · subst h
        rw [hledT, hstartT]
      · rw [hled T' h, hstart T' h]
        exact hv.start_prefix T'
    start_terms := (forall_update_iff _ fun T' ℓ => ∀ e ∈ ℓ, termOf e < T').mpr
      ⟨hv.campaign_terms C T E hE, fun T' _ => hv.start_terms T'⟩
    led_terms := fun T' e he => by
      by_cases h : T' = T
      · subst h
        rw [hledT, hstartT, drop_length] at he
        cases he
      · rw [hled T' h, hstart T' h] at he
        exact hv.led_terms T' e he
    led_nil := fun T' h => by
      have hne : T' ≠ T := by
        rintro rfl
        simp [elect] at h
      rw [hled T' hne]
      exact hv.led_nil T' (by simpa [elect, hne] using h)
    leader_votes := fun T' L hL => by
      by_cases h : T' = T
      · subst h
        obtain rfl : C = L := by simpa [elect] using hL
        exact ⟨Q, hQ, hvotes⟩
      · exact hv.leader_votes T' L (by simpa [elect, h] using hL)
    leader_campaign := fun T' L hL => by
      by_cases h : T' = T
      · subst h
        obtain rfl : C = L := by simpa [elect] using hL
        rw [hstartT]
        exact hE
      · rw [hstart T' h]
        exact hv.leader_campaign T' L (by simpa [elect, h] using hL)
    ack_length := fun n T' => (hv.ack_length n T').trans (hmono T').length_le
    ack_log := fun n => by
      by_cases h : H.term n = T
      · have : (H.elect C T E).ack n ((H.elect C T E).term n) = 0 := by
          show H.ack n (H.term n) = 0
          rw [h]
          exact hack n
        rw [this]
        simp
      · show ((H.elect C T E).led (H.term n)).take _ <+: _
        rw [hled _ h]
        exact hv.ack_log n
    kept := fun n T' c hc hle => by
      obtain ⟨hne, hc⟩ := hch T' c hc
      rw [hled T' hne]
      exact hv.kept n T' c hc hle
    complete := fun T' c T'' hc hlt hL => by
      obtain ⟨hne, hc'⟩ := hch T' c hc
      rw [hled T' hne]
      by_cases h : T'' = T
      · subst h
        rw [hstartT]
        exact hcomplete T' c hc' hlt
      · rw [hstart T'' h]
        exact hv.complete T' c T'' hc' hlt (by simpa [elect, h] using hL)
    ballot := fun n T' c T'' C' E' hc hlt hC hE' hle => by
      obtain ⟨hne, hc⟩ := hch T' c hc
      rw [hled T' hne]
      exact hv.ballot n T' c T'' C' E' hc hlt hC hE' hle
    commit_committed := fun T' h => by
      obtain ⟨⟨hpos, e, he, het⟩, hq⟩ := hv.commit_committed T' h
      have hne : T' ≠ T := by
        rintro rfl
        simp [hnil] at he
      exact ⟨⟨hpos, e, by rw [hled T' hne]; exact he, het⟩, hq⟩ }

omit [DecidableEq ν] in
theorem append_valid {e : ε} (hL : H.leader T ≠ none) (he : termOf e = T) :
    (H.append T e).Valid 𝒬 := by
  have hled : ∀ T', T' ≠ T → (H.append T e).led T' = H.led T' :=
    fun T' h => update_of_ne h _ _
  have hledT : (H.append T e).led T = H.led T ++ [e] := update_self ..
  have hmono : ∀ T', H.led T' <+: (H.append T e).led T' := by
    intro T'
    by_cases h : T' = T
    · subst h
      rw [hledT]
      exact prefix_append _ _
    · rw [hled T' h]
  have htake : ∀ T' c, c ≤ (H.led T').length →
      ((H.append T e).led T').take c = (H.led T').take c := by
    intro T' c hle
    by_cases h : T' = T
    · subst h
      rw [hledT, take_append_of_le_length hle]
    · rw [hled T' h]
  -- A prefix that reaches the new entry is acknowledged by nobody.
  have hch : ∀ T' c, (H.append T e).Choosable 𝒬 T' c →
      (c ≤ (H.led T').length ∧ H.Choosable 𝒬 T' c) ∨
        (T' = T ∧ (H.led T).length < c ∧ ∃ Q, 𝒬.IsQuorum Q ∧ ∀ n ∈ Q, H.term n ≤ T) := by
    rintro T' c ⟨⟨hpos, u, hu, hut⟩, Q, hQ, hacks⟩
    by_cases hle : c ≤ (H.led T').length
    · refine .inl ⟨hle, ⟨hpos, u, ?_, hut⟩, Q, hQ, hacks⟩
      have := congrArg (·[c - 1]?) (htake T' c hle)
      simp only [getElem?_take_of_lt (show c - 1 < c by omega)] at this
      rw [← this]
      exact hu
    · have hTT : T' = T := by
        by_contra hne
        rw [hled T' hne] at hu
        have := (List.getElem?_eq_some_iff.mp hu).1
        omega
      subst hTT
      refine .inr ⟨rfl, by omega, Q, hQ, fun n hn => (hacks n hn).resolve_left fun h => ?_⟩
      have : c ≤ H.ack n T' := h
      have := hv.ack_length n T'
      omega
  exact { hv with
    coherent_log := fun n => (hv.coherent_log n).mono hmono
    coherent_led := fun T' => by
      by_cases h : T' = T
      · subst h
        intro i u hu
        rw [hledT] at hu ⊢
        rcases Nat.lt_or_ge i (H.led T').length with hi | hi
        · rw [getElem?_append_left hi] at hu
          rw [take_append_of_le_length (by omega)]
          exact (hv.coherent_led T' i u hu).trans (hmono _)
        · rw [getElem?_append_right hi, getElem?_singleton] at hu
          split at hu
          case isTrue =>
            rw [← Option.some.inj hu, he, hledT]
            exact take_prefix _ _
          case isFalse => cases hu
      · rw [hled T' h]
        exact (hv.coherent_led T').mono hmono
    coherent_campaign := fun n T' E' hE' => (hv.coherent_campaign n T' E' hE').mono hmono
    start_prefix := fun T' => (hv.start_prefix T').trans (hmono T')
    led_terms := fun T' u hu => by
      by_cases h : T' = T
      · subst h
        change u ∈ ((H.append T' e).led T').drop (H.start T').length at hu
        rw [hledT, drop_append_of_le_length (hv.start_prefix T').length_le,
          mem_append, mem_singleton] at hu
        rcases hu with hu | rfl
        · exact hv.led_terms T' u hu
        · exact he
      · rw [hled T' h] at hu
        exact hv.led_terms T' u hu
    led_nil := fun T' h => by
      have hne : T' ≠ T := by
        rintro rfl
        exact hL h
      rw [hled T' hne]
      exact hv.led_nil T' h
    ack_length := fun n T' => (hv.ack_length n T').trans (hmono T').length_le
    ack_log := fun n => by
      show ((H.append T e).led (H.term n)).take (H.ack n (H.term n)) <+: H.log n
      rw [htake _ _ (hv.ack_length n _)]
      exact hv.ack_log n
    kept := fun n T' c hc hack => by
      have hlen : c ≤ (H.led T').length := le_trans hack (hv.ack_length n T')
      rcases hch T' c hc with ⟨hle, hc'⟩ | ⟨rfl, hlt, _⟩
      · rw [htake T' c hle]
        exact hv.kept n T' c hc' hack
      · omega
    complete := fun T' c T'' hc hlt hL' => by
      rcases hch T' c hc with ⟨hle, hc'⟩ | ⟨rfl, _, Q, hQ, hterms⟩
      · rw [htake T' c hle]
        exact hv.complete T' c T'' hc' hlt hL'
      · -- A later leader has a quorum beyond `T`, so nothing new is choosable in `T`.
        obtain ⟨L, hL''⟩ := Option.ne_none_iff_exists'.mp hL'
        obtain ⟨R, hR, hvotes⟩ := hv.leader_votes T'' L hL''
        obtain ⟨v, hvQ, hvR⟩ := 𝒬.meet hQ hR
        have := hv.vote_term v T'' L (hvotes v hvR)
        have := hterms v hvQ
        omega
    ballot := fun n T' c T'' C E' hc hlt hC hE' hack => by
      have hlen : c ≤ (H.led T').length := le_trans hack (hv.ack_length n T')
      rcases hch T' c hc with ⟨hle, hc'⟩ | ⟨rfl, hlt', _⟩
      · rw [htake T' c hle]
        exact hv.ballot n T' c T'' C E' hc' hlt hC hE' hack
      · omega
    commit_committed := fun T' h => by
      obtain ⟨⟨hpos, u, hu, hut⟩, hq⟩ := hv.commit_committed T' h
      refine ⟨⟨hpos, u, ?_, hut⟩, hq⟩
      have hi := (List.getElem?_eq_some_iff.mp hu).1
      have hp := prefix_iff_getElem?.mp (hmono T') _ hi
      rw [List.getElem?_eq_getElem hi] at hu
      exact hp.trans hu }

theorem overwrite_valid {k : ℕ} (hnot : ¬ (H.led (H.term n)).take k <+: H.log n) :
    (H.overwrite n k).Valid 𝒬 := by
  -- What the log already holds of the leader's log is shorter than the new log.
  have hshort : ∀ c, c ≤ (H.led (H.term n)).length → (H.led (H.term n)).take c <+: H.log n →
      c ≤ k := by
    intro c hc hp
    by_contra hlt
    exact hnot ((List.take_prefix_take_left (by omega)).trans hp)
  have hkept : ∀ T c, H.Choosable 𝒬 T c → c ≤ H.ack n T →
      (H.led T).take c <+: (H.led (H.term n)).take k := by
    intro T c hc hack
    have hold := hv.kept n T c hc hack
    have hT : T ≤ H.term n := hv.ack_term n T (lt_of_lt_of_le hc.1.1 hack)
    rcases Nat.lt_or_eq_of_le hT with hlt | rfl
    · have hne : H.leader (H.term n) ≠ none := by
        refine hv.leader_ne_none fun hnil => hnot ?_
        rw [hnil]
        simp
      have hp : (H.led T).take c <+: H.led (H.term n) :=
        (hv.complete T c _ hc hlt hne).trans (hv.start_prefix _)
      have hlen : ((H.led T).take c).length = c := by
        rw [length_take, min_eq_left hc.1.le_length]
      have heq : (H.led T).take c = (H.led (H.term n)).take c := by
        have := prefix_iff_eq_take.mp hp
        rwa [hlen] at this
      rw [heq] at hold ⊢
      have hcl : c ≤ (H.led (H.term n)).length := hlen ▸ hp.length_le
      exact take_prefix_take_left (hshort c hcl hold)
    · exact take_prefix_take_left (hshort c hc.1.le_length hold)
  exact { hv with
    coherent_log := (forall_update_iff _ fun _ ℓ => H.Coherent ℓ).mpr
      ⟨(hv.coherent_led _).of_isPrefix (List.take_prefix _ _), fun m _ => hv.coherent_log m⟩
    log_terms := (forall_update_iff _ fun m ℓ => ∀ e ∈ ℓ, termOf e ≤ H.term m).mpr
      ⟨fun e he => hv.led_term_le (mem_of_mem_take he), fun m _ => hv.log_terms m⟩
    ack_log := (forall_update_iff _ fun m ℓ =>
        (H.led (H.term m)).take (H.ack m (H.term m)) <+: ℓ).mpr
      ⟨List.take_prefix_take_left (hshort _ (hv.ack_length _ _) (hv.ack_log n)),
        fun m _ => hv.ack_log m⟩
    kept := (forall_update_iff _ fun m ℓ =>
        ∀ T c, H.Choosable 𝒬 T c → c ≤ H.ack m T → (H.led T).take c <+: ℓ).mpr
      ⟨hkept, fun m _ => hv.kept m⟩ }

theorem acknowledge_valid {k : ℕ} (hk : k ≤ (H.led (H.term n)).length)
    (hp : (H.led (H.term n)).take k <+: H.log n) : (H.acknowledge n k).Valid 𝒬 := by
  -- Only the acknowledgement of `n` in its own term has grown, up to `k`.
  have hack : ∀ m T c, c ≤ (H.acknowledge n k).ack m T →
      c ≤ H.ack m T ∨ (m = n ∧ T = H.term n ∧ c ≤ k) := by
    intro m T c hc
    simp only [acknowledge, update₂] at hc
    split at hc
    case isTrue h =>
      obtain ⟨rfl, rfl⟩ := h
      rcases le_max_iff.mp hc with hc | hc
      · exact .inl hc
      · exact .inr ⟨rfl, rfl, hc⟩
    case isFalse => exact .inl hc
  have hge : ∀ m T, H.ack m T ≤ (H.acknowledge n k).ack m T := by
    intro m T
    simp only [acknowledge, update₂]
    split
    case isTrue h =>
      obtain ⟨rfl, rfl⟩ := h
      exact le_max_left _ _
    case isFalse => exact le_rfl
  have hch : ∀ T c, (H.acknowledge n k).Choosable 𝒬 T c → H.Choosable 𝒬 T c := by
    rintro T c ⟨ho, Q, hQ, hacks⟩
    refine ⟨ho, Q, hQ, fun m hm => ?_⟩
    rcases hacks m hm with h | h
    · rcases hack m T c h with h | ⟨rfl, rfl, _⟩
      · exact .inl h
      · exact .inr le_rfl
    · exact .inr h
  exact { hv with
    ack_length := fun m T => by
      rcases hack m T _ le_rfl with h | ⟨rfl, rfl, h⟩
      · exact h.trans (hv.ack_length m T)
      · exact h.trans hk
    ack_term := fun m T hpos => by
      rcases hack m T _ le_rfl with h | ⟨rfl, rfl, _⟩
      · exact hv.ack_term m T (lt_of_lt_of_le hpos h)
      · exact le_rfl
    ack_log := fun m => by
      rcases hack m (H.term m) _ le_rfl with h | ⟨rfl, _, h⟩
      · exact (List.take_prefix_take_left h).trans (hv.ack_log m)
      · exact (List.take_prefix_take_left h).trans hp
    kept := fun m T c hc hle => by
      rcases hack m T c hle with h | ⟨rfl, rfl, h⟩
      · exact hv.kept m T c (hch T c hc) h
      · exact (List.take_prefix_take_left h).trans hp
    complete := fun T c T' hc => hv.complete T c T' (hch T c hc)
    ballot := fun m T c T' C E hc hlt hC hE hle => by
      rcases hack m T c hle with h | ⟨rfl, rfl, h⟩
      · exact hv.ballot m T c T' C E (hch T c hc) hlt hC hE h
      · have := hv.vote_term m T' C hC
        omega
    commit_committed := fun T h => by
      obtain ⟨ho, Q, hQ, hacks⟩ := hv.commit_committed T h
      exact ⟨ho, Q, hQ, fun m hm => (hacks m hm).trans (hge m T)⟩ }

omit [DecidableEq ν] in
theorem learn_valid {c : ℕ} (hc : H.Committed 𝒬 T c) : (H.learn T c).Valid 𝒬 := by
  exact { hv with
    commit_committed := fun T' h => by
      by_cases hT : T' = T
      · subst hT
        show (H.learn T' c).Committed 𝒬 T' (update H.commit T' _ T')
        rw [update_self]
        rcases max_choice (H.commit T') c with hm | hm <;> rw [hm]
        · rcases Nat.eq_zero_or_pos (H.commit T') with h0 | hpos
          · have : c ≤ 0 := by rw [← h0, ← hm]; exact le_max_right _ _
            exact absurd hc.1.1 (by omega)
          · exact hv.commit_committed T' hpos
        · exact hc
      · have h' : (H.learn T c).commit T' = H.commit T' := update_of_ne hT _ _
        rw [h'] at h ⊢
        exact hv.commit_committed T' h }

end

end Consensus.History
