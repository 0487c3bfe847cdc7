import KuraMetadata.Store.Restore

/-! # Fencing

A lease generation is a lease id with the fencing token it was granted under. Tokens only grow,
and a generation that has been removed, or whose deadline the logical tick has reached, never
acts again, over every restart from a snapshot. -/

namespace KuraMetadata

open InMemoryMetadataStore Std List

variable {s u : InMemoryMetadataStore} {id initial : Int} {token : Nat} {calls' : List Call}

/-- The life of a store: calls, and restarts from its own snapshot between them. -/
inductive Life (s : InMemoryMetadataStore) : List Call → InMemoryMetadataStore → Prop
  | nil : Life s [] s
  | call {calls : List Call} {t : InMemoryMetadataStore} (life : Life s calls t)
      (operation : Operation) : Life s (calls ++ [⟨t, operation⟩]) (Call.mk t operation).after
  | restart {calls : List Call} {t u : InMemoryMetadataStore} {limits : StoreLimits}
      (life : Life s calls t)
      (restored : InMemoryMetadataStore.ofSnapshot t.snapshot limits = .ok u) :
      Life s calls u

/-! ## What a generation can do -/

namespace Call

/-- The call has renewed the generation. -/
def Renews (call : Call) (id : Int) (token : Nat) : Prop :=
  ∃ request result, call.operation = .keepAlive request ∧ request.id = id
    ∧ request.fencingToken = token ∧ call.reply = some (.keepAlive result) ∧ result.code = .ok

/-- The call has revoked the generation. -/
def Revokes (call : Call) (id : Int) (token : Nat) : Prop :=
  ∃ request result, call.operation = .revokeLease request ∧ request.id = id
    ∧ request.fencingToken = token ∧ call.reply = some (.revokeLease result) ∧ result.code = .ok

/-- The call is a transaction that carries the generation and has taken its success branch. -/
def Succeeds (call : Call) (id : Int) (token : Nat) : Prop :=
  ∃ request result, call.operation = .transaction request
    ∧ ⟨id, token⟩ ∈ request.leaseOwnership ∧ call.reply = some (.transaction result)
    ∧ result.succeeded = true

/-- The generation is there before the call and not after it. -/
def Removes (call : Call) (id : Int) (token : Nat) : Prop :=
  (∃ lease, call.before.leases[id]? = some lease ∧ lease.fencingToken = token)
    ∧ ∀ lease, call.after.leases[id]? = some lease → lease.fencingToken ≠ token

/-- The token a successful grant has returned. -/
def grantedToken (call : Call) : Option Nat :=
  match call.reply with
  | some (.grantLease result) => some result.lease.fencingToken
  | _ => none

end Call

/-- The logical tick has reached the deadline of the generation. -/
def Lapsed (s : InMemoryMetadataStore) (id : Int) (token : Nat) : Prop :=
  ∃ lease, s.leases[id]? = some lease ∧ lease.fencingToken = token
    ∧ lease.expiryTick ≤ s.logicalTick

/-- The token is spent and no live lease of that id is under it. -/
structure Dead (s : InMemoryMetadataStore) (id : Int) (token : Nat) : Prop where
  spent : token < s.nextFencingToken
  lapsed : ∀ {lease : StoredLease}, s.leases[id]? = some lease → lease.fencingToken = token →
    lease.expiryTick ≤ s.logicalTick

/-- The token is spent and no lease of that id is under it. -/
structure Gone (s : InMemoryMetadataStore) (id : Int) (token : Nat) : Prop where
  spent : token < s.nextFencingToken
  absent : ∀ {lease : StoredLease}, s.leases[id]? = some lease → lease.fencingToken ≠ token

theorem Gone.dead (h : Gone s id token) : Dead s id token :=
  ⟨h.spent, fun hlease htoken => absurd htoken (h.absent hlease)⟩

/-! ## One call -/

section

variable {s s' : InMemoryMetadataStore} {batch : Option EventBatch}

theorem InMemoryMetadataStore.Change.fencingToken_eq (change : Change s batch s')
    {lease lease' : StoredLease} (h : s.leases[id]? = some lease)
    (h' : s'.leases[id]? = some lease') : lease'.fencingToken = lease.fencingToken := by
  rcases change.origin h' with ⟨found, htoken, -, -⟩ | ⟨free, -⟩
  · rw [h] at found
    cases found
    exact htoken.symm
  · rw [h] at free
    cases free

theorem Dead.change (h : Dead s id token) (change : Change s batch s') : Dead s' id token := by
  obtain ⟨-, hnext, htick, -⟩ := change.advances
  have hspent := h.spent
  refine ⟨hspent.trans_le hnext, fun {lease'} hlease' htoken => ?_⟩
  rcases change.origin hlease' with ⟨found, hsame, -, hexpiry⟩ | ⟨-, -, -, -, hnew, -, -, -⟩
  · have := h.lapsed found (hsame.trans htoken)
    omega
  · omega

theorem Gone.change (h : Gone s id token) (change : Change s batch s') : Gone s' id token := by
  have hspent := h.spent
  refine ⟨hspent.trans_le change.advances.tokens, fun {lease'} hlease' htoken => ?_⟩
  rcases change.origin hlease' with ⟨found, hsame, -, -⟩ | ⟨-, -, -, -, hnew, -, -, -⟩
  · exact h.absent found (hsame.trans htoken)
  · omega

/-- A transaction takes its success branch only under live generations. -/
theorem InMemoryMetadataStore.planTransaction_owned {request : TransactionRequest}
    {plan : TransactionPlan} (h : s.planTransaction request = .ok plan)
    (hsucceeded : plan.succeeded = true) (howned : ⟨id, token⟩ ∈ request.leaseOwnership) :
    s.logicalTick ≤ request.leaseTick
      ∧ ∃ lease, s.leases[id]? = some lease ∧ lease.fencingToken = token
        ∧ request.leaseTick < lease.expiryTick := by
  refine ⟨(planTransaction_eq_ok h).1 (ne_nil_of_mem howned), ?_⟩
  simp only [planTransaction, Except.bind_eq_ok, Except.pure_eq_ok] at h
  obtain ⟨hold, -, _, -, verified, -, footprint, -, revision, -, working, -, rfl⟩ := h
  have hmatch := all_eq_true.mp (Bool.and_eq_true_iff.mp hsucceeded).2 _ howned
  unfold ownershipMatches at hmatch
  split at hmatch
  · cases hmatch
  · rename_i lease hlease
    simp only [Bool.and_eq_true, decide_eq_true_eq] at hmatch
    exact ⟨lease, hlease, hmatch.2, hmatch.1⟩

end

namespace Call

variable {call : Call}

theorem reply_eq_some {reply : Reply} (h : call.reply = some reply) :
    ∃ batch t, call.operation.run call.before = .ok (reply, batch) t := by
  unfold Call.reply at h
  split at h
  · rename_i hrun
    cases h
    exact ⟨_, _, hrun⟩
  · cases h

theorem Renews.not_dead (h : call.Renews id token) : ¬ Dead call.before id token := by
  obtain ⟨request, result, hoperation, rfl, rfl, hreply, hcode⟩ := h
  obtain ⟨batch, t, hrun⟩ := reply_eq_some hreply
  rw [hoperation] at hrun
  obtain ⟨_, _, hrun, hresult⟩ := EStateM.bind_eq_ok.mp hrun
  cases hresult
  obtain ⟨htick, ⟨lease, hlease, hlive, htoken, -⟩ | ⟨hfailed, -⟩⟩ := keepAlive_eq_ok hrun
  · intro hdead
    have := hdead.lapsed hlease htoken
    omega
  · exact absurd hcode hfailed

theorem Succeeds.not_dead (h : call.Succeeds id token) : ¬ Dead call.before id token := by
  obtain ⟨request, result, hoperation, howned, hreply, hsucceeded⟩ := h
  obtain ⟨batch, t, hrun⟩ := reply_eq_some hreply
  rw [hoperation] at hrun
  obtain ⟨_, _, hrun, hresult⟩ := EStateM.bind_eq_ok.mp hrun
  cases hresult
  obtain ⟨plan, hplan, hplanned⟩ := transaction_plan hrun
  rw [hplanned] at hsucceeded
  obtain ⟨htick, lease, hlease, htoken, hlive⟩ := planTransaction_owned hplan hsucceeded howned
  intro hdead
  have := hdead.lapsed hlease htoken
  omega

theorem Revokes.not_gone (h : call.Revokes id token) : ¬ Gone call.before id token := by
  obtain ⟨request, result, hoperation, rfl, rfl, hreply, hcode⟩ := h
  obtain ⟨batch, t, hrun⟩ := reply_eq_some hreply
  rw [hoperation] at hrun
  obtain ⟨_, _, hrun, hresult⟩ := EStateM.bind_eq_ok.mp hrun
  cases hresult
  obtain ⟨-, ⟨lease, _, hlease, htoken, -⟩ | ⟨hfailed, -⟩⟩ := revokeLease_eq_ok hrun
  · exact fun hgone => hgone.absent hlease htoken
  · exact absurd hcode hfailed

theorem grantedToken_eq_some (h : call.grantedToken = some token) :
    token = call.before.nextFencingToken
      ∧ call.after.nextFencingToken = call.before.nextFencingToken + 1 := by
  unfold Call.grantedToken at h
  split at h
  · rename_i result hreply
    cases h
    obtain ⟨before, operation⟩ := call
    obtain ⟨batch, t, hrun⟩ := reply_eq_some hreply
    rw [(Call.of_run_eq_ok hrun).1]
    cases operation
    case grantLease request =>
      obtain ⟨_, _, hrun, hresult⟩ := EStateM.bind_eq_ok.mp hrun
      cases hresult
      obtain ⟨id, -, -, -, -, -, -, htoken, rfl⟩ := grantLease_eq_ok hrun
      exact ⟨htoken, rfl⟩
    all_goals
      obtain ⟨_, _, -, hresult⟩ := EStateM.bind_eq_ok.mp hrun
      cases hresult
  · cases h

theorem Removes.gone (h : call.Removes id token)
    (hwell : WellFormed initial call.before) : Gone call.after id token := by
  obtain ⟨⟨lease, hlease, rfl⟩, habsent⟩ := h
  have hnext := call.change.advances.tokens
  exact ⟨(hwell.allocated hlease).token_lt.trans_le hnext, fun hlease' => habsent _ hlease'⟩

end Call

theorem Lapsed.dead (h : Lapsed s id token) (hwell : WellFormed initial s) : Dead s id token := by
  obtain ⟨lease, hlease, rfl, hlapsed⟩ := h
  refine ⟨(hwell.allocated hlease).token_lt, fun hlease' _ => ?_⟩
  rw [hlease] at hlease'
  cases hlease'
  exact hlapsed

/-! ## Lives -/

section

variable {s t : InMemoryMetadataStore} {calls : List Call}

theorem Life.trans (life : Life s calls t)
    (life' : Life t calls' u) : Life s (calls ++ calls') u := by
  induction life' with
  | nil =>
    rw [append_nil]
    exact life
  | call _ operation ih =>
    rw [← append_assoc]
    exact ih.call operation
  | restart _ restored ih => exact ih.restart restored

theorem Life.of_run (run : Run s calls t) : Life s calls t := by
  induction run with
  | nil => exact Life.nil
  | snoc _ operation ih => exact ih.call operation

section

variable (life : Life s calls t) (h : WellFormed initial s)
include life h

theorem Life.wellFormed : ∃ initial, WellFormed initial t := by
  induction life with
  | nil => exact ⟨initial, h⟩
  | call life operation ih =>
    obtain ⟨initial, h⟩ := ih
    exact ⟨initial, h.change (Call.mk _ operation).change⟩
  | restart life restored ih =>
    obtain ⟨initial, h⟩ := ih
    exact ⟨_, h.restored restored⟩

/-- What every change preserves, and depends on the leases, the tick and the counters only,
holds at every call of a life and at its end. -/
theorem Life.preserves {P : InMemoryMetadataStore → Prop} (init : P s)
    (step : ∀ {a b batch}, P a → Change a batch b → P b)
    (frame : ∀ {a b : InMemoryMetadataStore}, P a → b.leases = a.leases →
      b.logicalTick = a.logicalTick → b.nextFencingToken = a.nextFencingToken → P b) :
    (∀ call ∈ calls, P call.before) ∧ P t := by
  induction life with
  | nil => exact ⟨fun _ hcall => (by cases hcall), init⟩
  | call life operation ih =>
    obtain ⟨hcalls, hlast⟩ := ih
    exact ⟨forall_mem_concat hcalls hlast, step hlast (Call.mk _ operation).change⟩
  | restart life restored ih =>
    obtain ⟨hcalls, hlast⟩ := ih
    obtain ⟨_, hwell⟩ := life.wellFormed h
    obtain rfl := ofSnapshot_snapshot hwell.index restored
    exact ⟨hcalls, frame hlast rfl rfl rfl⟩

theorem Life.dead (hdead : Dead s id token) :
    (∀ call ∈ calls, Dead call.before id token) ∧ Dead t id token :=
  life.preserves h hdead Dead.change fun ha hleases htick hnext =>
    ⟨hnext ▸ ha.spent, fun hlease htoken => htick ▸ ha.lapsed (hleases ▸ hlease) htoken⟩

theorem Life.gone (hgone : Gone s id token) :
    (∀ call ∈ calls, Gone call.before id token) ∧ Gone t id token :=
  life.preserves h hgone Gone.change fun ha hleases _ hnext =>
    ⟨hnext ▸ ha.spent, fun hlease => ha.absent (hleases ▸ hlease)⟩

theorem Life.removed (hremoved : ∃ call ∈ calls, call.Removes id token) : Gone t id token := by
  induction life with
  | nil =>
    obtain ⟨_, hcall, -⟩ := hremoved
    cases hcall
  | call life operation ih =>
    obtain ⟨call, hcall, hremoves⟩ := hremoved
    obtain ⟨_, hwell⟩ := life.wellFormed h
    rcases mem_append.mp hcall with hcall | hcall
    · exact (ih ⟨call, hcall, hremoves⟩).change (Call.mk _ operation).change
    · obtain rfl := mem_singleton.mp hcall
      exact hremoves.gone hwell
  | restart life restored ih =>
    obtain ⟨_, hwell⟩ := life.wellFormed h
    exact ((Life.nil.restart restored).gone hwell (ih hremoved)).2

/-- The tokens granted so far are below the next one, in the order of the grants. -/
theorem Life.tokens :
    (calls.filterMap Call.grantedToken).Pairwise (· < ·)
      ∧ ∀ token ∈ calls.filterMap Call.grantedToken, token < t.nextFencingToken := by
  induction life with
  | nil => exact ⟨List.Pairwise.nil, fun _ htoken => by cases htoken⟩
  | @call calls t life operation ih =>
    obtain ⟨hpairwise, hbelow⟩ := ih
    have hnext := (Call.mk t operation).change.advances.tokens
    have hbelow' : ∀ token ∈ calls.filterMap Call.grantedToken,
        token < (Call.mk t operation).after.nextFencingToken :=
      fun token htoken => (hbelow token htoken).trans_le hnext
    rw [filterMap_append]
    cases hgrant : (Call.mk t operation).grantedToken with
    | none =>
      have hnil : [Call.mk t operation].filterMap Call.grantedToken = [] := by simp [hgrant]
      rw [hnil, append_nil]
      exact ⟨hpairwise, hbelow'⟩
    | some token =>
      have hone : [Call.mk t operation].filterMap Call.grantedToken = [token] := by simp [hgrant]
      obtain ⟨htoken, hafter⟩ := Call.grantedToken_eq_some hgrant
      obtain rfl : token = t.nextFencingToken := htoken
      rw [hone]
      refine ⟨pairwise_append.mpr ⟨hpairwise, pairwise_singleton _ _, ?_⟩, ?_⟩
      · intro earlier hearlier later hlater
        rw [mem_singleton.mp hlater]
        exact hbelow earlier hearlier
      · refine forall_mem_concat hbelow' ?_
        rw [hafter]
        exact Nat.lt_succ_self _
  | restart life restored ih =>
    obtain ⟨_, hwell⟩ := life.wellFormed h
    obtain rfl := ofSnapshot_snapshot hwell.index restored
    exact ih

end

/-- Tokens grow from grant to grant, and a generation that is removed or whose deadline is
reached never acts again. -/
theorem dead_generation_never_acts
    (opened : Opened s) (earlier : Life s calls t) (later : Life t calls' u) :
    ((calls ++ calls').filterMap Call.grantedToken).Pairwise (· < ·)
      ∧ (∀ id token, (∃ call ∈ calls, call.Removes id token) → ∀ call ∈ calls',
          ¬ call.Renews id token ∧ ¬ call.Revokes id token ∧ ¬ call.Succeeds id token)
      ∧ (∀ id token, Lapsed t id token → ∀ call ∈ calls',
          ¬ call.Renews id token ∧ ¬ call.Succeeds id token) := by
  have hwell := opened.wellFormed
  obtain ⟨_, hwell'⟩ := earlier.wellFormed hwell
  refine ⟨((earlier.trans later).tokens hwell).1, ?_, ?_⟩
  · intro id token hremoved call hcall
    have hgone := (later.gone hwell' (earlier.removed hwell hremoved)).1 call hcall
    exact ⟨fun h => h.not_dead hgone.dead, fun h => h.not_gone hgone,
      fun h => h.not_dead hgone.dead⟩
  · intro id token hlapsed call hcall
    have hdead := (later.dead hwell' (hlapsed.dead hwell')).1 call hcall
    exact ⟨fun h => h.not_dead hdead, fun h => h.not_dead hdead⟩

end

/-- An owner is granted lease 1 and pauses; the lease expires. -/
def expiry : List Operation :=
  [.grantLease { requestedId := 1, ttl := 5, tick := 1 }, .expireLeases 6]

/-- After a restart lease 1 is granted again, and the paused owner comes back. -/
def comeback : List Operation :=
  [.grantLease { requestedId := 1, ttl := 5, tick := 6 },
   .keepAlive { id := 1, fencingToken := 1, tick := 7 },
   .transaction { leaseOwnership := [⟨1, 1⟩], leaseTick := 7,
                  success := [.put { key := [1], value := [7], leaseId := 1 }] },
   .revokeLease { id := 1, fencingToken := 1, tick := 7 }]

/-- The store restored from the snapshot taken after the expiry. -/
def restoredStore : InMemoryMetadataStore :=
  { revision := 1, compactRevision := 1, logicalTick := 6, nextLeaseId := 2, nextFencingToken := 2 }

theorem dead_generation_never_acts_comeback :
    (∀ call ∈ callsFrom restoredStore comeback, call.reply ≠ none)
      ∧ ∀ call ∈ callsFrom restoredStore comeback,
        ¬ call.Renews 1 1 ∧ ¬ call.Revokes 1 1 ∧ ¬ call.Succeeds 1 1 := by
  refine ⟨by decide +kernel, ?_⟩
  have earlier : Life emptyStore (callsFrom emptyStore expiry) restoredStore :=
    @Life.restart _ _ _ _ {} (Life.of_run (Run.of_operations emptyStore expiry)) rfl
  refine (dead_generation_never_acts emptyStore_opened earlier
    (Life.of_run (Run.of_operations restoredStore comeback))).2.1 1 1 ?_
  refine ⟨⟨stateAfter emptyStore (expiry.take 1), .expireLeases 6⟩, by decide +kernel,
    ⟨{ fencingToken := 1, grantedTtl := 5, expiryTick := 6 }, by decide +kernel, rfl⟩, ?_⟩
  have habsent : (Call.mk (stateAfter emptyStore (expiry.take 1)) (.expireLeases 6)).after.leases[
      (1 : Int)]? = none := by decide +kernel
  intro lease hlease
  rw [habsent] at hlease
  cases hlease

end KuraMetadata
