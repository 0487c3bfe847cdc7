import KuraMetadata.Kura.Publications

/-! # Fencing tokens of successive writers

A writer's token is fixed when its lease is granted, and the table is taken by a later
transaction. If claims on a table are made in the order of their grants, the tokens of its
writers increase; a claim that overtakes an earlier grant breaks the order. -/

namespace KuraMetadata.Kura

open Std InMemoryMetadataStore List Option

variable {catalogs : Nat → Identifier} {initial : Int} {w w' : World}
variable {root root' tableId : ByteSequence} {operation : ClientOperation} {request : Request}
variable {next : Except ClientException (Answer request) → Program Outcome} {session : LeaseSession}
variable {client client' : Nat} {process : Process} {action : Action}
variable {store : InMemoryMetadataStore} {ids : List Int}

/-! ## Processes that are about to claim -/

theorem writerKey_inj (h : writerKey root = writerKey root') : root = root' :=
  append_cancel_right h

theorem claimRequest_inj {session' : LeaseSession}
    (h : claimRequest root session = claimRequest root' session') :
    root = root' ∧ session = session' := by
  have hcomparisons := congrArg TransactionRequest.comparisons h
  have howned := congrArg TransactionRequest.leaseOwnership h
  refine ⟨writerKey_inj (congrArg Compare.key (List.cons.inj hcomparisons).1), ?_⟩
  obtain ⟨id, token⟩ := session
  obtain ⟨id', token'⟩ := session'
  cases howned
  rfl

/-- The session with which a process is about to claim the table. -/
def Process.claiming (root : ByteSequence) (process : Process) : Option LeaseSession :=
  match process.program with
  | .call (.transaction _ request) _ =>
    (request.leaseOwnership.map fun owned => LeaseSession.mk owned.id owned.fencingToken).find?
      fun session => request = claimRequest root session
  | _ => none

theorem claiming_eq_some (h : process.claiming root = some session) :
    ∃ client next,
      process.program = .call (.transaction client (claimRequest root session)) next := by
  obtain ⟨operation, program⟩ := process
  unfold Process.claiming at h
  split at h
  · rename_i client request next hprogram
    have hrequest : request = claimRequest root session := by simpa using find?_some h
    subst hrequest
    exact ⟨client, next, hprogram⟩
  · cases h

theorem writerFrom_eq_call (client : Nat) (root : ByteSequence) (current : StoreRead)
    (session : LeaseSession) :
    ∃ next, writerFrom client root current session
      = .call (.transaction client (claimRequest root session)) next := ⟨_, rfl⟩

theorem claiming_writerFrom {current : StoreRead} :
    Process.claiming root ⟨operation, writerFrom client root current session⟩ = some session := by
  obtain ⟨next, hnext⟩ := writerFrom_eq_call client root current session
  simp [hnext, Process.claiming, claimRequest]

theorem operation_of_claim {next : Except ClientException TransactionResult → Program Outcome}
    (h : (operation.program catalogs).Within inProcess
      (.call (.transaction client (claimRequest root session)) next)) :
    ∃ client tableId ttl, operation = .acquireWriter client tableId ttl := by
  have hsite := site_of_within h
  generalize hprogram : (.call (.transaction client (claimRequest root session)) next :
    Program Outcome) = program at hsite
  cases hsite with
  | silent harmless plain =>
    cases hprogram
    cases harmless
  | claim table => exact ⟨_, _, _, rfl⟩
  | publish encodes | register table encodes =>
    have hrequest := (Request.transaction.inj (Calls.call.inj hprogram).1).2
    cases congrArg (fun r => r.comparisons.map (·.target)) hrequest
  | revoke owner plain | collect table identifier range plain => cases hprogram

/-- A claim is made right after the grant of its lease. -/
theorem grantWriterFrom_of_next {ttl : Int} {reply : Except ClientException (Answer request)}
    {next' : Except ClientException TransactionResult → Program Outcome}
    (h : ((ClientOperation.acquireWriter client tableId ttl).program catalogs).Within inProcess
      (.call request next))
    (hnext : next reply = .call (.transaction client' (claimRequest root session)) next') :
    ∃ current, Calls.call request next = grantWriterFrom client root ttl current := by
  obtain ⟨root', -, phase⟩ := writerPhase_of_within h
  generalize hprogram : Calls.call request next = program at phase
  cases phase with
  | read | lose session =>
    cases hprogram
    cases reply <;> cases hnext
  | grant current =>
    cases hprogram
    cases reply with
    | error e => cases hnext
    | ok granted =>
      have hrequest := (Request.transaction.inj (Calls.call.inj hnext).1).2
      obtain ⟨rfl, -⟩ := claimRequest_inj hrequest
      exact ⟨current, rfl⟩
  | claim current session =>
    cases hprogram
    cases reply with
    | error e => cases hnext
    | ok claim =>
      obtain ⟨header, succeeded, responses⟩ := claim
      cases succeeded <;> cases hnext

theorem program_ne_claim {ttl : Int}
    {next : Except ClientException TransactionResult → Program Outcome} :
    (ClientOperation.acquireWriter client tableId ttl).program catalogs
      ≠ .call (.transaction client' (claimRequest root session)) next := by
  intro h
  rcases acquireWriter_program client tableId ttl with ⟨e, hprogram⟩ | ⟨root, -, hprogram⟩
  · rw [hprogram] at h
    cases h
  · rw [hprogram] at h
    cases h

/-- A grant hands out the newest token, for a lease that no key is attached to. -/
theorem answer_grantLease (w : World) (tick ttl : Nat) :
    (∃ e, (w.answer tick (.grantLease ttl)).1 = .error e)
      ∨ ∃ granted, (w.answer tick (.grantLease ttl)).1 = .ok granted
        ∧ granted.lease.fencingToken = w.store.nextFencingToken
        ∧ (w.answer tick (.grantLease ttl)).2.store.nextFencingToken = w.store.nextFencingToken + 1
        ∧ ∀ lease, (w.answer tick (.grantLease ttl)).2.store.leases[granted.lease.id]?
          = some lease → lease.attachedKeys = ∅ := by
  cases hrun : grantLease { ttl, tick } w.store with
  | error e s =>
    refine .inl ⟨.standard e, ?_⟩
    simp only [World.answer, World.onStore, ofStore, hrun]
  | ok granted s =>
    refine .inr ⟨granted, ?_⟩
    obtain ⟨id, -, -, -, -, -, hid, htoken, rfl⟩ := grantLease_eq_ok hrun
    simp only [World.answer, World.onStore, ofStore, hrun]
    refine ⟨trivial, htoken, trivial, fun lease hlease => ?_⟩
    rw [hid, ExtTreeMap.getElem?_insert_self] at hlease
    cases hlease
    rfl

/-- A process about to claim was so before the step, or has just been granted the newest
token. -/
theorem Sound.claiming_step {q : Nat}
    (sound : Sound catalogs initial w) (h : w.step catalogs action = some w')
    (hq : w'.processes[q]? = some process) (hclaiming : process.claiming root = some session) :
    (w.processes[q]? = some process ∧ ∀ tick, action ≠ .advance q tick)
      ∨ session.token = w.store.nextFencingToken
        ∧ w'.store.nextFencingToken = w.store.nextFencingToken + 1 := by
  obtain ⟨client, next', hprogram⟩ := claiming_eq_some hclaiming
  rcases process_of_step h hq with hq | ⟨v, operation, program, before, tick, rfl, rfl, horigin⟩
  · exact .inl hq
  have hwithin := (sound.within horigin).1
  replace hprogram : program = _ := hprogram
  rw [hprogram] at hwithin
  obtain ⟨owner, tableId, ttl, rfl⟩ := operation_of_claim hwithin
  refine .inr ?_
  rw [settle_store]
  cases horigin with
  | started => exact absurd hprogram program_ne_claim
  | @answered request next tick running =>
    obtain ⟨current, hgrant⟩ := grantWriterFrom_of_next (sound.running running).1 hprogram
    cases hgrant
    rcases answer_grantLease w tick ttl.toNat with ⟨e, hreply⟩ | ⟨granted, hreply, htoken, hnext, -⟩
    · rw [hreply] at hprogram
      cases hprogram
    · rw [hreply] at hprogram
      have hrequest := (Request.transaction.inj (Calls.call.inj hprogram).1).2
      obtain ⟨-, rfl⟩ := claimRequest_inj hrequest
      exact ⟨htoken, hnext⟩

/-! ## Claims in the order of their grants -/

/-- The session with which the process is about to claim the table. -/
def World.claimant (w : World) (root : ByteSequence) (p : Nat) : Option LeaseSession :=
  w.processes[p]?.bind (Process.claiming root)

/-- A claim on a free table is made only when every other process that is about to claim the
table has a newer lease. -/
def GrantOrder (root : ByteSequence) (w : World) (action : Action) : Prop :=
  ∀ p tick session, action = .advance p tick → w.claimant root p = some session →
    w.store.values[writerKey root]? = none →
    ∀ q later, q ≠ p → w.claimant root q = some later → session.token < later.token

/-- The tokens of successive writers of the table increase, and those of its publications never
decrease. -/
def TokensIncrease (root : ByteSequence) (w : World) : Prop :=
  ((w.claims root).map (·.lease.token)).Pairwise (· < ·)
    ∧ ((w.publications root).map (·.guard.lease.token)).Pairwise (· ≤ ·)

structure Ordered (root : ByteSequence) (w : World) : Prop where
  increase : TokensIncrease root w
  granted : ∀ guard ∈ w.claims root, guard.lease.token < w.store.nextFencingToken
  waiting : ∀ {p : Nat} {session : LeaseSession}, w.claimant root p = some session →
    ∀ guard ∈ w.claims root, guard.lease.token < session.token
  holder : ∀ {writer : KeyValue} {lease : StoredLease},
    w.store.values[writerKey root]? = some writer →
    w.store.leases[writer.leaseId]? = some lease →
    (w.claims root).getLast?.map (·.lease.token) = some lease.fencingToken
  published : ∀ publication ∈ w.publications root,
    ∃ guard ∈ w.claims root, guard.lease.token = publication.guard.lease.token

theorem TokensIncrease.le_last {token : Nat} (h : TokensIncrease root w)
    (hlast : (w.claims root).getLast?.map (·.lease.token) = some token) :
    ∀ guard ∈ w.claims root, guard.lease.token ≤ token := by
  obtain ⟨last, hfound, rfl⟩ := map_eq_some_iff.mp hlast
  obtain ⟨earlier, hclaims⟩ := getLast?_eq_some_iff.mp hfound
  have hpairwise := h.1
  rw [hclaims, map_append, pairwise_append] at hpairwise
  intro guard hguard
  rw [hclaims] at hguard
  rcases mem_append.mp hguard with hguard | hguard
  · exact (hpairwise.2.2 _ (mem_map_of_mem hguard) _ mem_cons_self).le
  · rw [mem_singleton.mp hguard]

section

variable (sound : Sound catalogs initial w) (sound' : Sound catalogs initial w')
include sound sound'

/-- A lease that holds a key after a step was there before, under the same token. -/
theorem Sound.lease_before {writer : KeyValue} {lease' : StoredLease}
    (hstep : w.step catalogs action = some w')
    (hwriter : w.store.values[writerKey root]? = some writer)
    (hlease' : w'.store.leases[writer.leaseId]? = some lease') :
    ∃ lease, w.store.leases[writer.leaseId]? = some lease
      ∧ lease.fencingToken = lease'.fencingToken := by
  have hne : writer.leaseId ≠ 0 := by
    intro hzero
    rw [hzero, sound'.store.index.positive] at hlease'
    cases hlease'
  obtain ⟨lease, hlease, -⟩ := sound.store.index.attached hwriter hne
  obtain ⟨_, hchange⟩ := step_change hstep
  exact ⟨lease, hlease, (hchange.fencingToken_eq hlease hlease').symm⟩

theorem Ordered.of_kept (h : Ordered root w) (hstep : w.step catalogs action = some w')
    (kept : ∀ writer, w'.store.values[writerKey root]? = some writer →
      w.store.values[writerKey root]? = some writer)
    (claims : w'.claims root = w.claims root) (increase : TokensIncrease root w')
    (published : ∀ publication ∈ w'.publications root,
      ∃ guard ∈ w.claims root, guard.lease.token = publication.guard.lease.token) :
    Ordered root w' := by
  obtain ⟨_, hchange⟩ := step_change hstep
  have hnext := hchange.advances.tokens
  refine ⟨increase, ?_, ?_, ?_, ?_⟩
  · rw [claims]
    exact fun guard hguard => (h.granted guard hguard).trans_le hnext
  · intro p session hclaimant
    obtain ⟨process, hp, hclaiming⟩ := bind_eq_some_iff.mp hclaimant
    rw [claims]
    intro guard hguard
    rcases sound.claiming_step hstep hp hclaiming with ⟨hbefore, -⟩ | ⟨hnewest, -⟩
    · exact h.waiting (bind_eq_some_iff.mpr ⟨process, hbefore, hclaiming⟩) guard hguard
    · rw [hnewest]
      exact h.granted guard hguard
  · intro writer lease' hwriter hlease'
    have hbefore := kept writer hwriter
    obtain ⟨lease, hlease, htoken⟩ := sound.lease_before sound' hstep hbefore hlease'
    rw [claims, ← htoken]
    exact h.holder hbefore hlease
  · rw [claims]
    exact published

theorem Ordered.step (h : Ordered root w) (hallowed : GrantOrder root w action)
    (hstep : w.step catalogs action = some w')
    (step : TableStep catalogs root w action w') : Ordered root w' := by
  have hunreported : (w'.reports catalogs root).claims = w.claims root →
      (w'.reports catalogs root).publications = w.publications root →
      (∀ writer, w'.store.values[writerKey root]? = some writer →
        w.store.values[writerKey root]? = some writer) → Ordered root w' := by
    intro hclaims hpublications hkept
    replace hclaims : w'.claims root = w.claims root := hclaims
    replace hpublications : w'.publications root = w.publications root := hpublications
    refine h.of_kept sound sound' hstep hkept hclaims ?_ ?_
    · unfold TokensIncrease
      rw [hclaims, hpublications]
      exact h.increase
    · rw [hpublications]
      exact h.published
  cases step with
  | quiet kept reports =>
    refine hunreported (by rw [reports]; rfl) (by rw [reports]; rfl) fun writer hwriter => ?_
    rwa [kept _ (isPrefix_writerKey root)] at hwriter
  | registered running table encodes live found reads leased values reports =>
    refine hunreported (by rw [reports]; rfl) (by rw [reports]; rfl) fun writer hwriter => ?_
    rwa [values, ExtTreeMap.getElem?_insert_of_ne (writerKey_ne_readerKey root _).symm] at hwriter
  | collected running table range unreferenced values reports =>
    refine hunreported (by rw [reports]; rfl) (by rw [reports]; rfl) fun writer hwriter => ?_
    rwa [values, if_neg (writerKey_ne_snapshotKey root _)] at hwriter
  | released removed origin reports =>
    refine hunreported (by rw [reports]; rfl) (by rw [reports]; rfl) fun writer hwriter => ?_
    exact (removed.2.mp hwriter).1
  | @published _ tick _ guard expectedRevision _ _ current _ _ running held table encodes live
      expected owned values currentValue snapshotValue reports =>
    have claims : w'.claims root = w.claims root := congrArg Reports.claims reports
    have publications : w'.publications root = w.publications root
        ++ [⟨guard, expectedRevision, w.store.revision + 1, w.store, tick⟩] :=
      congrArg Reports.publications reports
    -- the guard's lease holds the writer key, so its token is the last claim's
    obtain ⟨writer, hwriter, hleased⟩ := owned
    obtain ⟨lease, hlease, htoken, -⟩ := live
    have hlast := h.holder hwriter (hleased.symm ▸ hlease)
    rw [htoken] at hlast
    have hnew : ∃ claim ∈ w.claims root, claim.lease.token = guard.lease.token := by
      obtain ⟨claim, hclaim, htoken⟩ := map_eq_some_iff.mp hlast
      exact ⟨claim, mem_of_getLast? hclaim, htoken⟩
    refine h.of_kept sound sound' hstep (fun writer hwriter => ?_) claims ⟨?_, ?_⟩ ?_
    · rwa [values, ExtTreeMap.getElem?_insert_of_ne (writerKey_ne_snapshotKey root _).symm,
        ExtTreeMap.getElem?_insert_of_ne (currentKey_ne_writerKey root)] at hwriter
    · rw [claims]
      exact h.increase.1
    · rw [publications, map_append, pairwise_append]
      refine ⟨h.increase.2, pairwise_singleton _ _, fun token htoken later hlater => ?_⟩
      rw [mem_singleton.mp hlater]
      obtain ⟨publication, hpublication, rfl⟩ := mem_map.mp htoken
      obtain ⟨claim, hclaim, hsame⟩ := h.published publication hpublication
      rw [← hsame]
      exact h.increase.le_last hlast claim hclaim
    · rw [publications]
      exact forall_mem_concat h.published hnew
  | @claimed p tick client tableId ttl current session value _ running table live free leased values
      reports =>
    have claims : w'.claims root
        = w.claims root ++ [⟨session, root, readRevision current⟩] :=
      congrArg Reports.claims reports
    have publications : w'.publications root = w.publications root :=
      congrArg Reports.publications reports
    have hclaimant : w.claimant root p = some session :=
      bind_eq_some_iff.mpr ⟨_, running, claiming_writerFrom⟩
    obtain ⟨lease, hlease, htoken, -⟩ := live
    have hspent : session.token < w.store.nextFencingToken :=
      htoken ▸ (sound.store.allocated hlease).token_lt
    obtain ⟨_, hchange⟩ := step_change hstep
    have hnext := hchange.advances.tokens
    refine ⟨⟨?_, ?_⟩, ?_, ?_, ?_, ?_⟩
    · rw [claims, map_append, pairwise_append]
      refine ⟨h.increase.1, pairwise_singleton _ _, fun token hmem later hlater => ?_⟩
      rw [mem_singleton.mp hlater]
      obtain ⟨guard, hguard, rfl⟩ := mem_map.mp hmem
      exact h.waiting hclaimant guard hguard
    · rw [publications]
      exact h.increase.2
    · rw [claims]
      exact forall_mem_concat (fun guard hguard => (h.granted guard hguard).trans_le hnext)
        (hspent.trans_le hnext)
    · intro q later hlater
      obtain ⟨process, hq, hclaiming⟩ := bind_eq_some_iff.mp hlater
      rw [claims]
      rcases sound.claiming_step hstep hq hclaiming with ⟨hbefore, hother⟩ | ⟨hnewest, -⟩
      · have hwaiting : w.claimant root q = some later :=
          bind_eq_some_iff.mpr ⟨process, hbefore, hclaiming⟩
        have hne : q ≠ p := by
          rintro rfl
          exact hother tick rfl
        exact forall_mem_concat (h.waiting hwaiting)
          (hallowed p tick session rfl hclaimant free q later hne hwaiting)
      · rw [hnewest]
        exact forall_mem_concat h.granted hspent
    · intro writer lease' hwriter hlease'
      rw [values, ExtTreeMap.getElem?_insert_self] at hwriter
      cases hwriter
      rw [leased] at hlease'
      rw [claims, getLast?_concat, hchange.fencingToken_eq hlease hlease', htoken]
      rfl
    · rw [publications, claims]
      intro publication hmem
      obtain ⟨guard, hguard, hsame⟩ := h.published publication hmem
      exact ⟨guard, mem_append_left _ hguard, hsame⟩

end

theorem Ordered.opened (untouched : Untouched root store) : Ordered root { store } := by
  refine ⟨⟨List.Pairwise.nil, List.Pairwise.nil⟩, forall_mem_nil _,
    fun _ => forall_mem_nil _, fun {writer _} hwriter _ => ?_, forall_mem_nil _⟩
  have : store.values[writerKey root]? = some writer := hwriter
  rw [untouched _ (isPrefix_writerKey root)] at this
  cases this

/-- In every run in which the claims on a table are made in the order of their grants, the tokens
of its successive writers increase and those of its publications never decrease. -/
theorem tokens_increase (opened : Opened store)
    (hroot : IsTableRoot root) (untouched : Untouched root store)
    (run : Reaches catalogs (GrantOrder root) { store } w) : TokensIncrease root w := by
  have hinvariant : Ordered root w :=
    (Sound.opened opened).table_induct hroot run (Ordered.opened untouched)
      fun sound sound' hallowed hstep step h => h.step sound sound' hallowed hstep step
  exact hinvariant.increase

theorem grantOrder_of_alone (h : w.processes.toList.length ≤ 1) : GrantOrder root w action := by
  intro p tick session _ hp _ q later hne hq
  obtain ⟨process, hp, -⟩ := bind_eq_some_iff.mp hp
  obtain ⟨other, hq, -⟩ := bind_eq_some_iff.mp hq
  rw [← ExtTreeMap.mem_toList_iff_getElem?_eq_some] at hp hq
  cases hlist : w.processes.toList with
  | nil =>
    rw [hlist] at hp
    cases hp
  | cons entry entries =>
    rw [hlist, length_cons] at h
    obtain rfl : entries = [] := length_eq_zero_iff.mp (by omega)
    rw [hlist] at hp hq
    rw [← mem_singleton.mp hp] at hq
    exact absurd (congrArg Prod.fst (mem_singleton.mp hq)) hne

theorem tokens_increase_twoWriters :
    ∃ w : World, (w.claims someRoot).map (·.lease.token) = [1, 2]
      ∧ (w.publications someRoot).map (·.guard.lease.token) = [1, 1, 2]
      ∧ TokensIncrease someRoot w := by
  have hplay : (World.play oneCatalog (fun w _ => w.processes.toList.length ≤ 1)
      { store := emptyStore } twoWriters).map
      (fun w => ((w.claims someRoot).map (·.lease.token),
        (w.publications someRoot).map (·.guard.lease.token))) = some ([1, 2], [1, 1, 2]) := by
    decide +kernel
  obtain ⟨w, hw, hexpected⟩ := map_eq_some_iff.mp hplay
  obtain ⟨hclaims, hpublications⟩ := Prod.mk.inj hexpected
  have run : Reaches oneCatalog (GrantOrder someRoot) { store := emptyStore } w :=
    Reaches.of_play (fun _ _ hcheck => grantOrder_of_alone (of_decide_eq_true hcheck)) hw
  exact ⟨w, hclaims, hpublications,
    tokens_increase emptyStore_opened isTableRoot_someRoot untouched_emptyStore run⟩

/-! ## One writer at a time -/

/-- A value that is gone has taken its lease with it. -/
def Cleaned (s s' : InMemoryMetadataStore) : Prop :=
  ∀ (key : ByteSequence) (value : KeyValue), s.values[key]? = some value →
    s'.values[key]? = some value ∨ s'.leases[value.leaseId]? = none

theorem removeLeases_cleaned {s s' : InMemoryMetadataStore}
    {code : LeaseResultCode} {result : LeaseCleanupResult × Option EventBatch}
    (wf : WellFormed initial s) (h : removeLeases ids code s = .ok result s') : Cleaned s s' := by
  intro key value hvalue
  by_cases hid : value.leaseId ∈ ids
  · obtain ⟨-, -, ⟨rfl, -⟩ | ⟨-, attached, -, -, -, rfl⟩⟩ := removeLeases_eq_ok h
    · cases hid
    · refine .inr (eq_none_iff_forall_ne_some.mpr fun lease hlease => ?_)
      exact (getElem?_eraseLeases_eq_some.mp hlease).1 hid
  · exact .inl ((removeLeases_released wf h).2.mpr ⟨hvalue, hid⟩)

/-- A step that releases leases removes them with their keys. -/
theorem Releasing.cleaned (origin : Releasing w action ids)
    (wf : WellFormed initial w.store) (h : w.step catalogs action = some w') :
    Cleaned w.store w'.store := by
  have hsame : Cleaned w.store w.store := fun _ _ hvalue => .inl hvalue
  cases origin with
  | @expired tick =>
    cases h
    refine (atomic_expireLeases tick).state_induct (P := Cleaned w.store) (fun result s hrun => ?_)
      hsame
    obtain ⟨-, t, hremove, rfl⟩ := expireLeases_eq_ok hrun
    have hcleaned := removeLeases_cleaned wf hremove
    exact hcleaned
  | @revoked p tick operation id token next ids running own =>
    have hstore : w'.store
        = (revokeLease { id, fencingToken := token, tick } w.store).state := by
      rw [step_advance running h, settle_store]
      refine (onStore_store _ _).trans ((ofStore_state _ _).trans ?_)
      exact EStateM.state_bind_pure _ _ _
    rw [hstore]
    refine (atomic_revokeLease _).state_induct (P := Cleaned w.store) (fun result s hrun => ?_)
      hsame
    obtain ⟨-, ⟨lease, t, -, -, hremove, rfl⟩ | ⟨-, -, rfl⟩⟩ := revokeLease_eq_ok hrun
    · have hcleaned := removeLeases_cleaned wf hremove
      exact hcleaned
    · exact hsame

/-- The guard's lease holds the writer key of its table. -/
def Owns (root : ByteSequence) (s : InMemoryMetadataStore) (guard : WriterGuard) : Prop :=
  ∃ writer, s.values[writerKey root]? = some writer ∧ writer.leaseId = guard.lease.id

/-- Every guard of the table that was ever handed out has lost its lease for good, or it is the
last one and its lease holds the writer key. -/
def SoleWriter (root : ByteSequence) (w : World) : Prop :=
  ∀ guard ∈ w.claims root, Gone w.store guard.lease.id guard.lease.token
    ∨ (w.claims root).getLast? = some guard ∧ Owns root w.store guard

structure Exclusive (root : ByteSequence) (w : World) : Prop where
  sole : SoleWriter root w
  spent : ∀ guard ∈ w.claims root, guard.lease.token < w.store.nextFencingToken

/-- A step that makes no claim, and removes the writer key only with its lease. -/
theorem Exclusive.of_kept (h : Exclusive root w) (hstep : w.step catalogs action = some w')
    (claims : (w'.reports catalogs root).claims = w.claims root)
    (kept : ∀ writer, w.store.values[writerKey root]? = some writer →
      w'.store.values[writerKey root]? = some writer
        ∨ w'.store.leases[writer.leaseId]? = none) : Exclusive root w' := by
  replace claims : w'.claims root = w.claims root := claims
  obtain ⟨_, hchange⟩ := step_change hstep
  have hspent : ∀ guard ∈ w.claims root, guard.lease.token < w'.store.nextFencingToken :=
    fun guard hguard => (h.spent guard hguard).trans_le hchange.advances.tokens
  refine ⟨fun guard hguard => ?_, by rwa [claims]⟩
  rw [claims] at hguard ⊢
  rcases h.sole guard hguard with hgone | ⟨hlast, writer, hwriter, hleased⟩
  · exact .inl (hgone.change hchange)
  · rcases kept writer hwriter with hwriter | hnone
    · exact .inr ⟨hlast, writer, hwriter, hleased⟩
    · refine .inl ⟨hspent guard hguard, fun {lease} hlease => ?_⟩
      rw [← hleased, hnone] at hlease
      cases hlease

theorem Exclusive.step (sound : Sound catalogs initial w) (h : Exclusive root w)
    (hstep : w.step catalogs action = some w') (step : TableStep catalogs root w action w') :
    Exclusive root w' := by
  cases step with
  | quiet kept reports =>
    refine h.of_kept hstep (congrArg Reports.claims reports) fun writer hwriter => .inl ?_
    rw [kept _ (isPrefix_writerKey root), hwriter]
  | published _ _ _ _ _ _ _ values _ _ reports =>
    refine h.of_kept hstep (congrArg Reports.claims reports) fun writer hwriter => .inl ?_
    rw [values, ExtTreeMap.getElem?_insert_of_ne (writerKey_ne_snapshotKey root _).symm,
      ExtTreeMap.getElem?_insert_of_ne (currentKey_ne_writerKey root), hwriter]
  | registered _ _ _ _ _ _ _ values reports =>
    refine h.of_kept hstep (congrArg Reports.claims reports) fun writer hwriter => .inl ?_
    rw [values, ExtTreeMap.getElem?_insert_of_ne (writerKey_ne_readerKey root _).symm, hwriter]
  | collected _ _ _ _ values reports =>
    refine h.of_kept hstep (congrArg Reports.claims reports) fun writer hwriter => .inl ?_
    rw [values, if_neg (writerKey_ne_snapshotKey root _), hwriter]
  | released removed origin reports =>
    exact h.of_kept hstep (congrArg Reports.claims reports) fun writer hwriter =>
      origin.cleaned sound.store hstep _ writer hwriter
  | @claimed _ _ _ _ _ current session writer _ _ _ live free leased values reports =>
    have claims : w'.claims root
        = w.claims root ++ [⟨session, root, readRevision current⟩] :=
      congrArg Reports.claims reports
    obtain ⟨_, hchange⟩ := step_change hstep
    have hnext := hchange.advances.tokens
    obtain ⟨lease, hlease, htoken, -⟩ := live
    constructor
    · unfold SoleWriter
      rw [claims]
      refine forall_mem_concat (fun guard hguard => ?_) (.inr ?_)
      · -- the table was free, so no earlier guard still owned it
        rcases h.sole guard hguard with hgone | ⟨-, writer, hwriter, -⟩
        · exact .inl (hgone.change hchange)
        · rw [free] at hwriter
          cases hwriter
      · refine ⟨getLast?_concat, writer, ?_, leased⟩
        rw [values, ExtTreeMap.getElem?_insert_self]
    · rw [claims]
      exact forall_mem_concat (fun guard hguard => (h.spent guard hguard).trans_le hnext)
        ((htoken ▸ (sound.store.allocated hlease).token_lt).trans_le hnext)

/-- **One writer at a time.** In every run, of all the guards of a table that clients have ever
been handed, only the last can still have its lease, and then the writer key is under it. -/
theorem sole_writer (opened : Opened store)
    (hroot : IsTableRoot root) (run : Reaches catalogs anything { store } w) :
    SoleWriter root w := by
  have hinvariant : Exclusive root w :=
    (Sound.opened opened).table_induct hroot run ⟨List.forall_mem_nil _, List.forall_mem_nil _⟩
      fun sound _ _ hstep step h => h.step sound hstep step
  exact hinvariant.sole

/-- The first of two writers has closed its guard, the second one still has its lease. -/
theorem sole_writer_twoWriters :
    ∃ w : World, (w.claims someRoot).map (·.lease.token) = [1, 2] ∧ SoleWriter someRoot w := by
  have hplay : (World.play oneCatalog (fun _ _ => true) { store := emptyStore } twoWriters).map
      (fun w => (w.claims someRoot).map (·.lease.token)) = some [1, 2] := by
    decide +kernel
  obtain ⟨w, hw, hclaims⟩ := map_eq_some_iff.mp hplay
  exact ⟨w, hclaims, sole_writer emptyStore_opened isTableRoot_someRoot
    (Reaches.of_play (fun _ _ _ => trivial) hw)⟩

/-! ## Overtaking -/

/-- The first client has its lease and stops; the second one acquires the table, publishes and
closes its guard; then the first one claims the table with its older lease, and publishes. -/
def overtaking : List Action :=
  [.start 0 (.acquireWriter 0 someTable 10), .advance 0 1, .advance 0 1,
   .start 1 (.acquireWriter 1 someTable 10), .advance 1 1, .advance 1 1, .advance 1 1,
   .start 2 (.publishSnapshot 1 ⟨⟨2, 2⟩, someRoot, 0⟩ 0 (somePointer (ascii ['1']))),
   .advance 2 2, .advance 2 2,
   .start 3 (.close ⟨2, 2⟩), .advance 3 3, .advance 3 3,
   .advance 0 3,
   .start 4 (.publishSnapshot 0 ⟨⟨1, 1⟩, someRoot, 0⟩ 2 (somePointer (ascii ['2']))),
   .advance 4 4, .advance 4 4]

/-- A claim that is overtaken by a later grant gives the next writer an older token. -/
theorem overtaking_tokens_decrease :
    ¬ ∀ w, Reaches oneCatalog anything { store := emptyStore } w → TokensIncrease someRoot w := by
  have hplay : (World.play oneCatalog (fun _ _ => true) { store := emptyStore } overtaking).map
      (fun w => ((w.claims someRoot).map (·.lease.token),
        (w.publications someRoot).map (·.guard.lease.token))) = some ([2, 1], [2, 1]) := by
    decide +kernel
  obtain ⟨w, hw, hexpected⟩ := map_eq_some_iff.mp hplay
  obtain ⟨hclaims, -⟩ := Prod.mk.inj hexpected
  intro h
  have hincrease := (h w (Reaches.of_play (fun _ _ _ => trivial) hw)).1
  rw [hclaims] at hincrease
  revert hincrease
  decide

end KuraMetadata.Kura
