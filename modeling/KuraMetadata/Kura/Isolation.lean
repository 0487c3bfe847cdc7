import KuraMetadata.Kura.Tokens

/-! # Tables are isolated

An operation on a table asks for keys of that table only. What it can reach beyond its requests
is the lease it was granted, which it revokes if it has lost; no key of any table is attached to
that lease then. -/

namespace KuraMetadata.Kura

open Std InMemoryMetadataStore List Calls

variable {catalogs : Nat → Identifier} {initial : Int} {w w' : World}
variable {root other key : ByteSequence} {action : Action} {operation : ClientOperation}
variable {process : Process} {request : Request}
variable {next : Except ClientException LeaseCleanupResult → Program Outcome}
variable {session : LeaseSession} {tick p : Nat} {value : KeyValue} {store : InMemoryMetadataStore}
variable {allowed : World → Action → Prop} {program : Program Outcome}

/-! ## Footprints -/

/-- The keys an operation of a transaction reads, writes or deletes. -/
def RequestOperation.touches (key : ByteSequence) : RequestOperation → Bool
  | .range request => request.range.containsKey key
  | .put request => request.key = key
  | .delete request => request.range.containsKey key

/-- The keys a call reads, writes, deletes, scans or watches. -/
def Request.touches (key : ByteSequence) : Request → Bool
  | .get requested => requested = key
  | .transaction _ request =>
    request.comparisons.any (fun comparison => comparison.key = key)
      || request.success.any (RequestOperation.touches key)
      || request.failure.any (RequestOperation.touches key)
  | .createWatch _ request =>
    if request.range.stop.isEmpty then request.range.start = key
    else request.range.containsKey key
  | .collectSnapshotIfUnreferenced currentKey snapshotKey readersStart readersEnd _ =>
    currentKey = key || snapshotKey = key
      || KeyRange.containsKey ⟨readersStart, readersEnd⟩ key
  | _ => false

/-- The path of the table an operation is on. The calls on a session name no key; what closing one
does to the tables is `close_isolated`. -/
def ClientOperation.table (catalogs : Nat → Identifier) : ClientOperation → Option ByteSequence
  | .acquireWriter client tableId _ | .registerReader client tableId _ _
  | .awaitSnapshotChange client tableId _ _ _ | .collectSnapshot client tableId _
  | .currentSnapshot client tableId => some (tableRoot (catalogs client) tableId)
  | .publishSnapshot _ guard _ _ => some guard.tablePrefix
  | .keepAlive _ | .close _ => none

/-- The call asks for keys of the table only. -/
def Confined (root : ByteSequence) (request : Request) : Prop :=
  ∀ key, request.touches key = true → root <+: key

theorem confined_get (h : root <+: key) : Confined root (.get key) := by
  intro other hother
  simp only [Request.touches, decide_eq_true_eq] at hother
  exact hother ▸ h

theorem confined_claim (client : Nat) (session : LeaseSession) :
    Confined root (.transaction client (claimRequest root session)) := by
  intro key hkey
  simp only [Request.touches, claimRequest, numericCompare, any_cons, any_nil,
    Bool.or_false, RequestOperation.touches, Bool.or_self, decide_eq_true_eq] at hkey
  exact hkey ▸ isPrefix_writerKey root

theorem confined_publish (client : Nat) (guard : WriterGuard) (expectedRevision : Int)
    (snapshotId encoded : ByteSequence) :
    Confined guard.tablePrefix
      (.transaction client (publishRequest guard expectedRevision snapshotId encoded)) := by
  intro key hkey
  simp only [Request.touches, publishRequest, numericCompare, any_cons, any_nil,
    Bool.or_false, RequestOperation.touches, Bool.or_eq_true, decide_eq_true_eq] at hkey
  rcases hkey with (rfl | rfl) | (rfl | rfl)
  · exact isPrefix_currentKey _
  · exact isPrefix_writerKey _
  · exact isPrefix_currentKey _
  · exact isPrefix_snapshotKey _ _

theorem confined_register (client : Nat) (readerId : ByteSequence) (session : LeaseSession)
    (snapshotId encoded : ByteSequence) :
    Confined root
      (.transaction client (registerRequest root readerId session snapshotId encoded)) := by
  intro key hkey
  simp only [Request.touches, registerRequest, any_cons, any_nil, Bool.or_false,
    RequestOperation.touches, Bool.or_eq_true, decide_eq_true_eq] at hkey
  rcases hkey with rfl | rfl
  · exact isPrefix_snapshotKey _ _
  · exact isPrefix_readerKey _ _

theorem confined_collect {readersEnd : ByteSequence} (snapshotId : ByteSequence)
    (range : prefixRangeEnd (readersRoot root) = some readersEnd) :
    Confined root (.collectSnapshotIfUnreferenced (currentKey root) (snapshotKey root snapshotId)
      (readersRoot root) readersEnd snapshotId) := by
  intro key hkey
  simp only [Request.touches, Bool.or_eq_true, decide_eq_true_eq] at hkey
  rcases hkey with (rfl | rfl) | hkey
  · exact isPrefix_currentKey _
  · exact isPrefix_snapshotKey _ _
  · exact (prefix_append _ _).trans ((containsKey_prefixRange range key).mp hkey)

theorem confined_watch (client : Nat) (watchId fromRevision : Int) :
    Confined root (.createWatch client (watchRequest root watchId fromRevision)) := by
  intro key hkey
  have hcurrent : currentKey root = key := of_decide_eq_true hkey
  exact hcurrent ▸ isPrefix_currentKey root

theorem confined_of_untouching (h : ∀ key, request.touches key = false) :
    Confined root request := by
  intro key hkey
  rw [h key] at hkey
  cases hkey

theorem confined_perform (h : Confined root request) :
    (perform request : Program (Answer request)).Every (Confined root) :=
  every_perform h

theorem claimWriter_confined (client : Nat) (current : StoreRead) (session : LeaseSession) :
    (claimWriter client root current session).Every (Confined root) := by
  refine Every.bind (confined_perform (confined_claim client session)) fun claim => ?_
  split
  · exact Every.bind (confined_perform (confined_of_untouching fun _ => rfl)) fun _ => trivial
  · trivial

theorem registerSession_confined (client : Nat) (snapshot : SnapshotPointer)
    (encoded : ByteSequence) (session : LeaseSession) (sequence : Nat) :
    (registerSession client root snapshot encoded session sequence).Every (Confined root) := by
  refine Every.bind (confined_perform (confined_register _ _ _ _ _)) fun registration => ?_
  split
  · exact Every.bind (confined_perform (confined_of_untouching fun _ => rfl)) fun _ => trivial
  · trivial

theorem publishSnapshot_confined (client : Nat) (guard : WriterGuard) (expectedRevision : Int)
    (pointer : SnapshotPointer) :
    (publishSnapshot client guard expectedRevision pointer).Every (Confined guard.tablePrefix) := by
  have hget : Confined guard.tablePrefix (.get (currentKey guard.tablePrefix)) :=
    confined_get (isPrefix_currentKey _)
  refine Every.bind (confined_perform (confined_of_untouching fun _ => rfl)) fun active => ?_
  split
  · trivial
  refine Every.bind (every_ofExcept _) fun encoded => Every.tryCatch ?_ fun e => ?_
  · refine Every.bind (confined_perform (confined_publish _ _ _ _ _)) fun result => ?_
    split
    · exact Every.bind (confined_perform hget) fun current =>
        Every.bind (every_ofExcept _) fun _ => trivial
    · trivial
  · unfold recoverPublish
    split
    · trivial
    refine Every.bind (confined_perform hget) fun current => ?_
    cases current.value with
    | none => trivial
    | some value =>
      dsimp only
      split <;> trivial

/-- Every call of an operation on a table asks for keys of that table only. -/
theorem program_confined (operation : ClientOperation)
    (htable : operation.table catalogs = some root) :
    (operation.program catalogs).Every (Confined root) := by
  have hsame : ∀ {catalogId : Identifier} {tableId root' : ByteSequence},
      tableRoot catalogId tableId = root → tablePrefix catalogId tableId = .ok root' →
      root = root' := fun hroot hok => hroot.symm.trans (tablePrefix_eq_ok.mp hok).2
  have hget : ∀ {catalogId : Identifier} {tableId : ByteSequence},
      tableRoot catalogId tableId = root → ∀ root', tablePrefix catalogId tableId = .ok root' →
      Confined root (.get (currentKey root')) :=
    fun hroot root' hok => hsame hroot hok ▸ confined_get (isPrefix_currentKey root)
  have hsilent : ∀ {request : Request}, (∀ key, request.touches key = false) →
      (perform request : Program (Answer request)).Every (Confined root) :=
    fun h => confined_perform (confined_of_untouching h)
  cases operation with
  | acquireWriter client tableId ttl =>
    refine Every.bind ?_ fun _ => trivial
    unfold acquireWriter
    split
    · trivial
    refine every_ofExcept_bind fun root' hok => ?_
    obtain rfl := hsame (Option.some.inj htable) hok
    refine Every.bind (confined_perform (confined_get (isPrefix_currentKey root)))
      fun current => ?_
    exact Every.bind (hsilent fun _ => rfl) fun granted => claimWriter_confined _ _ _
  | publishSnapshot client guard expectedRevision pointer =>
    cases htable
    exact (publishSnapshot_confined _ _ _ _).bind fun _ => trivial
  | registerReader client tableId snapshot ttl =>
    refine Every.bind ?_ fun _ => trivial
    unfold registerReader
    split
    · trivial
    refine Every.bind (every_ofExcept _) fun encoded => ?_
    refine every_ofExcept_bind fun root' hok => ?_
    obtain rfl := hsame (Option.some.inj htable) hok
    refine Every.bind (hsilent fun _ => rfl) fun granted => ?_
    exact Every.bind (hsilent fun _ => rfl) fun sequence =>
      registerSession_confined _ _ _ _ _
  | awaitSnapshotChange client tableId fromRevision timeout polls =>
    refine Every.bind ?_ fun _ => trivial
    refine awaitSnapshotChange_every (hget (Option.some.inj htable))
      (fun _ => confined_of_untouching fun _ => rfl) (confined_of_untouching fun _ => rfl)
      (fun _ => confined_of_untouching fun _ => rfl) fun root' watchId hok => ?_
    obtain rfl := hsame (Option.some.inj htable) hok
    exact confined_watch _ _ _
  | collectSnapshot client tableId snapshotId =>
    refine Every.bind ?_ fun _ => trivial
    refine Every.bind (every_ofExcept _) fun _ => ?_
    refine every_ofExcept_bind fun root' hok => ?_
    obtain rfl := hsame (Option.some.inj htable) hok
    cases hrange : prefixRangeEnd (readersRoot root) with
    | none => trivial
    | some readersEnd => exact confined_perform (confined_collect snapshotId hrange)
  | currentSnapshot client tableId =>
    exact (currentSnapshot_every (hget (Option.some.inj htable))).bind fun _ => trivial
  | keepAlive session | close session => cases htable

/-! ## Leases that are not used yet -/

/-- The operation has been granted a lease and has not ended. -/
inductive Held : ClientOperation → Program Outcome → LeaseSession → Prop
  | claim {client : Nat} {tableId root : ByteSequence} {ttl : Int} {current : StoreRead}
      {session : LeaseSession} :
      Held (.acquireWriter client tableId ttl) (writerFrom client root current session) session
  | loseWriter {client : Nat} {tableId : ByteSequence} {ttl : Int} {session : LeaseSession} :
      Held (.acquireWriter client tableId ttl) (loseWriterFrom session) session
  | sequence {client : Nat} {tableId root encoded : ByteSequence} {snapshot : SnapshotPointer}
      {ttl : Int} {session : LeaseSession} :
      Held (.registerReader client tableId snapshot ttl)
        (sequenceFrom client root snapshot encoded session) session
  | register {client sequence : Nat} {tableId root encoded : ByteSequence}
      {snapshot : SnapshotPointer} {ttl : Int} {session : LeaseSession} :
      Held (.registerReader client tableId snapshot ttl)
        (readerFrom client root snapshot encoded session sequence) session
  | loseReader {client : Nat} {tableId : ByteSequence} {snapshot : SnapshotPointer} {ttl : Int}
      {session : LeaseSession} :
      Held (.registerReader client tableId snapshot ttl) (loseReaderFrom session) session

section

variable {client client' sequence sequence' : Nat} {root' encoded encoded' : ByteSequence}
variable {current current' : StoreRead} {snapshot snapshot' : SnapshotPointer}
variable {session session' : LeaseSession}

theorem writerFrom_session
    (h : writerFrom client root current session = writerFrom client' root' current' session') :
    session = session' :=
  (claimRequest_inj (Request.transaction.inj (call.inj h).1).2).2

theorem readerFrom_session
    (h : readerFrom client root snapshot encoded session sequence
      = readerFrom client' root' snapshot' encoded' session' sequence') : session = session' := by
  have hrequest := (Request.transaction.inj (call.inj h).1).2
  have howned := (List.cons.inj (congrArg TransactionRequest.leaseOwnership hrequest)).1
  obtain ⟨id, token⟩ := session
  obtain ⟨id', token'⟩ := session'
  cases howned
  rfl

theorem sequenceFrom_session
    (h : sequenceFrom client root snapshot encoded session
      = sequenceFrom client' root' snapshot' encoded' session') : session = session' := by
  obtain ⟨hrequest, hnext⟩ := call.inj h
  cases hrequest
  have hsame : readerFrom client root snapshot encoded session 0
      = readerFrom client root' snapshot' encoded' session' 0 :=
    congrFun (eq_of_heq hnext) (show Except ClientException Nat from .ok 0)
  exact readerFrom_session hsame

theorem revokeLease_session {next' : Except ClientException LeaseCleanupResult → Program Outcome}
    (h : (.call (.revokeLease session.id session.token) next : Program Outcome)
      = .call (.revokeLease session'.id session'.token) next') : session = session' := by
  obtain ⟨hid, htoken⟩ := Request.revokeLease.inj (call.inj h).1
  obtain ⟨id, token⟩ := session
  obtain ⟨id', token'⟩ := session'
  cases hid
  cases htoken
  rfl

end

theorem not_held_start : ¬ Held operation (operation.program catalogs) session := by
  intro h
  generalize hprogram : operation.program catalogs = program at h
  cases h with
  | @claim client tableId _ ttl _ | @loseWriter client tableId ttl =>
    rcases acquireWriter_program client tableId ttl with ⟨e, h⟩ | ⟨_, -, h⟩
    · rw [h] at hprogram
      cases hprogram
    · rw [h] at hprogram
      cases hprogram
  | @sequence client tableId _ _ snapshot ttl | @register client _ tableId _ _ snapshot ttl
  | @loseReader client tableId snapshot ttl =>
    rcases registerReader_program client tableId snapshot ttl with ⟨e, h⟩ | ⟨_, _, -, -, h⟩
    · rw [h] at hprogram
      cases hprogram
    · rw [h] at hprogram
      cases hprogram

theorem answer_granted {ttl : Nat} {granted : LeaseGrantResult}
    (h : (w.answer tick (.grantLease ttl)).1 = .ok granted) :
    (sessionOf granted).token = w.store.nextFencingToken
      ∧ (w.answer tick (.grantLease ttl)).2.store.nextFencingToken = w.store.nextFencingToken + 1
      ∧ ∀ lease, (w.answer tick (.grantLease ttl)).2.store.leases[(sessionOf granted).id]?
        = some lease → lease.attachedKeys = ∅ := by
  rcases answer_grantLease w tick ttl with ⟨e, hreply⟩ | ⟨granted', hreply, hgranted⟩
  · rw [h] at hreply
    cases hreply
  · rw [h] at hreply
    cases hreply
    exact hgranted

/-- An operation that holds a lease after a step has held it before, or the step has granted it
under the newest token. -/
theorem Sound.held_step {q : Nat} (sound : Sound catalogs initial w)
    (h : w.step catalogs action = some w') (hq : w'.processes[q]? = some process)
    (hheld : Held process.operation process.program session) :
    (∃ earlier, w.processes[q]? = some earlier ∧ Held earlier.operation earlier.program session)
      ∨ (∃ tick, action = .advance q tick) ∧ session.token = w.store.nextFencingToken
        ∧ w'.store.nextFencingToken = w.store.nextFencingToken + 1
        ∧ ∀ lease, w'.store.leases[session.id]? = some lease → lease.attachedKeys = ∅ := by
  rcases process_of_step h hq with ⟨hq, -⟩
    | ⟨v, operation, program, before, tick, rfl, rfl, horigin⟩
  · exact .inl ⟨process, hq, hheld⟩
  rw [settle_store]
  cases horigin with
  | started => exact absurd hheld not_held_start
  | @answered request next tick running =>
    have hwithin := (sound.running running).1
    replace hheld : Held operation (next (w.answer tick request).1) session := hheld
    generalize hprogram : next (w.answer tick request).1 = program at hheld
    generalize hreply : (w.answer tick request).1 = reply at hprogram
    -- the call before, case by case: only a grant leads to a lease that was not held yet
    cases hheld with
    | claim | loseWriter =>
      obtain ⟨root, -, phase⟩ := writerPhase_of_within hwithin
      generalize hcall : Calls.call request next = called at phase
      cases phase with
      | read | lose session => cases hcall; cases reply <;> cases hprogram
      | grant current =>
        cases hcall
        cases reply with
        | error e => cases hprogram
        | ok granted =>
          first
            | cases hprogram
            | obtain rfl := writerFrom_session hprogram
              exact .inr ⟨⟨tick, rfl⟩, answer_granted hreply⟩
      | claim current session =>
        cases hcall
        cases reply with
        | error e => cases hprogram
        | ok claim =>
          obtain ⟨header, succeeded, responses⟩ := claim
          cases succeeded <;> first
            | cases hprogram
            | obtain rfl := revokeLease_session hprogram
              exact .inl ⟨_, running, Held.claim⟩
    | sequence | register | loseReader =>
      obtain ⟨root, encoded, -, -, phase⟩ := readerPhase_of_within hwithin
      generalize hcall : Calls.call request next = called at phase
      cases phase with
      | lose session => cases hcall; cases reply <;> cases hprogram
      | grant =>
        cases hcall
        cases reply with
        | error e => cases hprogram
        | ok granted =>
          first
            | cases hprogram
            | obtain rfl := sequenceFrom_session hprogram
              exact .inr ⟨⟨tick, rfl⟩, answer_granted hreply⟩
      | sequence session =>
        cases hcall
        cases reply with
        | error e => cases hprogram
        | ok sequence =>
          first
            | cases hprogram
            | obtain rfl := readerFrom_session hprogram
              exact .inl ⟨_, running, Held.sequence⟩
      | register session sequence =>
        cases hcall
        cases reply with
        | error e => cases hprogram
        | ok registration =>
          obtain ⟨header, succeeded, responses⟩ := registration
          cases succeeded <;> first
            | cases hprogram
            | obtain rfl := revokeLease_session hprogram
              exact .inl ⟨_, running, Held.register⟩

/-! ## Attachments of table keys -/

theorem finished_of_running (h : w.step catalogs (.advance p tick) = some w')
    (hp : w'.processes[p]? = some process) :
    w'.finished = w.finished := by
  rcases step_settles h with
    ⟨hfinished, -, -⟩ | ⟨v, q, operation, program, before, tick, rfl, hfinished, -, horigin⟩
  · exact hfinished
  cases horigin
  rcases settle_processes hp with ⟨hne, -⟩ | ⟨-, -, request, next, hcall⟩
  · exact absurd rfl hne
  · rw [hcall]
    exact hfinished

/-- A table key that is attached to a lease was so before the step, or the step is the last call
of an operation on the table that holds the lease. -/
theorem TableStep.attached (step : TableStep catalogs root w action w')
    (hkey : root <+: key) (hvalue : w'.store.values[key]? = some value)
    (hleased : value.leaseId ≠ 0) :
    w.store.values[key]? = some value
      ∨ ∃ p tick process session, action = .advance p tick ∧ w.processes[p]? = some process
        ∧ process.operation.table catalogs = some root
        ∧ Held process.operation process.program session ∧ value.leaseId = session.id
        ∧ Live w.store session tick ∧ w'.finished ≠ w.finished := by
  cases step with
  | quiet kept reports =>
    rw [kept key hkey] at hvalue
    exact .inl hvalue
  | @claimed p tick _ _ _ _ session _ _ running table live free leased values reports =>
    rw [values, ExtTreeMap.getElem?_insert_eq_some] at hvalue
    rcases hvalue with ⟨-, rfl⟩ | ⟨-, hvalue⟩
    · refine .inr ⟨p, tick, _, session, rfl, running, congrArg some table, Held.claim, leased,
        live, fun hsame => ?_⟩
      have hclaims := congrArg Reports.claims (reports.symm.trans (reports_of_finished hsame))
      simp [World.reports] at hclaims
    · exact .inl hvalue
  | published running held table encodes live expected owned values currentValue snapshotValue
      reports =>
    rw [values, ExtTreeMap.getElem?_insert_eq_some, ExtTreeMap.getElem?_insert_eq_some] at hvalue
    rcases hvalue with ⟨-, rfl⟩ | ⟨-, ⟨-, rfl⟩ | ⟨-, hvalue⟩⟩
    · exact absurd snapshotValue.2 hleased
    · exact absurd currentValue.2.1 hleased
    · exact .inl hvalue
  | @registered p tick _ _ _ _ _ _ session _ _ running table encodes live found reads leased values
      reports =>
    rw [values, ExtTreeMap.getElem?_insert_eq_some] at hvalue
    rcases hvalue with ⟨-, rfl⟩ | ⟨-, hvalue⟩
    · refine .inr ⟨p, tick, _, session, rfl, running, congrArg some table, Held.register,
        leased, live, fun hsame => ?_⟩
      have hregistrations :=
        congrArg Reports.registrations (reports.symm.trans (reports_of_finished hsame))
      simp [World.reports] at hregistrations
    · exact .inl hvalue
  | collected running table range unreferenced values reports =>
    rw [values] at hvalue
    split at hvalue
    · cases hvalue
    · exact .inl hvalue
  | released removed origin reports => exact .inl (removed.2.mp hvalue).1

/-- No key of a table is attached to a lease that an operation holds and has not used yet. -/
structure Unused (w : World) : Prop where
  spent : ∀ {p : Nat} {process : Process} {session : LeaseSession},
    w.processes[p]? = some process → Held process.operation process.program session →
    session.token < w.store.nextFencingToken
  distinct : ∀ {p q : Nat} {process process' : Process} {session session' : LeaseSession}, p ≠ q →
    w.processes[p]? = some process → w.processes[q]? = some process' →
    Held process.operation process.program session →
    Held process'.operation process'.program session' → session.token ≠ session'.token
  unattached : ∀ {p : Nat} {process : Process} {session : LeaseSession},
    w.processes[p]? = some process → Held process.operation process.program session →
    ∀ {lease : StoredLease}, w.store.leases[session.id]? = some lease →
    lease.fencingToken = session.token → ∀ key ∈ lease.attachedKeys,
    ∀ {root : ByteSequence}, IsTableRoot root → ¬ root <+: key

theorem Unused.step (sound : Sound catalogs initial w) (sound' : Sound catalogs initial w')
    (h : Unused w) (hstep : w.step catalogs action = some w') : Unused w' := by
  obtain ⟨_, hchange⟩ := step_change hstep
  have hnext := hchange.advances.tokens
  constructor
  · intro p process session hp hheld
    rcases sound.held_step hstep hp hheld with ⟨earlier, hp, hheld⟩ | ⟨-, htoken, hgranted, -⟩
    · exact (h.spent hp hheld).trans_le hnext
    · omega
  · intro p q process process' session session' hne hp hq hheld hheld'
    rcases sound.held_step hstep hp hheld with
      ⟨earlier, hp, hheld⟩ | ⟨⟨_, haction⟩, htoken, -, -⟩
    · rcases sound.held_step hstep hq hheld' with ⟨earlier', hq, hheld'⟩ | ⟨-, htoken', -, -⟩
      · exact h.distinct hne hp hq hheld hheld'
      · have := h.spent hp hheld
        omega
    · rcases sound.held_step hstep hq hheld' with
        ⟨earlier', hq, hheld'⟩ | ⟨⟨_, haction'⟩, -, -, -⟩
      · have := h.spent hq hheld'
        omega
      · rw [haction] at haction'
        cases haction'
        exact absurd rfl hne
  · intro q process session hq hheld lease' hlease' htoken' key hkey root hroot hprefix
    obtain ⟨value, hvalue, hleased⟩ := sound'.store.index.bound hlease' key hkey
    have hne : session.id ≠ 0 := by
      intro hzero
      rw [hzero, sound'.store.index.positive] at hlease'
      cases hlease'
    have hbefore := sound.held_step hstep hq hheld
    rcases (sound.tableStep hroot hstep).attached hprefix hvalue (hleased ▸ hne) with
      hold | ⟨p, tick, holder, session₁, rfl, hp, -, hheld₁, hleased₁, live, hfinished⟩
    · -- the key was attached before, so the lease is not a new one
      obtain ⟨lease, hlease, hattached⟩ := sound.store.index.attached hold (hleased ▸ hne)
      rw [hleased] at hlease
      have htoken : lease.fencingToken = session.token :=
        (hchange.fencingToken_eq hlease hlease').symm.trans htoken'
      rcases hbefore with ⟨earlier, hq, hheld⟩ | ⟨-, -, -, hempty⟩
      · exact h.unattached hq hheld hlease htoken key hattached hroot hprefix
      · rw [hempty lease' hlease'] at hkey
        exact absurd hkey (by simp)
    · -- the step has attached it, for an operation that has ended with it
      obtain ⟨lease, hlease, htoken, -⟩ := live
      rw [← hleased₁, hleased] at hlease
      have hsame : session₁.token = session.token := by
        rw [← htoken, ← htoken', hchange.fencingToken_eq hlease hlease']
      rcases hbefore with ⟨earlier, hq₀, hheld⟩ | ⟨-, htoken, -, -⟩
      · by_cases hpq : p = q
        · subst hpq
          exact hfinished (finished_of_running hstep hq)
        · exact h.distinct hpq hp hq₀ hheld₁ hheld hsame
      · have := h.spent hp hheld₁
        omega

theorem Unused.reaches
    (opened : Opened store) (run : Reaches catalogs allowed { store } w) : Unused w := by
  induction run with
  | refl =>
    have hnone : ∀ {p : Nat} {process : Process}, (∅ : ExtTreeMap Nat Process compare)[p]?
        ≠ some process := by
      intro p process hp
      rw [ExtTreeMap.getElem?_empty] at hp
      cases hp
    exact ⟨fun hp _ => absurd hp hnone, fun _ hp _ _ _ => absurd hp hnone,
      fun hp _ => absurd hp hnone⟩
  | snoc run _ hstep ih =>
    have sound := (Sound.opened opened).reaches run
    exact ih.step sound (sound.step hstep) hstep

/-- Such a lease is not the lease of a table key. -/
theorem Unused.detached
    (sound : Sound catalogs initial w) (h : Unused w) (hp : w.processes[p]? = some process)
    (hheld : Held process.operation process.program session)
    (hvalue : w.store.values[key]? = some value) (hleased : value.leaseId = session.id)
    (hne : value.leaseId ≠ 0) (hlive : ∃ lease, w.store.leases[value.leaseId]? = some lease
      ∧ lease.fencingToken = session.token) (hroot : IsTableRoot root) :
    ¬ root <+: key := by
  obtain ⟨lease, hlease, htoken⟩ := hlive
  obtain ⟨lease', hlease', hattached⟩ := sound.store.index.attached hvalue hne
  rw [hlease] at hlease'
  cases hlease'
  rw [hleased] at hlease
  exact h.unattached hp hheld hlease htoken key hattached hroot

/-- No lease has keys of both tables. -/
def Apart (root other : ByteSequence) (w : World) : Prop :=
  ∀ {key key' : ByteSequence} {value value' : KeyValue}, root <+: key → other <+: key' →
    w.store.values[key]? = some value → w.store.values[key']? = some value' →
    value.leaseId = value'.leaseId → value.leaseId = 0

theorem Apart.step (sound : Sound catalogs initial w) (unused : Unused w) (hroot : IsTableRoot root)
    (hother : IsTableRoot other) (hne : other ≠ root) (h : Apart root other w)
    (hstep : w.step catalogs action = some w') : Apart root other w' := by
  intro key key' value value' hkey hkey' hvalue hvalue' hsame
  by_contra hzero
  rcases (sound.tableStep hroot hstep).attached hkey hvalue hzero with
    hold | ⟨p, tick, _, _, rfl, hp, htable, hheld, hleased, ⟨lease, hlease, htoken, -⟩, -⟩
  · rcases (sound.tableStep hother hstep).attached hkey' hvalue' (hsame ▸ hzero) with
      hold' | ⟨p, tick, _, _, rfl, hp, -, hheld, hleased, ⟨lease, hlease, htoken, -⟩, -⟩
    · exact hzero (h hkey hkey' hold hold' hsame)
    · exact unused.detached sound hp hheld hold (hsame.trans hleased) hzero
        ⟨lease, hsame ▸ hleased ▸ hlease, htoken⟩ hroot hkey
  · rcases (sound.tableStep hother hstep).attached hkey' hvalue' (hsame ▸ hzero) with
      hold' | ⟨_, _, _, _, haction, hp', htable', -⟩
    · exact unused.detached sound hp hheld hold' (hsame.symm.trans hleased) (hsame ▸ hzero)
        ⟨lease, hsame ▸ hleased ▸ hlease, htoken⟩ hother hkey'
    · -- both keys are written by the one operation that has taken the step
      cases haction
      rw [hp] at hp'
      cases hp'
      rw [htable] at htable'
      exact hne (Option.some.inj htable').symm

theorem Apart.reaches
    (opened : Opened store) (hroot : IsTableRoot root) (hother : IsTableRoot other)
    (hne : other ≠ root) (untouched : Untouched other store)
    (run : Reaches catalogs allowed { store } w) : Apart root other w := by
  induction run with
  | refl =>
    intro key key' value value' _ hkey' _ hvalue'
    rw [untouched key' hkey'] at hvalue'
    cases hvalue'
  | snoc run _ hstep ih =>
    exact ih.step ((Sound.opened opened).reaches run) (Unused.reaches opened run) hroot hother hne
      hstep

/-! ## Isolation -/

/-- The keys that the calls of an operation ask for. -/
def Footprint (catalogs : Nat → Identifier) (operation : ClientOperation) (key : ByteSequence) :
    Prop :=
  ∃ request next, (operation.program catalogs).Within (fun _ _ => True) (.call request next)
    ∧ request.touches key = true

theorem Footprint.isPrefix (h : Footprint catalogs operation key)
    (htable : operation.table catalogs = some root) :
    root <+: key := by
  obtain ⟨request, next, hwithin, htouches⟩ := h
  exact (program_confined operation htable).of_within hwithin key htouches

theorem held_of_revoke {id : Int} {token : Nat} (htable : operation.table catalogs = some root)
    (h : (operation.program catalogs).Within inProcess (.call (.revokeLease id token) next)) :
    Held operation (.call (.revokeLease id token) next) ⟨id, token⟩ := by
  have howner : operation.revokes = true := by
    have hsite := site_of_within h
    generalize hprogram : (.call (.revokeLease id token) next : Program Outcome) = program at hsite
    cases hsite with
    | silent harmless plain =>
      cases hprogram
      cases harmless
    | revoke owner plain => exact owner
    | claim | publish | register | collect => cases hprogram
  cases operation with
  | acquireWriter client tableId ttl =>
    obtain ⟨root', -, phase⟩ := writerPhase_of_within h
    generalize hprogram : (.call (.revokeLease id token) next : Program Outcome) = program
      at phase ⊢
    cases phase with
    | lose session =>
      obtain ⟨rfl, rfl⟩ := Request.revokeLease.inj (call.inj hprogram).1
      exact Held.loseWriter
    | read | grant | claim => cases hprogram
  | registerReader client tableId snapshot ttl =>
    obtain ⟨root', encoded, -, -, phase⟩ := readerPhase_of_within h
    generalize hprogram : (.call (.revokeLease id token) next : Program Outcome) = program
      at phase ⊢
    cases phase with
    | lose session =>
      obtain ⟨rfl, rfl⟩ := Request.revokeLease.inj (call.inj hprogram).1
      exact Held.loseReader
    | grant | sequence | register => cases hprogram
  | close session => cases htable
  | publishSnapshot | awaitSnapshotChange | collectSnapshot | currentSnapshot | keepAlive =>
    cases howner

/-- A call of an operation on one table leaves the keys of every other table. -/
theorem step_keeps_other (sound : Sound catalogs initial w)
    (unused : Unused w) (running : w.processes[p]? = some process)
    (htable : process.operation.table catalogs = some root) (hother : IsTableRoot other)
    (hne : other ≠ root) (hstep : w.step catalogs (.advance p tick) = some w') :
    ∀ key, other <+: key → w'.store.values[key]? = w.store.values[key]? := by
  have hmoved : ∀ {process' : Process}, w.processes[p]? = some process' →
      process'.operation.table catalogs ≠ some other := by
    intro process' hp hsame
    rw [running] at hp
    cases hp
    rw [htable] at hsame
    exact hne (Option.some.inj hsame).symm
  have step := sound.tableStep hother hstep
  generalize haction : Action.advance p tick = action at step
  cases step with
  | quiet kept reports => exact kept
  | claimed running' table | registered running' table | collected running' table
  | published running' held table =>
    cases haction
    exact absurd (congrArg some table) (hmoved running')
  | released removed origin reports =>
    intro key hkey
    refine Option.ext fun value => ?_
    rw [removed.2]
    refine ⟨And.left, fun hvalue => ⟨hvalue, fun hid => ?_⟩⟩
    cases origin with
    | expired => cases haction
    | @revoked _ _ operation id token next _ running' own =>
      cases haction
      rw [running] at running'
      cases running'
      -- the operation holds the lease, and no table key is attached to it
      have hheld := held_of_revoke htable (sound.running running).1
      obtain ⟨hsame, lease, hlease, htoken⟩ := own _ hid
      exact unused.detached sound running hheld hvalue hsame (fun hzero => removed.1 (hzero ▸ hid))
        ⟨lease, hlease, htoken⟩ hother hkey

/-- A table key that closing a session has changed was attached to the session's lease. -/
theorem TableStep.revoked (step : TableStep catalogs root w (.advance p tick) w')
    (running : w.processes[p]? = some ⟨.close session, program⟩) (hkey : root <+: key)
    (hchanged : w'.store.values[key]? ≠ w.store.values[key]?) :
    ∃ id token next value, program = .call (.revokeLease id token) next
      ∧ w.store.values[key]? = some value ∧ value.leaseId = id ∧ id ≠ 0 := by
  generalize haction : Action.advance p tick = action at step
  cases step with
  | quiet kept reports => exact absurd (kept key hkey) hchanged
  | claimed running' | published running' | registered running' | collected running' =>
    cases haction
    rw [running] at running'
    cases running'
  | released removed origin reports =>
    cases origin with
    | expired => cases haction
    | @revoked _ _ operation id token next ids running' own =>
      cases haction
      rw [running] at running'
      cases running'
      by_contra! hnone
      refine hchanged (Option.ext fun value => ?_)
      rw [removed.2]
      refine ⟨And.left, fun hvalue => ⟨hvalue, fun hid => removed.1 ?_⟩⟩
      have hsame := (own _ hid).1
      rw [hsame] at hid
      exact hnone id token next value rfl hvalue hsame ▸ hid

/-- Closing a session that has changed a key of one table leaves every key of every other table. -/
theorem close_isolated (opened : Opened store) (untouched : Untouched other store)
    (run : Reaches catalogs anything { store } w)
    (running : w.processes[p]? = some ⟨.close session, program⟩)
    (hstep : w.step catalogs (.advance p tick) = some w') (hroot : IsTableRoot root)
    (hother : IsTableRoot other) (hne : other ≠ root) (hkey : root <+: key)
    (hchanged : w'.store.values[key]? ≠ w.store.values[key]?) :
    ∀ key', other <+: key' → w'.store.values[key']? = w.store.values[key']? := by
  have sound := (Sound.opened opened).reaches run
  obtain ⟨id, token, next, value, rfl, hvalue, hleased, hzero⟩ :=
    (sound.tableStep hroot hstep).revoked running hkey hchanged
  intro key' hkey'
  by_contra hchanged'
  obtain ⟨_, _, _, value', hcall, hvalue', hleased', -⟩ :=
    (sound.tableStep hother hstep).revoked running hkey' hchanged'
  obtain ⟨rfl, -⟩ := Request.revokeLease.inj (call.inj hcall).1
  exact hzero (hleased ▸ Apart.reaches opened hroot hother hne untouched run hkey hkey' hvalue
    hvalue' (hleased.trans hleased'.symm))

/-- Operations on two tables ask for disjoint sets of keys, the keys of one table are distinct, and
in every run each call of an operation on one table leaves every key of every other table, and the
result of every comparison on it, as they were. -/
theorem tables_isolated (catalogs : Nat → Identifier) :
    (∀ {catalogId tableId catalogId' tableId' : ByteSequence}, IsIdentifier catalogId →
      IsIdentifier tableId → IsIdentifier catalogId' → IsIdentifier tableId' →
      (catalogId, tableId) ≠ (catalogId', tableId') →
      ∀ operation operation' : ClientOperation,
        operation.table catalogs = some (tableRoot catalogId tableId) →
        operation'.table catalogs = some (tableRoot catalogId' tableId') →
        ∀ key, Footprint catalogs operation key → ¬ Footprint catalogs operation' key)
      ∧ (∀ root id id' : ByteSequence,
        [currentKey root, writerKey root, snapshotKey root id, readerKey root id'].Nodup
          ∧ (snapshotKey root id = snapshotKey root id' → id = id')
          ∧ (readerKey root id = readerKey root id' → id = id'))
      ∧ ∀ {store : InMemoryMetadataStore} {w w' : World} {p tick : Nat} {process : Process}
          {root other : ByteSequence}, Opened store → Reaches catalogs anything { store } w →
          w.processes[p]? = some process → process.operation.table catalogs = some root →
          IsTableRoot other → other ≠ root → w.step catalogs (.advance p tick) = some w' →
          (∀ key, other <+: key → w'.store.values[key]? = w.store.values[key]?)
            ∧ ∀ comparison : Compare, other <+: comparison.key →
              evaluateComparison w'.store.values comparison
                = evaluateComparison w.store.values comparison := by
  refine ⟨?_, ?_, ?_⟩
  · intro catalogId tableId catalogId' tableId' hcatalog htable hcatalog' htable' hne operation
      operation' hon hon' key hkey hkey'
    obtain ⟨rest, hrest⟩ := hkey.isPrefix hon
    obtain ⟨rest', hrest'⟩ := hkey'.isPrefix hon'
    obtain ⟨rfl, rfl, -⟩ :=
      tableRoot_append_inj hcatalog htable hcatalog' htable' (hrest.trans hrest'.symm)
    exact hne rfl
  · intro root id id'
    exact ⟨by simp, (snapshotKey_inj root id id').mp, (readerKey_inj root id id').mp⟩
  · intro store w w' p tick process root other opened run running htable hother hne hstep
    have hkept := step_keeps_other ((Sound.opened opened).reaches run) (Unused.reaches opened run)
      running htable hother hne hstep
    refine ⟨hkept, fun comparison hkey => ?_⟩
    unfold evaluateComparison
    rw [hkept _ hkey]

def otherTable : ByteSequence := ascii ['u']

def otherRoot : ByteSequence := tableRoot (ascii ['c']) otherTable

/-- Two tables have their writers, and a third client is about to revoke the lease with which it
has not become the writer of one of them. -/
def lostClaim : List Action :=
  [.start 0 (.acquireWriter 0 otherTable 10), .advance 0 1, .advance 0 1, .advance 0 1,
   .start 1 (.acquireWriter 0 someTable 10), .advance 1 1, .advance 1 1, .advance 1 1,
   .start 2 (.acquireWriter 1 someTable 10), .advance 2 2, .advance 2 2, .advance 2 2]

theorem tables_isolated_lostClaim :
    ∃ w w' : World, w.step oneCatalog (.advance 2 3) = some w'
      ∧ w'.store.revision = w.store.revision + 1
      ∧ w.store.values[writerKey otherRoot]?.isSome = true
      ∧ w'.store.values[writerKey otherRoot]? = w.store.values[writerKey otherRoot]? := by
  have hplay : (World.play oneCatalog (fun _ _ => true) { store := emptyStore } lostClaim).map
      (fun w => (w.processes[2]?.map (·.operation), w.store.values[writerKey otherRoot]?.isSome,
        (w.step oneCatalog (.advance 2 3)).map fun w' => w'.store.revision - w.store.revision))
        = some (some (.acquireWriter 1 someTable 10), true, some 1) := by
    decide +kernel
  obtain ⟨w, hw, hend⟩ := Option.map_eq_some_iff.mp hplay
  obtain ⟨hoperation, hend⟩ := Prod.mk.inj hend
  obtain ⟨hpresent, hstep⟩ := Prod.mk.inj hend
  obtain ⟨process, hprocess, hacquires⟩ := Option.map_eq_some_iff.mp hoperation
  obtain ⟨w', hw', hrevision⟩ := Option.map_eq_some_iff.mp hstep
  have run : Reaches oneCatalog anything { store := emptyStore } w :=
    Reaches.of_play (fun _ _ _ => trivial) hw
  have hother : IsTableRoot otherRoot :=
    ⟨ascii ['c'], otherTable, by decide +kernel, by decide +kernel, rfl⟩
  have htable : process.operation.table oneCatalog = some someRoot := by
    rw [hacquires]
    rfl
  have hkept :=
    ((tables_isolated oneCatalog).2.2 emptyStore_opened run hprocess htable hother (by decide)
      hw').1
  exact ⟨w, w', hw', by omega, hpresent, hkept _ (isPrefix_writerKey otherRoot)⟩

end KuraMetadata.Kura
