import KuraMetadata.Kura.World

/-! # The call sites of the client

Where an operation can stand when it makes a call, and what it does with the answer. Most calls
only read, or change the client's own counters and flags; the others are the grant and the use
of a lease, the publication and the collection. -/

namespace KuraMetadata.Kura

open Calls

variable {e : ClientException} {operation : ClientOperation} {client : Nat} {tableId : ByteSequence}
variable {guard : WriterGuard} {pointer snapshot : SnapshotPointer} {ttl : Int}
variable {catalogs : Nat → Identifier} {request : Request}
variable {next : Except ClientException (Answer request) → Program Outcome}

/-- The calls that can change the values of the store. -/
def Request.writes : Request → Bool
  | .transaction _ _ | .revokeLease _ _ | .collectSnapshotIfUnreferenced _ _ _ _ _ => true
  | _ => false

/-- The operations that revoke a lease. -/
def ClientOperation.revokes : ClientOperation → Bool
  | .acquireWriter _ _ _ | .registerReader _ _ _ _ | .close _ => true
  | _ => false

/-- The outcomes that hand out no guard and report no publication. -/
def Outcome.plain : Outcome → Bool
  | .writer _ | .reader _ => false
  | .published result => !result.published
  | _ => true

/-- The answers of the in-process backend: only a collection throws an error of the client, when
it decodes the current pointer. -/
def inProcess : (request : Request) → Except ClientException (Answer request) → Prop
  | .collectSnapshotIfUnreferenced _ _ _ _ _, _ => True
  | _, .error (.kuraClientError _ _) => False
  | _, _ => True

theorem onStore_ofStore_inProcess {α : Type} (w : World) (x : StoreM α) {code : StatusCode}
    {message : String} : (w.onStore (ofStore x)).1 ≠ .error (.kuraClientError code message) := by
  unfold World.onStore ofStore
  cases x w.store with
  | ok a s | error e s => exact fun h => by cases h

theorem answer_inProcess (w : World) (tick : Nat) (request : Request) :
    inProcess request (w.answer tick request).1 := by
  have hstandard : ∀ {request : Request} {reply : Except ClientException (Answer request)},
      (∀ code message, reply ≠ .error (.kuraClientError code message)) →
      inProcess request reply := by
    intro request reply h
    unfold inProcess
    split
    · trivial
    · exact h _ _ rfl
    · trivial
  cases request
  case collectSnapshotIfUnreferenced => trivial
  case createWatch client request =>
    refine hstandard fun code message => ?_
    show (w.createWatch client request).1 ≠ _
    unfold World.createWatch
    cases InMemoryMetadataStore.createWatch request w.store with
    | ok response s | error e s => exact fun h => by cases h
  case cancelWatch | takeSequence | takeWatchId | loadActive | clearActive | exchangeClosed =>
    exact hstandard fun code message h => by cases h
  all_goals exact hstandard fun code message => onStore_ofStore_inProcess _ _

/-! ## Operations from one of their calls on -/

section

variable (client : Nat) (root : ByteSequence)

/-- `acquire_writer` from its claim on. -/
def writerFrom (current : StoreRead) (session : LeaseSession) : Program Outcome := do
  return .writer (← claimWriter client root current session)

/-- `acquire_writer` after it has lost its claim. -/
def loseWriterFrom (session : LeaseSession) : Program Outcome := do
  return .writer
    (← (do
      let _ ← Backend.revokeLease session.id session.token
      throw (.kuraClientError .comparisonFailed "another writer owns the table")))

/-- `acquire_writer` from the grant of its lease on. -/
def grantWriterFrom (ttl : Int) (current : StoreRead) : Program Outcome := do
  let granted ← Backend.grantLease ttl.toNat
  writerFrom client root current (sessionOf granted)

/-- `register_reader` from its registration on. -/
def readerFrom (snapshot : SnapshotPointer) (encoded : ByteSequence) (session : LeaseSession)
    (sequence : Nat) : Program Outcome := do
  return .reader (← registerSession client root snapshot encoded session sequence)

/-- `register_reader` after it has not found its snapshot. -/
def loseReaderFrom (session : LeaseSession) : Program Outcome := do
  return .reader
    (← (do
      let _ ← Backend.revokeLease session.id session.token
      throw (.kuraClientError .comparisonFailed "snapshot is not registered")))

/-- `register_reader` once it has its lease. -/
def sequenceFrom (snapshot : SnapshotPointer) (encoded : ByteSequence) (session : LeaseSession) :
    Program Outcome := do
  let sequence ← takeSequence client
  readerFrom client root snapshot encoded session sequence

/-- `register_reader` from the grant of its lease on. -/
def grantReaderFrom (snapshot : SnapshotPointer) (encoded : ByteSequence) (ttl : Int) :
    Program Outcome := do
  let granted ← Backend.grantLease ttl.toNat
  sequenceFrom client root snapshot encoded (sessionOf granted)

end

/-- `publish_snapshot` from its transaction on. -/
def publishFrom (client : Nat) (guard : WriterGuard) (expectedRevision : Int)
    (pointer : SnapshotPointer) (encoded : ByteSequence) : Program Outcome := do
  return .published
    (← tryCatch (tryPublish client guard expectedRevision pointer encoded)
      (recoverPublish guard pointer encoded))

/-- A pointer that cannot be decoded is a corruption, not an uncertain response. -/
theorem decodeRead_error {read : StoreRead} (h : decodeRead read = .error e) :
    e.uncertain = false := by
  have hdecode : ∀ input : ByteSequence,
      (decodePointer input).Ensures (fun e => e.uncertain = false) fun _ => True := by
    intro input
    have hfield : ∀ offset, (readField input offset).Ensures (fun e => e.uncertain = false)
        fun _ => True := by
      intro offset
      refine Except.Ensures.bind (P := fun _ => True) ?_ fun _ _ => ?_
      · exact Except.ensures_ite_error (fun _ => rfl) fun _ => trivial
      · exact Except.ensures_ite_error (fun _ => rfl) fun _ => trivial
    refine Except.ensures_ite_error (fun _ => rfl) fun _ => ?_
    refine (hfield _).bind fun _ _ => (hfield _).bind fun _ _ => ?_
    refine (hfield _).bind fun _ _ => (hfield _).bind fun _ _ => ?_
    exact Except.ensures_ite_error (fun _ => rfl) fun _ => trivial
  unfold decodeRead at h
  cases hvalue : read.value with
  | none =>
    rw [hvalue] at h
    cases h
  | some value =>
    rw [hvalue] at h
    have hensures := hdecode value.value
    cases hdecoded : decodePointer value.value with
    | ok pointer =>
      simp only [hdecoded] at h
      cases h
    | error e' =>
      rw [hdecoded] at hensures
      simp only [hdecoded] at h
      cases h
      exact hensures

/-! ## Phases

The operations that use a lease, call by call. -/

/-- Where `acquire_writer` stands at a call. -/
inductive WriterPhase (client : Nat) (root : ByteSequence) (ttl : Int) : Program Outcome → Prop
  | read : WriterPhase client root ttl
      (Backend.get (currentKey root) >>= grantWriterFrom client root ttl)
  | grant (current : StoreRead) : WriterPhase client root ttl
      (grantWriterFrom client root ttl current)
  | claim (current : StoreRead) (session : LeaseSession) : WriterPhase client root ttl
      (writerFrom client root current session)
  | lose (session : LeaseSession) : WriterPhase client root ttl (loseWriterFrom session)

/-- Where `register_reader` stands at a call. -/
inductive ReaderPhase (client : Nat) (root : ByteSequence) (snapshot : SnapshotPointer)
    (encoded : ByteSequence) (ttl : Int) : Program Outcome → Prop
  | grant : ReaderPhase client root snapshot encoded ttl
      (grantReaderFrom client root snapshot encoded ttl)
  | sequence (session : LeaseSession) : ReaderPhase client root snapshot encoded ttl
      (sequenceFrom client root snapshot encoded session)
  | register (session : LeaseSession) (sequence : Nat) :
      ReaderPhase client root snapshot encoded ttl
        (readerFrom client root snapshot encoded session sequence)
  | lose (session : LeaseSession) : ReaderPhase client root snapshot encoded ttl
      (loseReaderFrom session)

/-- `acquire_writer` throws before it has made a call, or begins with a read. -/
theorem acquireWriter_program (client : Nat) (tableId : ByteSequence) (ttl : Int) :
    (∃ e, (ClientOperation.acquireWriter client tableId ttl).program catalogs = .done (.error e))
      ∨ ∃ root, tablePrefix (catalogs client) tableId = .ok root
        ∧ (ClientOperation.acquireWriter client tableId ttl).program catalogs
          = Backend.get (currentKey root) >>= grantWriterFrom client root ttl := by
  simp only [ClientOperation.program, acquireWriter]
  split
  · exact .inl ⟨_, rfl⟩
  cases tablePrefix (catalogs client) tableId with
  | error e => exact .inl ⟨e, rfl⟩
  | ok root =>
    refine .inr ⟨root, rfl, ?_⟩
    simp only [ofExcept_ok, pure_bind, bind_assoc]
    rfl

/-- `register_reader` throws before it has made a call, or begins with a grant. -/
theorem registerReader_program (client : Nat) (tableId : ByteSequence) (snapshot : SnapshotPointer)
    (ttl : Int) :
    (∃ e, (ClientOperation.registerReader client tableId snapshot ttl).program catalogs
        = .done (.error e))
      ∨ ∃ root encoded, tablePrefix (catalogs client) tableId = .ok root
        ∧ encodePointer snapshot = .ok encoded
        ∧ (ClientOperation.registerReader client tableId snapshot ttl).program catalogs
          = grantReaderFrom client root snapshot encoded ttl := by
  simp only [ClientOperation.program, registerReader]
  split
  · exact .inl ⟨_, rfl⟩
  cases encodePointer snapshot with
  | error e => exact .inl ⟨e, rfl⟩
  | ok encoded =>
    cases tablePrefix (catalogs client) tableId with
    | error e => exact .inl ⟨e, rfl⟩
    | ok root =>
      refine .inr ⟨root, encoded, rfl, rfl, ?_⟩
      simp only [ofExcept_ok, pure_bind, bind_assoc]
      rfl

theorem writerPhase_of_within
    (h : ((ClientOperation.acquireWriter client tableId ttl).program catalogs).Within inProcess
      (.call request next)) :
    ∃ root, tablePrefix (catalogs client) tableId = .ok root
      ∧ WriterPhase client root ttl (.call request next) := by
  rcases acquireWriter_program client tableId ttl with ⟨e, hprogram⟩ | ⟨root, htable, hprogram⟩
  · rw [hprogram] at h
    exact absurd h not_within_done
  refine ⟨root, htable, ?_⟩
  rw [hprogram] at h
  rcases h.of_perform with h | ⟨current, -, h⟩
  · exact h ▸ WriterPhase.read
  rcases h.of_perform with h | ⟨granted, -, h⟩
  · exact h ▸ WriterPhase.grant current
  rcases h with h | ⟨reply, -, h⟩
  · exact h ▸ WriterPhase.claim current (sessionOf granted)
  cases reply with
  | error e => exact absurd h not_within_done
  | ok claim =>
    obtain ⟨header, succeeded, responses⟩ := claim
    cases succeeded with
    | true => exact absurd h not_within_done
    | false =>
      rcases h with h | ⟨reply, -, h⟩
      · exact h ▸ WriterPhase.lose (sessionOf granted)
      · cases reply <;> exact absurd h not_within_done

theorem readerPhase_of_within
    (h : ((ClientOperation.registerReader client tableId snapshot ttl).program catalogs).Within
      inProcess (.call request next)) :
    ∃ root encoded, tablePrefix (catalogs client) tableId = .ok root
      ∧ encodePointer snapshot = .ok encoded
      ∧ ReaderPhase client root snapshot encoded ttl (.call request next) := by
  rcases registerReader_program client tableId snapshot ttl with
    ⟨e, hprogram⟩ | ⟨root, encoded, htable, hencoded, hprogram⟩
  · rw [hprogram] at h
    exact absurd h not_within_done
  refine ⟨root, encoded, htable, hencoded, ?_⟩
  rw [hprogram] at h
  rcases h.of_perform with h | ⟨granted, -, h⟩
  · exact h ▸ ReaderPhase.grant
  rcases h.of_perform with h | ⟨sequence, -, h⟩
  · exact h ▸ ReaderPhase.sequence (sessionOf granted)
  rcases h with h | ⟨reply, -, h⟩
  · exact h ▸ ReaderPhase.register (sessionOf granted) sequence
  cases reply with
  | error e => exact absurd h not_within_done
  | ok registration =>
    obtain ⟨header, succeeded, responses⟩ := registration
    cases succeeded with
    | true => exact absurd h not_within_done
    | false =>
      rcases h with h | ⟨reply, -, h⟩
      · exact h ▸ ReaderPhase.lose (sessionOf granted)
      · cases reply <;> exact absurd h not_within_done

/-! ## Sites -/

/-- Where an operation stands at a call. -/
inductive Site (catalogs : Nat → Identifier) : ClientOperation → Program Outcome → Prop
  | silent {operation : ClientOperation} {request : Request}
      {next : Except ClientException (Answer request) → Program Outcome}
      (harmless : request.writes = false)
      (plain : ∀ reply, inProcess request reply → ∀ outcome,
        next reply = .done (.ok outcome) → outcome.plain = true) :
      Site catalogs operation (.call request next)
  | claim {client : Nat} {tableId root : ByteSequence} {ttl : Int} {current : StoreRead}
      {session : LeaseSession} (table : tablePrefix (catalogs client) tableId = .ok root) :
      Site catalogs (.acquireWriter client tableId ttl) (writerFrom client root current session)
  | publish {client : Nat} {guard : WriterGuard} {expectedRevision : Int}
      {pointer : SnapshotPointer} {encoded : ByteSequence}
      (encodes : encodePointer pointer = .ok encoded) :
      Site catalogs (.publishSnapshot client guard expectedRevision pointer)
        (publishFrom client guard expectedRevision pointer encoded)
  | register {client : Nat} {tableId root encoded : ByteSequence} {ttl : Int}
      {snapshot : SnapshotPointer} {session : LeaseSession} {sequence : Nat}
      (table : tablePrefix (catalogs client) tableId = .ok root)
      (encodes : encodePointer snapshot = .ok encoded) :
      Site catalogs (.registerReader client tableId snapshot ttl)
        (readerFrom client root snapshot encoded session sequence)
  | revoke {operation : ClientOperation} {id : Int} {token : Nat}
      {next : Except ClientException LeaseCleanupResult → Program Outcome}
      (owner : operation.revokes = true)
      (plain : ∀ reply outcome, next reply = .done (.ok outcome) → outcome.plain = true) :
      Site catalogs operation (.call (.revokeLease id token) next)
  | collect {client : Nat} {tableId root readersEnd snapshotId : ByteSequence}
      {next : Except ClientException Bool → Program Outcome}
      (table : tablePrefix (catalogs client) tableId = .ok root)
      (identifier : IsIdentifier snapshotId)
      (range : prefixRangeEnd (readersRoot root) = some readersEnd)
      (plain : ∀ reply outcome, next reply = .done (.ok outcome) → outcome.plain = true) :
      Site catalogs (.collectSnapshot client tableId snapshotId)
        (.call (.collectSnapshotIfUnreferenced (currentKey root) (snapshotKey root snapshotId)
          (readersRoot root) readersEnd snapshotId) next)

variable {encoded : ByteSequence} {expectedRevision : Int}

/-- A call whose answer decides nothing but what is returned. -/
theorem Site.of_perform {request' : Request} {f : Answer request' → Program Outcome}
    (harmless : request'.writes = false)
    (plain : ∀ a, inProcess request' (.ok a) → ∀ outcome, f a = .done (.ok outcome) →
      outcome.plain = true) (h : Calls.call request next = perform request' >>= f) :
    Site catalogs operation (.call request next) := by
  rw [h]
  refine Site.silent harmless fun reply hreply outcome hdone => ?_
  cases reply with
  | ok a => exact plain a hreply outcome hdone
  | error e => cases hdone

theorem acquireWriter_site
    (h : ((ClientOperation.acquireWriter client tableId ttl).program catalogs).Within inProcess
      (.call request next)) :
    Site catalogs (.acquireWriter client tableId ttl) (.call request next) := by
  obtain ⟨root, htable, phase⟩ := writerPhase_of_within h
  generalize hprogram : Calls.call request next = program at phase
  cases phase with
  | read =>
    rw [← hprogram]
    exact Site.of_perform rfl (fun current _ outcome hdone => by cases hdone) hprogram
  | grant current =>
    rw [← hprogram]
    exact Site.of_perform rfl (fun granted _ outcome hdone => by cases hdone) hprogram
  | claim current session => exact Site.claim htable
  | lose session =>
    refine Site.revoke rfl fun reply outcome hdone => ?_
    cases reply <;> cases hdone

theorem registerReader_site
    (h : ((ClientOperation.registerReader client tableId snapshot ttl).program catalogs).Within
      inProcess (.call request next)) :
    Site catalogs (.registerReader client tableId snapshot ttl) (.call request next) := by
  obtain ⟨root, encoded, htable, hencoded, phase⟩ := readerPhase_of_within h
  generalize hprogram : Calls.call request next = program at phase
  cases phase with
  | grant =>
    rw [← hprogram]
    exact Site.of_perform rfl (fun granted _ outcome hdone => by cases hdone) hprogram
  | sequence session =>
    rw [← hprogram]
    exact Site.of_perform rfl (fun sequence _ outcome hdone => by cases hdone) hprogram
  | register session sequence => exact Site.register htable hencoded
  | lose session =>
    refine Site.revoke rfl fun reply outcome hdone => ?_
    cases reply <;> cases hdone

/-- An error that is not an uncertain one is thrown on. -/
theorem recoverPublish_certain (h : e.uncertain = false) :
    recoverPublish guard pointer encoded e = .done (.error e) := by
  unfold recoverPublish
  rw [h]
  rfl

theorem inProcess_certain
    (hcollect : ∀ a b c d id, request ≠ .collectSnapshotIfUnreferenced a b c d id)
    (h : inProcess request (.error e)) : e.uncertain = false := by
  cases e with
  | standard exception | lengthError what => rfl
  | kuraClientError code message =>
    cases request
    case collectSnapshotIfUnreferenced => exact absurd rfl (hcollect _ _ _ _ _)
    all_goals exact h.elim

/-- However the read of a conflict is answered, the publication ends with a conflict or an
error. -/
theorem conflictFrom_ends (guard : WriterGuard) (pointer : SnapshotPointer)
    (encoded : ByteSequence) (reply : Except ClientException StoreRead)
    (hreply : inProcess (.get (currentKey guard.tablePrefix)) reply) :
    ∃ ended : Except ClientException PublishResult,
      (do
        return Outcome.published (← tryCatch
          (do
            let current ← Calls.ofExcept reply
            return { status := .conflict, revision := readRevision current,
                     current := ← Calls.ofExcept (decodeRead current) })
          (recoverPublish guard pointer encoded)) : Program Outcome)
        = .done (ended.map .published)
      ∧ ∀ result, ended = .ok result → result.status = .conflict := by
  cases reply with
  | error e =>
    have hcertain := inProcess_certain (fun _ _ _ _ _ h => by cases h) hreply
    refine ⟨.error e, ?_, fun _ h => by cases h⟩
    simp only [ofExcept_error, throw_bind, tryCatch_throw,
      recoverPublish_certain hcertain]
    rfl
  | ok current =>
    cases hread : decodeRead current with
    | error e =>
      refine ⟨.error e, ?_, fun _ h => by cases h⟩
      simp only [ofExcept_ok, pure_bind, hread, ofExcept_error, throw_bind,
        tryCatch_throw, recoverPublish_certain (decodeRead_error hread)]
      rfl
    | ok found =>
      refine ⟨.ok ⟨.conflict, readRevision current, found⟩, ?_, fun result h => ?_⟩
      · simp only [ofExcept_ok, pure_bind, hread, tryCatch_pure]
        rfl
      · cases h
        rfl

/-- The transaction of a publication, and the read after it has failed. -/
theorem publishFrom_site (encodes : encodePointer pointer = .ok encoded)
    (h : (publishFrom client guard expectedRevision pointer encoded).Within inProcess
      (.call request next)) :
    Site catalogs (.publishSnapshot client guard expectedRevision pointer)
      (.call request next) := by
  rcases h with h | ⟨reply, hreply, h⟩
  · rw [h]
    exact Site.publish encodes
  cases reply with
  | error e =>
    have hcertain := inProcess_certain (fun _ _ _ _ _ h => by cases h) hreply
    change (recoverPublish guard pointer encoded e >>= _).Within _ _ at h
    rw [recoverPublish_certain hcertain] at h
    exact absurd h not_within_done
  | ok result =>
    obtain ⟨header, succeeded, responses⟩ := result
    cases succeeded with
    | true => exact absurd h not_within_done
    | false =>
      rcases h with h | ⟨reply, hreply, h⟩
      · rw [h]
        refine Site.silent rfl fun reply hreply outcome hdone => ?_
        obtain ⟨ended, hended, hstatus⟩ := conflictFrom_ends guard pointer encoded reply hreply
        have hsame := hended.symm.trans hdone
        cases ended with
        | error e => cases hsame
        | ok result =>
          cases hsame
          simp [Outcome.plain, PublishResult.published, hstatus result rfl]
      · obtain ⟨ended, hended, -⟩ := conflictFrom_ends guard pointer encoded reply hreply
        have hwithin := congrArg (Within inProcess · (.call request next)) hended
        exact absurd (hwithin.mp h) not_within_done

theorem publishSnapshot_site
    (h : ((ClientOperation.publishSnapshot client guard expectedRevision pointer).program
      catalogs).Within inProcess (.call request next)) :
    Site catalogs (.publishSnapshot client guard expectedRevision pointer)
      (.call request next) := by
  simp only [ClientOperation.program, publishSnapshot, bind_assoc] at h
  rcases h.of_perform with h | ⟨active, -, h⟩
  · refine Site.of_perform rfl (fun active _ outcome hdone => ?_) h
    cases active with
    | false => cases hdone
    | true =>
      cases hencoded : encodePointer pointer with
      | error e | ok encoded =>
        rw [hencoded] at hdone
        cases hdone
  cases active with
  | false => exact absurd h not_within_done
  | true =>
    cases hencoded : encodePointer pointer with
    | error e =>
      rw [hencoded] at h
      exact absurd h not_within_done
    | ok encoded =>
      simp only [hencoded, Bool.not_true, Bool.false_eq_true, if_false, ofExcept_ok,
        pure_bind] at h
      exact publishFrom_site hencoded h

/-! ## Operations that write nothing -/

/-- The calls that leave the values of the store alone. -/
def Harmless (request : Request) : Prop := request.writes = false

theorem harmless_perform (h : request.writes = false) :
    (perform request : Program (Answer request)).Every Harmless :=
  every_perform h

section

variable {P : Request → Prop} {catalogId : Identifier}
variable (hget : ∀ root, tablePrefix catalogId tableId = .ok root → P (.get (currentKey root)))
include hget

theorem currentSnapshot_every : (currentSnapshot catalogId tableId).Every P := by
  refine every_ofExcept_bind fun root hok => ?_
  refine Every.bind (every_perform (hget root hok)) fun current => ?_
  exact Every.bind (every_ofExcept _) fun _ => every_pure _

theorem resynchronize_every : (resynchronize catalogId tableId).Every P :=
  (currentSnapshot_every hget).bind fun _ => every_pure _

variable (hpoll : ∀ watchId, P (.pollWatch watchId))
include hpoll

theorem pollOnce_every {watchId : Int} {again : Program (Option SnapshotUpdate)}
    (hagain : again.Every P) : (pollOnce catalogId tableId watchId again).Every P := by
  refine Every.bind (every_perform (hpoll watchId)) fun response => ?_
  cases response with
  | none => exact hagain
  | some response =>
    dsimp only
    split
    · exact resynchronize_every hget
    · cases firstPut response.events with
      | none => exact hagain
      | some put => exact Every.bind (every_ofExcept _) fun _ => every_pure _

/-- What holds of the calls that `await_snapshot_change` makes, one by one. -/
theorem awaitSnapshotChange_every {fromRevision timeout : Int} {polls : Nat}
    (htake : P (.takeWatchId client)) (hcancel : ∀ watchId, P (.cancelWatch watchId))
    (hwatch : ∀ root watchId, tablePrefix catalogId tableId = .ok root →
      P (.createWatch client (watchRequest root watchId fromRevision))) :
    (awaitSnapshotChange catalogId client tableId fromRevision timeout polls).Every P := by
  have hpolls : ∀ watchId polls, (pollSnapshotChange catalogId tableId watchId polls).Every P := by
    intro watchId polls
    induction polls with
    | zero => exact pollOnce_every hget hpoll (every_pure _)
    | succ polls ih => exact pollOnce_every hget hpoll ih
  unfold awaitSnapshotChange
  by_cases hinvalid : fromRevision < 0 ∨ fromRevision = i64Max ∨ timeout < 0
  · rw [if_pos hinvalid]
    trivial
  rw [if_neg hinvalid]
  refine every_ofExcept_bind fun root hok => ?_
  refine Every.bind (every_perform htake) fun watchId => ?_
  refine Every.bind (every_perform (hwatch root watchId hok)).attempt fun created => ?_
  cases created with
  | ok response =>
    refine (hpolls _ _).attempt.bind fun outcome => ?_
    exact Every.bind (every_perform (hcancel _)) fun _ => every_ofExcept _
  | error e =>
    dsimp only
    split
    · exact resynchronize_every hget
    · trivial

end

theorem keepAlive_harmless (session : LeaseSession) : session.keepAlive.Every Harmless := by
  refine Every.bind (harmless_perform (by rfl)) fun active => ?_
  split
  · trivial
  refine Every.bind (Every.tryCatch ?_ fun e => harmless_perform (by rfl)) fun _ =>
    harmless_perform (by rfl)
  refine Every.bind (harmless_perform (by rfl)) fun result => ?_
  split
  · exact harmless_perform (by rfl)
  · trivial

/-- An operation whose calls write nothing and whose outcome is a plain one. -/
theorem Site.of_harmless {α : Type} {p : Program α} {f : α → Outcome} (hp : p.Every Harmless)
    (hf : ∀ a, (f a).plain = true)
    (h : (p >>= fun a => pure (f a)).Within inProcess (.call request next)) :
    Site catalogs operation (.call request next) := by
  rcases h.of_bind with ⟨next', hwithin, rfl⟩ | ⟨a, -, h⟩
  · refine Site.silent (hp.of_within hwithin) fun reply _ outcome hdone => ?_
    obtain ⟨a, -, rfl⟩ := bind_pure_eq_done hdone
    exact hf a
  · exact absurd h not_within_done

theorem collectSnapshot_site {snapshotId : ByteSequence}
    (h : ((ClientOperation.collectSnapshot client tableId snapshotId).program catalogs).Within
      inProcess (.call request next)) :
    Site catalogs (.collectSnapshot client tableId snapshotId) (.call request next) := by
  simp only [ClientOperation.program, collectSnapshot] at h
  cases hid : validateIdentifier snapshotId "snapshot ID" with
  | error e =>
    rw [hid] at h
    exact absurd h not_within_done
  | ok u =>
    cases htable : tablePrefix (catalogs client) tableId with
    | error e =>
      rw [hid, htable] at h
      exact absurd h not_within_done
    | ok root =>
      simp only [hid, htable, ofExcept_ok, pure_bind] at h
      cases hrange : prefixRangeEnd (readersRoot root) with
      | none =>
        simp only [hrange] at h
        exact absurd h not_within_done
      | some readersEnd =>
        simp only [hrange] at h
        rcases h with h | ⟨reply, -, h⟩
        · rw [h]
          refine Site.collect htable (validateIdentifier_eq_ok.mp hid) hrange ?_
          intro reply outcome hdone
          cases reply with
          | ok collected =>
            cases hdone
            rfl
          | error e => cases hdone
        · cases reply <;> exact absurd h not_within_done

theorem close_site {session : LeaseSession}
    (h : ((ClientOperation.close session).program catalogs).Within inProcess (.call request next)) :
    Site catalogs (.close session) (.call request next) := by
  rcases h with h | ⟨reply, -, h⟩
  · rw [h]
    refine Site.silent rfl fun reply _ outcome hdone => ?_
    cases reply with
    | error e => cases hdone
    | ok closed =>
      cases closed with
      | true =>
        cases hdone
        rfl
      | false => cases hdone
  cases reply with
  | error e => exact absurd h not_within_done
  | ok closed =>
    cases closed with
    | true => exact absurd h not_within_done
    | false =>
      rcases h with h | ⟨reply, -, h⟩
      · rw [h]
        refine Site.revoke rfl fun reply outcome hdone => ?_
        cases reply with
        | ok result | error e =>
          cases hdone
          rfl
      · cases reply <;> exact absurd h not_within_done

/-- Where the operation of a process stands at a call is one of the sites. -/
theorem site_of_within (h : (operation.program catalogs).Within inProcess (.call request next)) :
    Site catalogs operation (.call request next) := by
  cases operation with
  | acquireWriter client tableId ttl => exact acquireWriter_site h
  | publishSnapshot client guard expectedRevision pointer => exact publishSnapshot_site h
  | registerReader client tableId snapshot ttl => exact registerReader_site h
  | awaitSnapshotChange client tableId fromRevision timeout polls =>
    exact Site.of_harmless (awaitSnapshotChange_every (fun _ _ => rfl) (fun _ => rfl) rfl
      (fun _ => rfl) fun _ _ _ => rfl) (fun _ => rfl) h
  | collectSnapshot client tableId snapshotId => exact collectSnapshot_site h
  | currentSnapshot client tableId =>
    exact Site.of_harmless (currentSnapshot_every fun _ _ => rfl) (fun _ => rfl) h
  | keepAlive session => exact Site.of_harmless (keepAlive_harmless session) (fun _ => rfl) h
  | close session => exact close_site h

end KuraMetadata.Kura
