import KuraMetadata.Kura.Requests

/-! # What a step does to one table

Every step of the world leaves a table's keys as they are, or it is a claim, a publication, a
registration or a collection on that table, or the removal of leases. `TableStep` says which,
with what the store held before and what was reported; the properties of a table are derived
from it. -/

namespace KuraMetadata.Kura

open Std InMemoryMetadataStore World Finished List

variable {catalogs : Nat → Identifier} {initial : Int} {w w' : World} {root key : ByteSequence}
variable {values : ValueMap} {operation : ClientOperation} {p tick client : Nat}

/-! ## What was reported -/

/-- A publication that was reported, with the store just before it and its tick. -/
structure Publication where
  guard : WriterGuard
  expectedRevision : Int
  revision : Int
  before : InMemoryMetadataStore
  tick : Nat

/-- The publication on the table that an operation has reported. -/
def Finished.publication (root : ByteSequence) (turn : Finished) : Option Publication :=
  match turn.operation, turn.outcome with
  | .publishSnapshot _ guard expectedRevision _, .ok (.published result) =>
    if guard.tablePrefix = root ∧ result.published = true then
      some { guard, expectedRevision, revision := result.revision, before := turn.before,
             tick := turn.tick }
    else none
  | _, _ => none

/-- The publications on the table, in the order of their transactions. -/
def World.publications (w : World) (root : ByteSequence) : List Publication :=
  w.finished.filterMap (Finished.publication root)

/-- The writer of the table that an operation has made. -/
def Finished.claim (root : ByteSequence) (turn : Finished) : Option WriterGuard :=
  match turn.outcome with
  | .ok (.writer guard) => if guard.tablePrefix = root then some guard else none
  | _ => none

/-- The writers of the table, in the order of their claims. -/
def World.claims (w : World) (root : ByteSequence) : List WriterGuard :=
  w.finished.filterMap (Finished.claim root)

/-- A reader that was registered. -/
structure Registration where
  client : Nat
  guard : ReaderGuard
  deriving DecidableEq

/-- The reader of the table that an operation has registered. -/
def Finished.registration (catalogs : Nat → Identifier) (root : ByteSequence) (turn : Finished) :
    Option Registration :=
  match turn.operation, turn.outcome with
  | .registerReader client tableId _ _, .ok (.reader guard) =>
    if tableRoot (catalogs client) tableId = root then some ⟨client, guard⟩ else none
  | _, _ => none

/-- The readers of the table, in the order of their registrations. -/
def World.registrations (w : World) (catalogs : Nat → Identifier) (root : ByteSequence) :
    List Registration :=
  w.finished.filterMap (Finished.registration catalogs root)

/-- What was reported on a table. -/
structure Reports where
  claims : List WriterGuard
  publications : List Publication
  registrations : List Registration

def World.reports (w : World) (catalogs : Nat → Identifier) (root : ByteSequence) : Reports :=
  ⟨w.claims root, w.publications root, w.registrations catalogs root⟩

theorem reports_of_finished {v : World} (h : v.finished = w.finished) :
    v.reports catalogs root = w.reports catalogs root := by
  unfold World.reports claims publications registrations
  rw [h]

section

variable {process tick : Nat} {program : Program Outcome} {before : InMemoryMetadataStore}

@[simp]
theorem settle_store : (w.settle process operation program before tick).store = w.store := by
  cases program <;> rfl

theorem settle_done_reports (outcome : Except ClientException Outcome) :
    (w.settle process operation (.done outcome) before tick).reports catalogs root
      = ⟨w.claims root ++ (claim root ⟨process, operation, outcome, before, tick⟩).toList,
        w.publications root
          ++ (Finished.publication root ⟨process, operation, outcome, before, tick⟩).toList,
        w.registrations catalogs root ++ (registration catalogs root
            ⟨process, operation, outcome, before, tick⟩).toList⟩ := by
  simp only [World.settle, World.reports, claims, publications, registrations,
    filterMap_append, Reports.mk.injEq, append_cancel_left_eq]
  refine ⟨?_, ?_, ?_⟩ <;> rw [filterMap_cons] <;> split <;> simp_all

/-- An operation that goes on, fails or returns something plain reports nothing. -/
theorem settle_reports_nothing (catalogs : Nat → Identifier) (root : ByteSequence)
    (plain : ∀ outcome, program = .done (.ok outcome) → outcome.plain = true) :
    (w.settle process operation program before tick).reports catalogs root
      = w.reports catalogs root := by
  cases program with
  | call request next => rfl
  | done outcome =>
    rw [settle_done_reports]
    cases outcome with
    | error e => simp [claim, Finished.publication, registration, World.reports]
    | ok outcome =>
      have hplain := plain outcome rfl
      cases outcome with
      | writer guard | reader guard => cases hplain
      | published result =>
        have hresult : result.published = false := by simpa [Outcome.plain] using hplain
        cases operation <;>
          simp [claim, Finished.publication, registration, World.reports, hresult]
      | update | collected | active | closed =>
        simp [claim, Finished.publication, registration, World.reports]

end

/-! ## Sound worlds -/

/-- Processes stand where their operations can, and guards are for tables. -/
structure Sound (catalogs : Nat → Identifier) (initial : Int) (w : World) : Prop where
  store : WellFormed initial w.store
  running : ∀ {p : Nat} {process : Process}, w.processes[p]? = some process →
    (process.operation.program catalogs).Within inProcess process.program
      ∧ w.holds process.operation = true
  writers : ∀ guard ∈ w.writers, IsTableRoot guard.tablePrefix

/-! ## Steps on a table -/

/-- Why leases are removed: their time is up, or a session revokes its own. -/
inductive Releasing (w : World) : Action → List Int → Prop
  | expired {tick : Nat} {ids : List Int} : Releasing w (.expire tick) ids
  | revoked {p tick : Nat} {operation : ClientOperation} {id : Int} {token : Nat}
      {next : Except ClientException LeaseCleanupResult → Program Outcome} {ids : List Int}
      (running : w.processes[p]? = some ⟨operation, .call (.revokeLease id token) next⟩)
      (own : ∀ removed ∈ ids, removed = id
        ∧ ∃ lease, w.store.leases[removed]? = some lease ∧ lease.fencingToken = token) :
      Releasing w (.advance p tick) ids

/-- What a step has done to the table at `root`. -/
inductive TableStep (catalogs : Nat → Identifier) (root : ByteSequence) (w : World) :
    Action → World → Prop
  | quiet {action : Action} {w' : World}
      (kept : ∀ key, root <+: key → w'.store.values[key]? = w.store.values[key]?)
      (reports : w'.reports catalogs root = w.reports catalogs root) :
      TableStep catalogs root w action w'
  | claimed {p tick client : Nat} {tableId : ByteSequence} {ttl : Int} {current : StoreRead}
      {session : LeaseSession} {value : KeyValue} {w' : World}
      (running : w.processes[p]? = some
        ⟨.acquireWriter client tableId ttl, writerFrom client root current session⟩)
      (table : tableRoot (catalogs client) tableId = root)
      (live : Live w.store session tick)
      (free : w.store.values[writerKey root]? = none)
      (leased : value.leaseId = session.id)
      (values : w'.store.values = w.store.values.insert (writerKey root) value)
      (reports : w'.reports catalogs root = { w.reports catalogs root with
        claims := w.claims root ++ [⟨session, root, readRevision current⟩] }) :
      TableStep catalogs root w (.advance p tick) w'
  | published {p tick client : Nat} {guard : WriterGuard} {expectedRevision : Int}
      {pointer : SnapshotPointer} {encoded : ByteSequence} {current snapshot : KeyValue}
      {w' : World}
      (running : w.processes[p]? = some
        ⟨.publishSnapshot client guard expectedRevision pointer,
          publishFrom client guard expectedRevision pointer encoded⟩)
      (held : guard ∈ w.writers) (table : guard.tablePrefix = root)
      (encodes : encodePointer pointer = .ok encoded)
      (live : Live w.store guard.lease tick)
      (expected : (w.store.values[currentKey root]?.map (·.modRevision)).getD 0
        = expectedRevision)
      (owned : ∃ writer, w.store.values[writerKey root]? = some writer
        ∧ writer.leaseId = guard.lease.id)
      (values : w'.store.values = (w.store.values.insert (currentKey root) current).insert
        (snapshotKey root pointer.snapshotId) snapshot)
      (currentValue : current.value = encoded ∧ current.leaseId = 0
        ∧ current.modRevision = w.store.revision + 1)
      (snapshotValue : snapshot.value = encoded ∧ snapshot.leaseId = 0)
      (reports : w'.reports catalogs root = { w.reports catalogs root with
        publications := w.publications root
          ++ [⟨guard, expectedRevision, w.store.revision + 1, w.store, tick⟩] }) :
      TableStep catalogs root w (.advance p tick) w'
  | registered {p tick client sequence : Nat} {tableId encoded : ByteSequence}
      {ttl : Int} {snapshot : SnapshotPointer} {session : LeaseSession} {reader : KeyValue}
      {w' : World}
      (running : w.processes[p]? = some
        ⟨.registerReader client tableId snapshot ttl,
          readerFrom client root snapshot encoded session sequence⟩)
      (table : tableRoot (catalogs client) tableId = root)
      (encodes : encodePointer snapshot = .ok encoded)
      (live : Live w.store session tick)
      (found : ∃ value, w.store.values[snapshotKey root snapshot.snapshotId]? = some value
        ∧ value.value = encoded)
      (reads : reader.value = snapshot.snapshotId) (leased : reader.leaseId = session.id)
      (values : w'.store.values
        = w.store.values.insert (readerKey root (readerIdOf client sequence)) reader)
      (reports : w'.reports catalogs root = { w.reports catalogs root with
        registrations := w.registrations catalogs root
          ++ [⟨client, ⟨session, readerIdOf client sequence, snapshot⟩⟩] }) :
      TableStep catalogs root w (.advance p tick) w'
  | collected {p tick client : Nat} {tableId snapshotId readersEnd : ByteSequence}
      {program : Program Outcome} {w' : World}
      (running : w.processes[p]? = some ⟨.collectSnapshot client tableId snapshotId, program⟩)
      (table : tableRoot (catalogs client) tableId = root)
      (range : prefixRangeEnd (readersRoot root) = some readersEnd)
      (unreferenced : Unreferenced w.store (currentKey root) (readersRoot root) readersEnd
        snapshotId)
      (values : ∀ key, w'.store.values[key]?
        = if key = snapshotKey root snapshotId then none else w.store.values[key]?)
      (reports : w'.reports catalogs root = w.reports catalogs root) :
      TableStep catalogs root w (.advance p tick) w'
  | released {action : Action} {ids : List Int} {w' : World}
      (removed : Released ids w.store w'.store)
      (origin : Releasing w action ids)
      (reports : w'.reports catalogs root = w.reports catalogs root) :
      TableStep catalogs root w action w'

/-! ## Answers leave the reports alone -/

theorem answer_frame (w : World) (tick : Nat) (request : Request) :
    (w.answer tick request).2.finished = w.finished
      ∧ (w.answer tick request).2.processes = w.processes := by
  have honStore : ∀ {α : Type} (v : World) (x : EStateM ClientException InMemoryMetadataStore α),
      (v.onStore x).2.finished = v.finished ∧ (v.onStore x).2.processes = v.processes := by
    intro α v x
    rw [onStore_world]
    exact ⟨rfl, rfl⟩
  cases request
  case createWatch client request =>
    show (w.createWatch client request).2.finished = _
      ∧ (w.createWatch client request).2.processes = _
    unfold World.createWatch
    cases InMemoryMetadataStore.createWatch request w.store with
    | ok response s | error e s => exact ⟨rfl, rfl⟩
  case exchangeClosed token =>
    show (w.exchangeClosed token).2.finished = _ ∧ (w.exchangeClosed token).2.processes = _
    unfold World.exchangeClosed
    split <;> exact ⟨rfl, rfl⟩
  case cancelWatch | takeSequence | takeWatchId | loadActive | clearActive => exact ⟨rfl, rfl⟩
  all_goals exact honStore _ _

theorem writers_of_finished {v : World} (h : v.finished = w.finished) : v.writers = w.writers := by
  unfold World.writers
  rw [h]

section

variable {request : Request} {next : Except ClientException (Answer request) → Program Outcome}

theorem step_advance (running : w.processes[p]? = some ⟨operation, .call request next⟩)
    (h : w.step catalogs (.advance p tick) = some w') :
    w' = (w.answer tick request).2.settle p operation (next (w.answer tick request).1) w.store
      tick := by
  simp only [World.step, running] at h
  exact (Option.some.inj h).symm

theorem advance_reports_nothing (catalogs : Nat → Identifier) (root : ByteSequence)
    (hw' : w' = (w.answer tick request).2.settle p operation (next (w.answer tick request).1)
      w.store tick)
    (plain : ∀ outcome, next (w.answer tick request).1 = .done (.ok outcome) →
      outcome.plain = true) :
    w'.reports catalogs root = w.reports catalogs root := by
  rw [hw', settle_reports_nothing catalogs root plain,
    reports_of_finished (answer_frame w tick request).1]

end

/-- What a write to a key of another table leaves. -/
theorem getElem?_insert_of_other {other : ByteSequence} {value : KeyValue}
    (hroot : IsTableRoot root) (hother : IsTableRoot other) (hne : other ≠ root)
    (hwritten : other <+: key) {k : ByteSequence} (hk : root <+: k) :
    (values.insert key value)[k]? = values[k]? := by
  have hkey : key ≠ k := by
    rintro rfl
    exact hne (hother.eq_of_isPrefix hroot hwritten hk)
  rw [ExtTreeMap.getElem?_insert_eq, if_neg hkey]

/-! ## Transactions -/

section

variable {request : TransactionRequest}
variable {next : Except ClientException TransactionResult → Program Outcome}

/-- A process that has called for a transaction makes a quiet step if the transaction throws or
takes its failure branch; what remains is the step in which it takes its success branch. -/
theorem transaction_tableStep {Q : TransactionResult × Option EventBatch → Prop}
    (running : w.processes[p]? = some ⟨operation, .call (.transaction client request) next⟩)
    (failed : ∀ e outcome, next (.error e) ≠ .done (.ok outcome))
    (lost : ∀ result outcome, result.succeeded = false → next (.ok result) ≠ .done (.ok outcome))
    (h : w.step catalogs (.advance p tick) = some w')
    (branches : ∀ result,
      transaction { request with leaseTick := tick } w.store = .ok result w'.store →
      (result.1.succeeded = true ∧ Q result)
        ∨ result.1.succeeded = false ∧ w'.store.values = w.store.values)
    (taken : ∀ result, result.1.succeeded = true → Q result →
      (∀ outcome, next (.ok result.1) = .done outcome → w'.reports catalogs root
        = ⟨w.claims root ++ (claim root ⟨p, operation, outcome, w.store, tick⟩).toList,
          w.publications root
            ++ (Finished.publication root ⟨p, operation, outcome, w.store, tick⟩).toList,
          w.registrations catalogs root
            ++ (registration catalogs root ⟨p, operation, outcome, w.store, tick⟩).toList⟩) →
      TableStep catalogs root w (.advance p tick) w') :
    TableStep catalogs root w (.advance p tick) w' := by
  have hw' := step_advance running h
  have hfinished := (answer_frame w tick (.transaction client request)).1
  have hnothing := advance_reports_nothing catalogs root hw'
  rcases answer_transaction w tick client request with
    ⟨result, s, hrun, hreply, hstore⟩ | ⟨⟨e, hreply⟩, hstore⟩
  · have hs : w'.store = s := by rw [hw', settle_store, hstore]
    rw [hreply] at hw' hnothing
    rcases branches result (by rw [hs, hrun]) with ⟨htrue, hq⟩ | ⟨hfalse, hvalues⟩
    · refine taken result htrue hq fun outcome hdone => ?_
      rw [hw'.trans (congrArg (World.settle _ p operation · w.store tick) hdone),
        settle_done_reports, claims, publications, registrations, hfinished]
      rfl
    · refine TableStep.quiet (fun key _ => by rw [hvalues]) (hnothing fun outcome hdone => ?_)
      exact absurd hdone (lost _ _ hfalse)
  · rw [hreply] at hnothing
    refine TableStep.quiet (fun key _ => ?_) (hnothing fun outcome hdone => ?_)
    · rw [hw', settle_store, hstore]
    · exact absurd hdone (failed _ _)

end

/-! ## The steps of the client's operations -/

section

variable {other tableId encoded : ByteSequence} {session : LeaseSession}
variable (h : w.step catalogs (.advance p tick) = some w')

include h

theorem claim_tableStep {ttl : Int} {current : StoreRead}
    (sound : Sound catalogs initial w) (hroot : IsTableRoot root)
    (table : tablePrefix (catalogs client) tableId = .ok other) (running : w.processes[p]? = some
      ⟨.acquireWriter client tableId ttl, writerFrom client other current session⟩) :
    TableStep catalogs root w (.advance p tick) w' := by
  have hother := isTableRoot_of_tablePrefix table
  refine transaction_tableStep running (fun e outcome hdone => by cases hdone)
    (fun result outcome hfalse hdone => ?_) h
    (fun _ => claim_eq_ok sound.store) fun result htrue hq hreports => ?_
  · obtain ⟨header, succeeded, responses⟩ := result
    cases hfalse
    cases hdone
  obtain ⟨hlive, hfree, value, hleased, hvalues⟩ := hq
  obtain ⟨⟨header, succeeded, responses⟩, batch⟩ := result
  cases htrue
  replace hreports := hreports _ rfl
  by_cases hsame : other = root
  · subst hsame
    refine TableStep.claimed running (tablePrefix_eq_ok.mp table).2 hlive hfree hleased hvalues
      (hreports.trans ?_)
    simp [claim, Finished.publication, registration, World.reports,
      claims, publications, registrations]
  · refine TableStep.quiet (fun key hkey => ?_) (hreports.trans ?_)
    · rw [hvalues, getElem?_insert_of_other hroot hother hsame (isPrefix_writerKey _) hkey]
    · simp [claim, Finished.publication, registration, World.reports,
        claims, publications, registrations, hsame]

theorem publish_tableStep {guard : WriterGuard} {expectedRevision : Int}
    {pointer : SnapshotPointer} (sound : Sound catalogs initial w)
    (hroot : IsTableRoot root) (encodes : encodePointer pointer = .ok encoded)
    (running : w.processes[p]? = some ⟨.publishSnapshot client guard expectedRevision pointer,
        publishFrom client guard expectedRevision pointer encoded⟩) :
    TableStep catalogs root w (.advance p tick) w' := by
  have hheld : guard ∈ w.writers := of_decide_eq_true (sound.running running).2
  refine transaction_tableStep running (fun e outcome hdone => ?_)
    (fun result outcome hfalse hdone => ?_) h
    (fun _ => publish_branch) fun result htrue hq hreports => ?_
  · -- an uncertain response is followed by a read, and any other is thrown on
    change (recoverPublish guard pointer encoded e >>= _) = _ at hdone
    unfold recoverPublish at hdone
    cases huncertain : e.uncertain with
    | true | false =>
      rw [huncertain] at hdone
      cases hdone
  · obtain ⟨header, succeeded, responses⟩ := result
    cases hfalse
    cases hdone
  obtain ⟨hlive, hexpected, hwriter, hrevision, current, snapshot, hvalues, hcurrent, hfree,
    hmodified, hsnapshot, hunleased⟩ := hq
  obtain ⟨⟨header, succeeded, responses⟩, batch⟩ := result
  cases htrue
  replace hreports := hreports _ rfl
  replace hrevision : header.revision = w.store.revision + 1 := hrevision
  by_cases htable : guard.tablePrefix = root
  · subst htable
    refine TableStep.published running hheld rfl encodes hlive hexpected
      (exists_leased sound.store hlive hwriter) hvalues
      ⟨hcurrent, hfree, hmodified⟩ ⟨hsnapshot, hunleased⟩ (hreports.trans ?_)
    simp [claim, Finished.publication, registration, World.reports,
      claims, publications, registrations, PublishResult.published, hrevision]
  · have hother := sound.writers guard hheld
    refine TableStep.quiet (fun key hkey => ?_) (hreports.trans ?_)
    · rw [hvalues, getElem?_insert_of_other hroot hother htable (isPrefix_snapshotKey _ _) hkey,
        getElem?_insert_of_other hroot hother htable (isPrefix_currentKey _) hkey]
    · simp [claim, Finished.publication, registration, World.reports,
        claims, publications, registrations, htable]

theorem register_tableStep {ttl : Int} {snapshot : SnapshotPointer}
    {sequence : Nat} (hroot : IsTableRoot root)
    (table : tablePrefix (catalogs client) tableId = .ok other)
    (encodes : encodePointer snapshot = .ok encoded) (running : w.processes[p]? = some
      ⟨.registerReader client tableId snapshot ttl,
        readerFrom client other snapshot encoded session sequence⟩) :
    TableStep catalogs root w (.advance p tick) w' := by
  have hother := isTableRoot_of_tablePrefix table
  refine transaction_tableStep running (fun e outcome hdone => by cases hdone)
    (fun result outcome hfalse hdone => ?_) h
    (fun _ => register_eq_ok (encodePointer_ne_nil encodes)) fun result htrue hq hreports => ?_
  · obtain ⟨header, succeeded, responses⟩ := result
    cases hfalse
    cases hdone
  obtain ⟨hlive, hfound, reader, hreads, hleased, hvalues⟩ := hq
  obtain ⟨⟨header, succeeded, responses⟩, batch⟩ := result
  cases htrue
  replace hreports := hreports _ rfl
  have htable : tableRoot (catalogs client) tableId = other := (tablePrefix_eq_ok.mp table).2
  by_cases hsame : other = root
  · subst hsame
    refine TableStep.registered running htable encodes hlive hfound hreads hleased hvalues
      (hreports.trans ?_)
    simp [claim, Finished.publication, registration, World.reports,
      claims, publications, registrations, htable]
  · refine TableStep.quiet (fun key hkey => ?_) (hreports.trans ?_)
    · rw [hvalues, getElem?_insert_of_other hroot hother hsame (isPrefix_readerKey _ _) hkey]
    · simp [claim, Finished.publication, registration, World.reports,
        claims, publications, registrations, htable, hsame]

theorem revoke_tableStep {id : Int} {token : Nat}
    {next : Except ClientException LeaseCleanupResult → Program Outcome}
    (sound : Sound catalogs initial w)
    (plain : ∀ reply outcome, next reply = .done (.ok outcome) → outcome.plain = true)
    (running : w.processes[p]? = some ⟨operation, .call (.revokeLease id token) next⟩) :
    TableStep catalogs root w (.advance p tick) w' := by
  have hw' := step_advance running h
  have hreports := advance_reports_nothing catalogs root hw' (plain _)
  have hreleased : ∃ ids, Released ids w.store w'.store ∧ ∀ removed ∈ ids, removed = id
      ∧ ∃ lease, w.store.leases[removed]? = some lease ∧ lease.fencingToken = token := by
    have hstore : w'.store
        = (revokeLease { id, fencingToken := token, tick } w.store).state := by
      rw [hw', settle_store]
      refine (onStore_store _ _).trans ((ofStore_state _ _).trans ?_)
      exact EStateM.state_bind_pure _ _ _
    rw [hstore]
    exact (atomic_revokeLease _).state_induct
      (P := fun s => ∃ ids, Released ids w.store s ∧ ∀ removed ∈ ids, removed = id
        ∧ ∃ lease, w.store.leases[removed]? = some lease ∧ lease.fencingToken = token)
      (fun result s hrun => revokeLease_released sound.store hrun)
      ⟨[], Released.of_values_eq rfl, forall_mem_nil _⟩
  obtain ⟨ids, hids, hown⟩ := hreleased
  exact TableStep.released hids (Releasing.revoked running hown) hreports

theorem collect_tableStep {readersEnd snapshotId : ByteSequence}
    {next : Except ClientException Bool → Program Outcome} (hroot : IsTableRoot root)
    (table : tablePrefix (catalogs client) tableId = .ok other)
    (range : prefixRangeEnd (readersRoot other) = some readersEnd)
    (plain : ∀ reply outcome, next reply = .done (.ok outcome) → outcome.plain = true)
    (running : w.processes[p]? = some ⟨.collectSnapshot client tableId snapshotId,
        .call (.collectSnapshotIfUnreferenced (currentKey other) (snapshotKey other snapshotId)
          (readersRoot other) readersEnd snapshotId) next⟩) :
    TableStep catalogs root w (.advance p tick) w' := by
  have hother := isTableRoot_of_tablePrefix table
  have hw' := step_advance running h
  have hreports := advance_reports_nothing catalogs root hw' (plain _)
  have hcollected : w'.store.values = w.store.values
      ∨ Unreferenced w.store (currentKey other) (readersRoot other) readersEnd snapshotId
        ∧ ∀ key, w'.store.values[key]?
          = if key = snapshotKey other snapshotId then none else w.store.values[key]? := by
    have hstore : w'.store = (collectSnapshotIfUnreferenced (currentKey other)
        (snapshotKey other snapshotId) (readersRoot other) readersEnd snapshotId tick
        w.store).state := by
      rw [hw', settle_store]
      exact onStore_store _ _
    rw [hstore]
    refine (collectSnapshotIfUnreferenced_atomic _ _ _ _ _ _).state_induct
      (P := fun s => s.values = w.store.values
        ∨ Unreferenced w.store (currentKey other) (readersRoot other) readersEnd snapshotId
          ∧ ∀ key, s.values[key]?
            = if key = snapshotKey other snapshotId then none else w.store.values[key]?)
      (fun collected s hrun => ?_) (.inl rfl)
    rcases collectSnapshotIfUnreferenced_eq_ok hrun with rfl | ⟨hunreferenced, _, result, hresult⟩
    · exact .inl rfl
    · exact (collectTransaction_eq_ok hresult).imp id fun hdeleted => ⟨hunreferenced, hdeleted⟩
  rcases hcollected with hvalues | ⟨hunreferenced, hdeleted⟩
  · exact TableStep.quiet (fun key _ => by rw [hvalues]) hreports
  by_cases hsame : other = root
  · subst hsame
    exact TableStep.collected running (tablePrefix_eq_ok.mp table).2 range hunreferenced hdeleted
      hreports
  · refine TableStep.quiet (fun key hkey => ?_) hreports
    rw [hdeleted, if_neg]
    rintro rfl
    exact hsame (hother.eq_of_isPrefix hroot (isPrefix_snapshotKey _ _) hkey)

theorem advance_tableStep {process : Process} (sound : Sound catalogs initial w)
    (hroot : IsTableRoot root) (running : w.processes[p]? = some process) :
    TableStep catalogs root w (.advance p tick) w' := by
  obtain ⟨operation, program⟩ := process
  cases program with
  | done outcome =>
    simp only [World.step, running] at h
    cases h
  | call request next =>
    have hsite := site_of_within (sound.running running).1
    generalize hprogram : Calls.call request next = program at hsite running
    cases hsite with
    | silent harmless plain =>
      have hw' := step_advance running h
      have hreports := advance_reports_nothing catalogs root hw' (plain _ (answer_inProcess _ _ _))
      refine TableStep.quiet (fun key _ => ?_) hreports
      rw [hw', settle_store, answer_values harmless]
    | claim table => exact claim_tableStep h sound hroot table running
    | publish encodes => exact publish_tableStep h sound hroot encodes running
    | register table encodes => exact register_tableStep h hroot table encodes running
    | revoke owner plain => exact revoke_tableStep h sound plain running
    | collect table identifier range plain =>
      exact collect_tableStep h hroot table range plain running

end

/-! ## Every step -/

theorem program_ne_ok (operation : ClientOperation) (outcome : Outcome) :
    operation.program catalogs ≠ .done (.ok outcome) := by
  have hthen : ∀ {α : Type} {x : Except ClientException α} {f : α → Program Outcome},
      (∀ a, f a ≠ .done (.ok outcome)) → (Calls.ofExcept x >>= f) ≠ .done (.ok outcome) := by
    intro α x f hf
    cases x with
    | error e => exact fun h => by cases h
    | ok a => exact hf a
  cases operation with
  | acquireWriter client tableId ttl =>
    simp only [ClientOperation.program, acquireWriter]
    split
    · exact fun h => by cases h
    · simp only [bind_assoc]
      exact hthen fun root h => by cases h
  | publishSnapshot client guard expectedRevision pointer | keepAlive session | close session =>
    exact fun h => by cases h
  | registerReader client tableId snapshot ttl =>
    simp only [ClientOperation.program, registerReader]
    split
    · exact fun h => by cases h
    · simp only [bind_assoc]
      exact hthen fun encoded => hthen fun root h => by cases h
  | awaitSnapshotChange client tableId fromRevision timeout polls =>
    simp only [ClientOperation.program, awaitSnapshotChange]
    split
    · exact fun h => by cases h
    · simp only [bind_assoc]
      exact hthen fun root h => by cases h
  | collectSnapshot client tableId snapshotId =>
    simp only [ClientOperation.program, collectSnapshot, bind_assoc]
    refine hthen fun _ => hthen fun root => ?_
    cases prefixRangeEnd (readersRoot root) with
    | none | some readersEnd => exact fun h => by cases h
  | currentSnapshot client tableId =>
    simp only [ClientOperation.program, currentSnapshot, bind_assoc]
    exact hthen fun root h => by cases h

theorem getElem?_of_tableEntries {values' : ValueMap}
    (h : tableEntries values' = tableEntries values) (hkey : catalogsRoot <+: key) :
    values'[key]? = values[key]? := by
  have hmem : ∀ (m : ValueMap) (value : KeyValue),
      (key, value) ∈ tableEntries m ↔ m[key]? = some value := by
    intro m value
    unfold tableEntries
    rw [mem_filter, ExtTreeMap.mem_toList_iff_getElem?_eq_some]
    simp [hkey]
  refine Option.ext fun value => ?_
  rw [← hmem, ← hmem, h]

theorem IsTableRoot.catalogsRoot_isPrefix (h : IsTableRoot root) (hkey : root <+: key) :
    catalogsRoot <+: key := by
  obtain ⟨catalogId, tableId, -, -, rfl⟩ := h
  exact (prefix_append _ _).trans hkey

/-- Every step of a sound world is one of the steps on the table. -/
theorem Sound.tableStep {action : Action} (sound : Sound catalogs initial w)
    (hroot : IsTableRoot root) (h : w.step catalogs action = some w') :
    TableStep catalogs root w action w' := by
  cases action with
  | start process operation =>
    obtain ⟨-, ⟨⟩⟩ := Option.ite_none_right_eq_some.mp h
    refine TableStep.quiet (fun key _ => by rw [settle_store]) ?_
    exact settle_reports_nothing catalogs root fun outcome hdone =>
      absurd hdone (program_ne_ok operation outcome)
  | advance process tick =>
    cases hrunning : w.processes[process]? with
    | none =>
      simp only [World.step, hrunning] at h
      cases h
    | some running => exact advance_tableStep h sound hroot hrunning
  | expire tick =>
    cases h
    have hreleased : ∃ ids, Released ids w.store (expireLeases tick w.store).state := by
      refine (atomic_expireLeases tick).state_induct (P := fun s => ∃ ids, Released ids w.store s)
        (fun result s hrun => expireLeases_released sound.store hrun)
        ⟨[], Released.of_values_eq rfl⟩
    obtain ⟨ids, hids⟩ := hreleased
    exact TableStep.released hids Releasing.expired rfl
  | other operation =>
    obtain ⟨⟨-, hentries⟩, ⟨⟩⟩ := Option.ite_none_right_eq_some.mp h
    refine TableStep.quiet (fun key hkey => ?_) rfl
    exact getElem?_of_tableEntries hentries (hroot.catalogsRoot_isPrefix hkey)

end KuraMetadata.Kura
