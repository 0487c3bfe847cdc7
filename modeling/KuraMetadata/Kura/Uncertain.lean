import KuraMetadata.Kura.Runs

/-! # Uncertain responses

A backend that is not in the process of its client can fail a call, and the client does not learn
whether the call was executed. `publishSnapshot` then reads the current key back and takes its own
pointer there for a sign that its transaction was executed. -/

namespace KuraMetadata.Kura

open Std InMemoryMetadataStore List

variable {exchanges : List Exchange} {w : World}

/-! ## A backend that fails -/

/-- How a call to the backend goes. -/
inductive Fate where
  /-- It is executed and answered. -/
  | answered
  /-- It is executed, and the client gets an error for an answer. -/
  | lost (code : StatusCode) (message : String)
  /-- It is not executed, and the client gets an error for an answer. -/
  | dropped (code : StatusCode) (message : String)
  deriving DecidableEq

namespace Fate

/-- What the client gets, and the world after the call. -/
def reply (fate : Fate) (w : World) (tick : Nat) (request : Request) :
    Except ClientException (Answer request) × World :=
  match fate with
  | .answered => w.answer tick request
  | .lost code message => (.error (.kuraClientError code message), (w.answer tick request).2)
  | .dropped code message => (.error (.kuraClientError code message), w)

def executed : Fate → Bool
  | .answered | .lost _ _ => true
  | .dropped _ _ => false

end Fate

/-- The calls that read or write the store. The others are the client's own. -/
def Request.remote : Request → Bool
  | .takeSequence _ | .takeWatchId _ | .loadActive _ | .clearActive _ | .exchangeClosed _ => false
  | _ => true

/-- A call to the backend can fail for want of a leader, of a quorum or of time. -/
def Fate.allows (request : Request) : Fate → Prop
  | .answered => True
  | .lost code _ | .dropped code _ => uncertainStatus code = true ∧ request.remote = true

/-- One call of an operation: what others have done since the one before, the world it is made
in, its tick and how it goes. -/
structure Exchange where
  others : List Call
  before : World
  request : Request
  tick : Nat
  fate : Fate

/-- The program ends with the outcome after the exchanges. Between its calls others use the store,
and the sessions and counters of the clients change. -/
inductive Plays {α : Type} : Program α → World → List Exchange → Except ClientException α → Prop
  | done {outcome : Except ClientException α} {w : World} : Plays (.done outcome) w [] outcome
  | call {request : Request} {next : Except ClientException (Answer request) → Program α}
      {w before : World} {others : List Call} {tick : Nat} {fate : Fate}
      {exchanges : List Exchange} {outcome : Except ClientException α}
      (run : Run w.store others before.store) (allowed : fate.allows request)
      (rest : Plays (next (fate.reply before tick request).1)
        (fate.reply before tick request).2 exchanges outcome) :
      Plays (.call request next) w (⟨others, before, request, tick, fate⟩ :: exchanges) outcome

section

variable {α : Type} {outcome : Except ClientException α}

theorem Plays.of_done {outcome' : Except ClientException α}
    (h : Plays (.done outcome') w exchanges outcome) : exchanges = [] ∧ outcome' = outcome := by
  cases h
  exact ⟨rfl, rfl⟩

theorem Plays.of_call {request : Request}
    {next : Except ClientException (Answer request) → Program α}
    (h : Plays (.call request next) w exchanges outcome) :
    ∃ others before tick fate rest, exchanges = ⟨others, before, request, tick, fate⟩ :: rest
      ∧ Run w.store others before.store ∧ fate.allows request
      ∧ Plays (next (fate.reply before tick request).1) (fate.reply before tick request).2 rest
          outcome := by
  cases h with
  | call run allowed rest => exact ⟨_, _, _, _, _, rfl, run, allowed, rest⟩

end

/-! ## Publications -/

/-- The key holds the value. -/
def Holding (key value : ByteSequence) (s : InMemoryMetadataStore) : Prop :=
  s.values[key]?.map (·.value) = some value

def Request.isTransaction : Request → Bool
  | .transaction _ _ => true
  | _ => false

/-- The exchange is a publication that was executed with success: it has found the expected
revision at the current key, and has rewritten the key. -/
def Publishes (guard : WriterGuard) (expectedRevision : Int) (pointer : SnapshotPointer)
    (exchange : Exchange) : Prop :=
  ∃ encoded client result s,
    encodePointer pointer = .ok encoded
      ∧ exchange.request = .transaction client
          (publishRequest guard expectedRevision pointer.snapshotId encoded)
      ∧ exchange.fate.executed = true
      ∧ transaction { publishRequest guard expectedRevision pointer.snapshotId encoded with
            leaseTick := exchange.tick } exchange.before.store = .ok result s
      ∧ result.1.succeeded = true
      ∧ (exchange.before.store.values[currentKey guard.tablePrefix]?.map (·.modRevision)).getD 0
          = expectedRevision
      ∧ ∃ current : KeyValue, s.values[currentKey guard.tablePrefix]? = some current
          ∧ current.value = encoded ∧ current.modRevision = exchange.before.store.revision + 1

/-- The publication was executed with success, and once. -/
def ExecutedOnce (guard : WriterGuard) (expectedRevision : Int) (pointer : SnapshotPointer)
    (exchanges : List Exchange) : Prop :=
  ∃ exchange, exchanges.filter (·.request.isTransaction) = [exchange]
    ∧ Publishes guard expectedRevision pointer exchange

/-- What a publication finds: the store and the tick of its transaction, and what others do to
the store from then to the last read of the current key. -/
structure Setting where
  store : InMemoryMetadataStore
  tick : Nat
  others : List Operation

/-- The setting of the first transaction among the exchanges. -/
def settingOf : List Exchange → Option Setting
  | [] => none
  | exchange :: later =>
    if exchange.request.isTransaction then
      some ⟨exchange.before.store, exchange.tick, (later.flatMap (·.others)).map Call.operation⟩
    else settingOf later

/-- The transaction leaves the store without having been executed, or having failed. -/
inductive Misses (request : TransactionRequest) (s : InMemoryMetadataStore) :
    InMemoryMetadataStore → Prop
  | unexecuted : Misses request s s
  | failed (h : ∀ result t, transaction request s = .ok result t → result.1.succeeded = false) :
      Misses request s (Call.mk s (.transaction request)).after

/-- The pointer is not at the current key at the last read unless the publication has put it
there. A key that is not valid is never read. -/
def Setting.Unmistakable (σ : Setting) (guard : WriterGuard) (expectedRevision : Int)
    (pointer : SnapshotPointer) : Prop :=
  ∀ encoded s, encodePointer pointer = .ok encoded →
    validateKey (currentKey guard.tablePrefix) = .ok () →
    Misses { publishRequest guard expectedRevision pointer.snapshotId encoded with
      leaseTick := σ.tick } σ.store s →
    ¬ Holding (currentKey guard.tablePrefix) encoded (stateAfter s σ.others)

section

variable {guard : WriterGuard} {expectedRevision : Int} {pointer : SnapshotPointer}
variable {encoded : ByteSequence} {client tick : Nat} {result : PublishResult}

/-- The transaction of a publication. -/
def publication (client : Nat) (guard : WriterGuard) (expectedRevision : Int)
    (pointer : SnapshotPointer) (encoded : ByteSequence) : Request :=
  .transaction client (publishRequest guard expectedRevision pointer.snapshotId encoded)

/-- A publication that does not succeed misses the store and is not answered as one that does. -/
theorem publish_reply {fate : Fate} (hencoded : encodePointer pointer = .ok encoded)
    (others : List Call) (before : World) :
    Publishes guard expectedRevision pointer
        ⟨others, before, publication client guard expectedRevision pointer encoded, tick, fate⟩
      ∨ Misses { publishRequest guard expectedRevision pointer.snapshotId encoded with
            leaseTick := tick } before.store
          (fate.reply before tick
            (publication client guard expectedRevision pointer encoded)).2.store
        ∧ ∀ result : TransactionResult, (fate.reply before tick
            (publication client guard expectedRevision pointer encoded)).1 = .ok result →
          result.succeeded = false := by
  unfold publication
  have hstore : (before.answer tick (.transaction client
      (publishRequest guard expectedRevision pointer.snapshotId encoded))).2.store = _ :=
    answer_store_of_operation rfl
  by_cases hsucceeds : ∃ result s, transaction
      { publishRequest guard expectedRevision pointer.snapshotId encoded with leaseTick := tick }
      before.store = .ok result s ∧ result.1.succeeded = true
  · obtain ⟨result, s, hrun, hsucceeded⟩ := hsucceeds
    rcases publish_branch hrun with ⟨-, -, hexpected, -, -, current, snapshot, hvalues, hvalue, -,
      hrevision, -⟩ | ⟨hfailed, -⟩
    · have hcurrent : s.values[currentKey guard.tablePrefix]? = some current := by
        rw [hvalues, ExtTreeMap.getElem?_insert_of_ne (currentKey_ne_snapshotKey _ _).symm,
          ExtTreeMap.getElem?_insert_self]
      cases fate with
      | answered | lost _ _ =>
        exact .inl ⟨encoded, client, result, s, hencoded, rfl, rfl, hrun, hsucceeded, hexpected,
          current, hcurrent, hvalue, hrevision⟩
      | dropped _ _ => exact .inr ⟨.unexecuted, fun _ h => by cases h⟩
    · rw [hfailed] at hsucceeded
      cases hsucceeded
  · have hfailed : ∀ result s, transaction
        { publishRequest guard expectedRevision pointer.snapshotId encoded with leaseTick := tick }
        before.store = .ok result s → result.1.succeeded = false :=
      fun result s hrun => Bool.eq_false_iff.mpr fun h => hsucceeds ⟨result, s, hrun, h⟩
    have hmisses := hstore ▸ Misses.failed hfailed
    cases fate with
    | dropped _ _ => exact .inr ⟨.unexecuted, fun _ h => by cases h⟩
    | lost _ _ => exact .inr ⟨hmisses, fun _ h => by cases h⟩
    | answered =>
      refine .inr ⟨hmisses, fun result h => ?_⟩
      rcases answer_transaction before tick client
        (publishRequest guard expectedRevision pointer.snapshotId encoded) with
        ⟨result', s, hrun, hanswer, -⟩ | ⟨⟨e, hanswer⟩, -⟩
      · cases hanswer.symm.trans h
        exact hfailed result' s hrun
      · cases hanswer.symm.trans h

theorem answer_get (w : World) (tick : Nat) (key : ByteSequence) :
    w.answer tick (.get key) = (((validateKey key).mapError .standard).map fun _ =>
      { value := w.store.values[key]?, revision := w.store.revision }, w) := by
  show w.onStore (ofStore (InMemoryMetadataStore.get key)) = _
  cases h : validateKey key with
  | error e | ok u =>
    simp only [World.onStore, ofStore, InMemoryMetadataStore.get, h]
    rfl

theorem reply_get_world (fate : Fate) (before : World) (tick : Nat) (key : ByteSequence) :
    (fate.reply before tick (.get key)).2 = before := by
  cases fate with
  | answered | lost _ _ => exact congrArg Prod.snd (answer_get before tick key)
  | dropped _ _ => rfl

theorem reply_get_eq_ok {fate : Fate} {before : World} {tick : Nat} {key : ByteSequence}
    {read : StoreRead} (h : (fate.reply before tick (.get key)).1 = .ok read) :
    validateKey key = .ok () ∧ read.value = before.store.values[key]? := by
  cases fate with
  | answered =>
    have h := (congrArg Prod.fst (answer_get before tick key)).symm.trans h
    obtain ⟨_, hvalid, rfl⟩ := Except.map_eq_ok.mp h
    exact ⟨Except.mapError_eq_ok.mp hvalid, rfl⟩
  | lost _ _ | dropped _ _ => cases h

/-- The handler reports a recovery, and only where it has read the pointer. -/
theorem recover_holding {error : ClientException}
    (h : Plays (recoverPublish guard pointer encoded error) w exchanges (.ok result)) :
    result.status = .recoveredAfterUncertainResponse
      ∧ ∃ exchange, exchanges = [exchange]
        ∧ exchange.request = .get (currentKey guard.tablePrefix)
        ∧ Run w.store exchange.others exchange.before.store
        ∧ validateKey (currentKey guard.tablePrefix) = .ok ()
        ∧ Holding (currentKey guard.tablePrefix) encoded exchange.before.store := by
  unfold recoverPublish at h
  by_cases huncertain : error.uncertain = true
  swap
  · rw [if_pos (by simpa using huncertain)] at h
    cases h.of_done.2
  rw [if_neg (by simpa using huncertain)] at h
  obtain ⟨others, before, tick, fate, rest, rfl, hrun, -, h⟩ := h.of_call
  cases hreply : (fate.reply before tick (.get (currentKey guard.tablePrefix))).1 with
  | error e =>
    rw [hreply] at h
    cases h.of_done.2
  | ok read =>
    obtain ⟨hvalid, hread⟩ := reply_get_eq_ok hreply
    rw [hreply] at h
    cases hvalue : read.value with
    | none =>
      simp only [Calls.bind, hvalue] at h
      cases h.of_done.2
    | some value =>
      simp only [Calls.bind, hvalue] at h
      by_cases hencoded : value.value = encoded
      · rw [if_pos hencoded] at h
        obtain ⟨rfl, hresult⟩ := h.of_done
        cases hresult
        refine ⟨rfl, ⟨others, before, .get (currentKey guard.tablePrefix), tick, fate⟩, rfl, rfl,
          hrun, hvalid, ?_⟩
        rw [Holding, ← hread, hvalue, Option.map_some, hencoded]
      · rw [if_neg hencoded] at h
        cases h.of_done.2

/-- What follows the transaction of a publication: nothing, and the report of the transaction's
success, or reads of the current key, of which the last finds the pointer. -/
theorem after_reply {reply : Except ClientException TransactionResult}
    (hresult : result.published = true)
    (h : Plays (((Calls.done reply : Program TransactionResult) >>= fun transacted => do
        if !transacted.succeeded then
          let current ← Backend.get (currentKey guard.tablePrefix)
          return { status := .conflict, revision := readRevision current,
                   current := ← Calls.ofExcept (decodeRead current) }
        return { status := .published, revision := transacted.header.revision,
                 current := some pointer }).tryCatch
      (recoverPublish guard pointer encoded)) w exchanges (.ok result)) :
    (∀ exchange ∈ exchanges, exchange.request = .get (currentKey guard.tablePrefix))
      ∧ ((∃ transacted, reply = .ok transacted ∧ transacted.succeeded = true)
        ∨ result.status = .recoveredAfterUncertainResponse
          ∧ validateKey (currentKey guard.tablePrefix) = .ok ()
          ∧ ∃ s, Run w.store (exchanges.flatMap (·.others)) s
            ∧ Holding (currentKey guard.tablePrefix) encoded s) := by
  cases reply with
  | error e =>
    obtain ⟨hstatus, exchange, rfl, hget, hrun, hvalid, hholding⟩ := recover_holding h
    refine ⟨fun exchange' hmem => mem_singleton.mp hmem ▸ hget,
      .inr ⟨hstatus, hvalid, _, ?_, hholding⟩⟩
    simpa using hrun
  | ok transacted =>
    cases hsucceeded : transacted.succeeded with
    | true =>
      simp only [Bind.bind, Calls.bind, hsucceeded, Bool.not_true, Bool.false_eq_true,
        if_false] at h
      obtain ⟨rfl, -⟩ := Plays.of_done h
      exact ⟨forall_mem_nil _, .inl ⟨transacted, rfl, hsucceeded⟩⟩
    | false =>
      -- the first read is for the report of the conflict, and may fail in its turn
      simp only [Bind.bind, Calls.bind, hsucceeded, Bool.not_false, if_true] at h
      obtain ⟨others, before, tick, fate, rest, rfl, hrun, -, h⟩ := Plays.of_call h
      rw [reply_get_world] at h
      have hrecover : ∃ e, Plays (recoverPublish guard pointer encoded e) before rest
          (.ok result) := by
        cases hreply : (fate.reply before tick (.get (currentKey guard.tablePrefix))).1 with
        | error e =>
          rw [hreply] at h
          exact ⟨e, h⟩
        | ok read =>
          rw [hreply] at h
          cases hdecoded : decodeRead read with
          | error e =>
            simp only [Calls.bind, hdecoded, Calls.ofExcept] at h
            exact ⟨e, h⟩
          | ok decoded =>
            simp only [Calls.bind, hdecoded, Calls.ofExcept] at h
            cases (Plays.of_done h).2
            cases hresult
      obtain ⟨e, h⟩ := hrecover
      obtain ⟨hstatus, exchange, rfl, hget, hrun', hvalid, hholding⟩ := recover_holding h
      refine ⟨fun exchange' hmem => ?_, .inr ⟨hstatus, hvalid, _, ?_, hholding⟩⟩
      · rcases mem_cons.mp hmem with rfl | hmem
        · rfl
        · exact mem_singleton.mp hmem ▸ hget
      · simpa using hrun.trans hrun'

/-- The part of a publication from its transaction on. -/
theorem try_publishes (hencoded : encodePointer pointer = .ok encoded)
    (hresult : result.published = true)
    (h : Plays (tryCatch (tryPublish client guard expectedRevision pointer encoded)
      (recoverPublish guard pointer encoded)) w exchanges (.ok result)) :
    ∃ exchange later, exchanges = exchange :: later
      ∧ exchange.request = publication client guard expectedRevision pointer encoded
      ∧ (∀ read ∈ later, read.request.isTransaction = false)
      ∧ (Publishes guard expectedRevision pointer exchange
        ∨ result.status = .recoveredAfterUncertainResponse
          ∧ validateKey (currentKey guard.tablePrefix) = .ok ()
          ∧ ∃ s, Misses { publishRequest guard expectedRevision pointer.snapshotId encoded with
              leaseTick := exchange.tick } exchange.before.store s
            ∧ Holding (currentKey guard.tablePrefix) encoded
                (stateAfter s ((later.flatMap (·.others)).map Call.operation))) := by
  obtain ⟨others, before, tick, fate, later, rfl, -, -, h⟩ := h.of_call
  obtain ⟨hgets, hfound⟩ := after_reply hresult h
  refine ⟨_, later, rfl, rfl, fun read hread => by rw [hgets read hread]; rfl, ?_⟩
  rcases publish_reply hencoded others before with hpublishes | ⟨hmisses, hfailed⟩
  · exact .inl hpublishes
  · rcases hfound with ⟨transacted, hreply, hsucceeded⟩ | ⟨hstatus, hvalid, s, hrun, hholding⟩
    · rw [hfailed transacted hreply] at hsucceeded
      cases hsucceeded
    · exact .inr ⟨hstatus, hvalid, _, hmisses, hrun.eq_stateAfter ▸ hholding⟩

/-- A publication that reports success, taken apart. -/
theorem publishSnapshot_plays
    (h : Plays (publishSnapshot client guard expectedRevision pointer) w exchanges (.ok result)) :
    ∃ load rest before encoded, exchanges = load :: rest ∧ load.request.isTransaction = false
      ∧ encodePointer pointer = .ok encoded
      ∧ Plays (tryCatch (tryPublish client guard expectedRevision pointer encoded)
        (recoverPublish guard pointer encoded)) before rest (.ok result) := by
  obtain ⟨others, before, tick, fate, rest, rfl, -, hallowed, h⟩ := Plays.of_call h
  cases fate with
  | lost _ _ | dropped _ _ => cases hallowed.2
  | answered =>
    cases hactive : before.active guard.lease.token with
    | false =>
      simp only [Fate.reply, World.answer, Bind.bind, Calls.bind, hactive, Bool.not_false,
        if_true] at h
      cases (Plays.of_done h).2
    | true =>
      simp only [Fate.reply, World.answer, Bind.bind, Calls.bind, hactive, Bool.not_true,
        Bool.false_eq_true, if_false, Calls.ofExcept] at h
      cases hencoded : encodePointer pointer with
      | error e =>
        rw [hencoded] at h
        cases (Plays.of_done h).2
      | ok encoded =>
        rw [hencoded] at h
        exact ⟨_, rest, before, encoded, rfl, rfl, rfl, h⟩

/-- A publication that reports success was executed, or has missed the store and then found the
pointer at the current key. -/
theorem reported_publication (hresult : result.published = true)
    (h : Plays (publishSnapshot client guard expectedRevision pointer) w exchanges (.ok result)) :
    ExecutedOnce guard expectedRevision pointer exchanges
      ∨ result.status = .recoveredAfterUncertainResponse
        ∧ ∃ σ encoded s, settingOf exchanges = some σ ∧ encodePointer pointer = .ok encoded
          ∧ validateKey (currentKey guard.tablePrefix) = .ok ()
          ∧ Misses { publishRequest guard expectedRevision pointer.snapshotId encoded with
              leaseTick := σ.tick } σ.store s
          ∧ Holding (currentKey guard.tablePrefix) encoded (stateAfter s σ.others) := by
  obtain ⟨load, rest, before, encoded, rfl, hload, hencoded, h⟩ := publishSnapshot_plays h
  obtain ⟨exchange, later, rfl, hrequest, hlater, hcases⟩ := try_publishes hencoded hresult h
  have htransaction : exchange.request.isTransaction = true := by
    rw [hrequest]
    rfl
  rcases hcases with hpublishes | ⟨hstatus, hvalid, s, hmisses, hholding⟩
  · refine .inl ⟨exchange, ?_, hpublishes⟩
    have hreads : later.filter (·.request.isTransaction) = [] :=
      filter_eq_nil_iff.mpr fun read hread => by simp [hlater read hread]
    simp [hload, htransaction, hreads]
  · exact .inr ⟨hstatus, _, encoded, s, by rw [settingOf, hload, settingOf, htransaction]; rfl,
      hencoded, hvalid, hmisses, hholding⟩

end

/-- The publication in a setting whose transaction goes the given way, and is then looked for
by a read that is answered. -/
def uncertainPublication (σ : Setting) (client : Nat) (guard : WriterGuard) (expectedRevision : Int)
    (pointer : SnapshotPointer) (encoded : ByteSequence) (fate : Fate) (s : InMemoryMetadataStore) :
    List Exchange :=
  [⟨[], { store := σ.store }, .loadActive guard.lease.token, σ.tick, .answered⟩,
   ⟨[], { store := σ.store }, publication client guard expectedRevision pointer encoded, σ.tick,
    fate⟩,
   ⟨callsFrom s σ.others, { store := stateAfter s σ.others }, .get (currentKey guard.tablePrefix),
    σ.tick, .answered⟩]

section

variable {σ : Setting} {client : Nat} {guard : WriterGuard} {expectedRevision : Int}
variable {pointer : SnapshotPointer} {encoded : ByteSequence} {s : InMemoryMetadataStore}

theorem settingOf_uncertainPublication {fate : Fate} : settingOf
    (uncertainPublication σ client guard expectedRevision pointer encoded fate s) = some σ := by
  have hcalls : (callsFrom s σ.others).map Call.operation = σ.others := by
    generalize σ.others = operations
    induction operations generalizing s with
    | nil => rfl
    | cons operation operations ih => rw [callsFrom, map_cons, ih]
  simp [uncertainPublication, settingOf, publication, Request.isTransaction, hcalls]

theorem recover_plays {others : List Call} {tick : Nat} {value : KeyValue}
    {code : StatusCode} {message : String} (hcode : uncertainStatus code = true)
    (run : Run w.store others s) (hvalid : validateKey (currentKey guard.tablePrefix) = .ok ())
    (hvalue : s.values[currentKey guard.tablePrefix]? = some value) :
    Plays (recoverPublish guard pointer value.value (.kuraClientError code message)) w
      [⟨others, { store := s }, .get (currentKey guard.tablePrefix), tick, .answered⟩]
      (.ok ⟨.recoveredAfterUncertainResponse, value.modRevision, some pointer⟩) := by
  have hreply : (Fate.answered.reply { store := s } tick (.get (currentKey guard.tablePrefix))).1
      = .ok { value := some value, revision := s.revision } := by
    refine (congrArg Prod.fst (answer_get _ tick _)).trans ?_
    rw [hvalid, ← hvalue]
    rfl
  unfold recoverPublish
  rw [if_neg (by simp [ClientException.uncertain, hcode])]
  refine Plays.call run trivial ?_
  rw [hreply]
  simp only [Calls.bind, if_true]
  exact Plays.done

/-- Where a transaction that misses the store can be mistaken for one that does not, the
publication is reported as recovered. -/
theorem uncertainPublication_plays {fate : Fate} (hencoded : encodePointer pointer = .ok encoded)
    (hvalid : validateKey (currentKey guard.tablePrefix) = .ok ())
    (hfate : fate = .lost .noQuorum "" ∨ fate = .dropped .noQuorum "")
    (hstore : (fate.reply { store := σ.store } σ.tick
      (publication client guard expectedRevision pointer encoded)).2.store = s)
    (hholding : Holding (currentKey guard.tablePrefix) encoded (stateAfter s σ.others)) :
    ∃ result, Plays (publishSnapshot client guard expectedRevision pointer) { store := σ.store }
        (uncertainPublication σ client guard expectedRevision pointer encoded fate s) (.ok result)
      ∧ result.status = .recoveredAfterUncertainResponse := by
  obtain ⟨value, hvalue, rfl⟩ := Option.map_eq_some_iff.mp hholding
  refine ⟨⟨.recoveredAfterUncertainResponse, value.modRevision, some pointer⟩, ?_, rfl⟩
  refine Plays.call Run.nil trivial ?_
  simp only [Fate.reply, World.answer, Bind.bind, Calls.bind, Bool.not_true, Bool.false_eq_true,
    if_false, Calls.ofExcept, hencoded]
  have hrun : Run (fate.reply { store := σ.store } σ.tick
      (publication client guard expectedRevision pointer value.value)).2.store
      (callsFrom s σ.others) (stateAfter s σ.others) := hstore ▸ Run.of_operations s σ.others
  rcases hfate with rfl | rfl <;>
    exact Plays.call Run.nil ⟨rfl, rfl⟩ (recover_plays rfl hrun hvalid hvalue)

/-- A publication whose transaction misses the store is not executed. -/
theorem uncertainPublication_unexecuted {fate : Fate}
    (hencoded : encodePointer pointer = .ok encoded)
    (h : fate.executed = true → ∀ result t, transaction
      { publishRequest guard expectedRevision pointer.snapshotId encoded with leaseTick := σ.tick }
      σ.store = .ok result t → result.1.succeeded = false) :
    ¬ ExecutedOnce guard expectedRevision pointer
      (uncertainPublication σ client guard expectedRevision pointer encoded fate s) := by
  rintro ⟨exchange, hfilter, encoded', _, result, t, hencoded', _, hexecuted, hrun, hsucceeded, _⟩
  cases hencoded.symm.trans hencoded'
  cases (List.singleton_inj.mp hfilter.symm)
  rw [h hexecuted result t hrun] at hsucceeded
  cases hsucceeded

end

/-- **When a reported publication was executed.** One that is reported as published was executed,
with success and once. In a given setting one that is reported as recovered was, however its
calls have gone, exactly if the pointer cannot be mistaken there. -/
theorem reported_publication_executed_iff (client : Nat) (guard : WriterGuard)
    (expectedRevision : Int) (pointer : SnapshotPointer) :
    (∀ w exchanges result,
      Plays (publishSnapshot client guard expectedRevision pointer) w exchanges (.ok result) →
      result.status = .published → ExecutedOnce guard expectedRevision pointer exchanges)
    ∧ ∀ σ : Setting, (∀ w exchanges result,
        Plays (publishSnapshot client guard expectedRevision pointer) w exchanges (.ok result) →
        settingOf exchanges = some σ → result.status = .recoveredAfterUncertainResponse →
        ExecutedOnce guard expectedRevision pointer exchanges)
      ↔ σ.Unmistakable guard expectedRevision pointer := by
  refine ⟨fun w exchanges result h hstatus => ?_, fun σ => ⟨fun hall encoded s hencoded hvalid
    hmisses hholding => ?_, fun hunmistakable w exchanges result h hσ hstatus => ?_⟩⟩
  · rcases reported_publication (by simp [PublishResult.published, hstatus]) h with hdone | ⟨h, -⟩
    · exact hdone
    · cases hstatus.symm.trans h
  · cases hmisses with
    | unexecuted =>
      obtain ⟨result, hplays, hstatus⟩ := @uncertainPublication_plays σ client guard
        expectedRevision pointer encoded _ _ hencoded hvalid (.inr rfl) rfl hholding
      exact uncertainPublication_unexecuted hencoded (fun h => by cases h)
        (hall _ _ result hplays settingOf_uncertainPublication hstatus)
    | failed hfailed =>
      obtain ⟨result, hplays, hstatus⟩ := @uncertainPublication_plays σ client guard
        expectedRevision pointer encoded _ _ hencoded hvalid (.inl rfl)
        (answer_store_of_operation rfl) hholding
      exact uncertainPublication_unexecuted hencoded (fun _ => hfailed)
        (hall _ _ result hplays settingOf_uncertainPublication hstatus)
  · rcases reported_publication (by simp [PublishResult.published, hstatus]) h with
      hdone | ⟨-, σ', encoded, s, hσ', hencoded, hvalid, hmisses, hholding⟩
    · exact hdone
    · cases hσ.symm.trans hσ'
      exact absurd hholding (hunmistakable encoded s hencoded hvalid hmisses)

/-! ## A pointer published twice -/

def someGuard : WriterGuard := ⟨⟨1, 1⟩, someRoot, 0⟩

/-- The encoding of the first pointer. -/
def someEncoded : ByteSequence := (encodePointer (somePointer (ascii ['1']))).toOption.getD []

/-- The store in which the guard was acquired. -/
def claimedStore : InMemoryMetadataStore :=
  stateAfter emptyStore
    [.grantLease { ttl := 10, tick := 1 },
     .transaction { claimRequest someRoot ⟨1, 1⟩ with leaseTick := 1 }]

/-- The store in which the first pointer was published. -/
def publishedStore : InMemoryMetadataStore :=
  stateAfter claimedStore
    [.transaction { publishRequest someGuard 0 (ascii ['1']) someEncoded with leaseTick := 2 }]

/-- The writer publishes its pointer once more, and the backend has no quorum for it. -/
def refusedRepublication : List Exchange :=
  [⟨[], { store := publishedStore }, .loadActive 1, 3, .answered⟩,
   ⟨[], { store := publishedStore },
    publication 0 someGuard 2 (somePointer (ascii ['1'])) someEncoded, 3,
    .dropped .noQuorum "no quorum"⟩,
   ⟨[], { store := publishedStore }, .get (currentKey someRoot), 3, .answered⟩]

/-- The pointer that is read back is that of the publication before, and the transaction was not
executed. -/
theorem republication_reported_unexecuted :
    ∃ exchanges result,
      Plays (publishSnapshot 0 someGuard 2 (somePointer (ascii ['1']))) { store := publishedStore }
          exchanges (.ok result)
        ∧ result.status = .recoveredAfterUncertainResponse
        ∧ ¬ ∃ exchange ∈ exchanges, Publishes someGuard 2 (somePointer (ascii ['1'])) exchange := by
  refine ⟨refusedRepublication,
    ⟨.recoveredAfterUncertainResponse, 2, some (somePointer (ascii ['1']))⟩, ?_, rfl, ?_⟩
  · refine Plays.call Run.nil trivial ?_
    refine Plays.call Run.nil ⟨rfl, rfl⟩ ?_
    refine Plays.call Run.nil trivial ?_
    exact Plays.done
  · rintro ⟨exchange, hmem, _, _, _, _, -, hrequest, hexecuted, -⟩
    simp only [refusedRepublication, mem_cons, not_mem_nil, or_false] at hmem
    rcases hmem with rfl | rfl | rfl
    · cases hrequest
    · cases hexecuted
    · cases hrequest

end KuraMetadata.Kura
