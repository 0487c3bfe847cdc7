import Mathlib.Tactic.IntervalCases
import KuraMetadata.Kura.Publications

/-! # Snapshots that readers have registered

A reader's key is its own as long as its client has not used up the sequence numbers, so while
it is there the snapshot is not collected. What a publication with the same snapshot id does is
another matter: it rewrites the snapshot. -/

namespace KuraMetadata.Kura

open Std InMemoryMetadataStore List Option

variable {catalogs : Nat → Identifier} {initial : Int} {w w' : World}
variable {root readerId encoded : ByteSequence} {action : Action} {client client' sequence : Nat}
variable {session : LeaseSession} {snapshot : SnapshotPointer} {operation : ClientOperation}
variable {store : InMemoryMetadataStore}

/-! ## Reader ids -/

theorem ofUInt8_toUInt8_of_isDigit {c : Char} (h : c.isDigit = true) :
    Char.ofUInt8 c.toUInt8 = c := by
  simp only [Char.isDigit, Bool.and_eq_true, decide_eq_true_eq] at h
  obtain ⟨hlow, hhigh⟩ := h
  have hlow' : 48 ≤ c.toNat := UInt32.le_iff_toNat_le.mp hlow
  have hhigh' : c.toNat ≤ 57 := UInt32.le_iff_toNat_le.mp hhigh
  rw [← Char.ofNat_toNat c]
  generalize c.toNat = n at hlow' hhigh'
  interval_cases n <;> rfl

theorem map_ofUInt8_decimal (value : Nat) :
    (decimal value).map Char.ofUInt8 = Nat.toDigits 10 value := by
  unfold decimal ascii
  rw [List.map_map]
  calc (Nat.toDigits 10 value).map (Char.ofUInt8 ∘ Char.toUInt8)
      = (Nat.toDigits 10 value).map id := map_congr_left fun c hc =>
        ofUInt8_toUInt8_of_isDigit (Nat.isDigit_of_mem_toDigits (by decide) (by decide) hc)
    _ = Nat.toDigits 10 value := map_id _

theorem decimal_injective {m n : Nat} (h : decimal m = decimal n) : m = n := by
  have hdigits := congrArg (List.map Char.ofUInt8) h
  rw [map_ofUInt8_decimal, map_ofUInt8_decimal] at hdigits
  have hread := congrArg (Nat.ofDigitChars 10 · 0) hdigits
  simpa only [Nat.ofDigitChars_ten_toDigits] using hread

theorem dash_notMem_decimal (value : Nat) : '-'.toUInt8 ∉ decimal value := by
  intro hmem
  have hdigit := mem_map_of_mem (f := Char.ofUInt8) hmem
  rw [map_ofUInt8_decimal] at hdigit
  have := Nat.isDigit_of_mem_toDigits (by decide) (by decide) hdigit
  revert this
  decide

/-- The id of a reader determines its client and, below 2⁶⁴, its sequence number. -/
theorem readerIdOf_inj {sequence' : Nat} (h : sequence ≤ u64Max)
    (h' : sequence' ≤ u64Max) (hid : readerIdOf client sequence = readerIdOf client' sequence') :
    client = client' ∧ sequence = sequence' := by
  obtain ⟨hclient, hsequence⟩ :=
    append_cons_inj (dash_notMem_decimal client) (dash_notMem_decimal client') hid
  have hdigits := decimal_injective hsequence
  rw [Nat.mod_eq_of_lt (by omega), Nat.mod_eq_of_lt (by omega)] at hdigits
  exact ⟨decimal_injective hclient, hdigits⟩

/-! ## Processes that are about to register -/

/-- The process is about to register the client's reader with the id in the table. -/
def Registers (root : ByteSequence) (process : Process) (client : Nat) (readerId : ByteSequence) :
    Prop :=
  ∃ session snapshotId encoded next, process.program
    = .call (.transaction client (registerRequest root readerId session snapshotId encoded)) next

theorem registerRequest_inj {root' readerId' snapshotId snapshotId' encoded' : ByteSequence}
    {session' : LeaseSession} (hroot : IsTableRoot root) (hroot' : IsTableRoot root')
    (h : registerRequest root readerId session snapshotId encoded
      = registerRequest root' readerId' session' snapshotId' encoded') :
    root = root' ∧ readerId = readerId' := by
  have hput := (List.cons.inj (congrArg TransactionRequest.success h)).1
  have hkey : readerKey root readerId = readerKey root' readerId' :=
    congrArg PutRequest.key (RequestOperation.put.inj hput)
  have hsame : root = root' := hroot.eq_of_isPrefix hroot' (isPrefix_readerKey root readerId)
    (hkey ▸ isPrefix_readerKey root' readerId')
  subst hsame
  exact ⟨rfl, (readerKey_inj _ _ _).mp hkey⟩

section

variable {request : Request} {readerId snapshotId encoded tableId : ByteSequence}
variable {next : Except ClientException (Answer request) → Program Outcome}
variable {next' : Except ClientException TransactionResult → Program Outcome}

theorem operation_of_registration
    (h : (operation.program catalogs).Within inProcess
      (.call (.transaction client (registerRequest root readerId session snapshotId encoded))
        next')) :
    ∃ tableId snapshot ttl, operation = .registerReader client tableId snapshot ttl := by
  have hsite := site_of_within h
  generalize hprogram : (.call (.transaction client
    (registerRequest root readerId session snapshotId encoded)) next' : Program Outcome)
      = program at hsite
  cases hsite with
  | silent harmless plain =>
    cases hprogram
    cases harmless
  | claim table | publish encodes =>
    have hrequest := (Request.transaction.inj (Calls.call.inj hprogram).1).2
    cases congrArg (fun r => r.comparisons.map (·.target)) hrequest
  | register table encodes =>
    obtain ⟨rfl, -⟩ := Request.transaction.inj (Calls.call.inj hprogram).1
    exact ⟨_, _, _, rfl⟩
  | revoke owner plain | collect table identifier range plain => cases hprogram

theorem program_ne_registration {ttl : Int} :
    (ClientOperation.registerReader client tableId snapshot ttl).program catalogs
      ≠ .call (.transaction client (registerRequest root readerId session snapshotId encoded))
        next' := by
  intro h
  rcases registerReader_program client tableId snapshot ttl with
    ⟨e, hprogram⟩ | ⟨root, encoded, -, -, hprogram⟩
  · rw [hprogram] at h
    cases h
  · rw [hprogram] at h
    cases h

/-- A registration is made right after its sequence number was taken. -/
theorem sequenceFrom_of_next {ttl : Int}
    {reply : Except ClientException (Answer request)} (hroot : IsTableRoot root)
    (h : ((ClientOperation.registerReader client tableId snapshot ttl).program catalogs).Within
      inProcess (.call request next))
    (hnext : next reply = .call (.transaction client
      (registerRequest root readerId session snapshotId encoded)) next') :
    ∃ encoded session,
      Calls.call request next = sequenceFrom client root snapshot encoded session := by
  obtain ⟨root', encoded', htable, -, phase⟩ := readerPhase_of_within h
  generalize hprogram : Calls.call request next = program at phase
  cases phase with
  | grant | lose session =>
    cases hprogram
    cases reply <;> cases hnext
  | sequence session =>
    cases hprogram
    cases reply with
    | error e => cases hnext
    | ok sequence =>
      have hrequest := (Request.transaction.inj (Calls.call.inj hnext).1).2
      obtain ⟨rfl, -⟩ := registerRequest_inj (isTableRoot_of_tablePrefix htable) hroot hrequest
      exact ⟨encoded', session, rfl⟩
  | register session sequence =>
    cases hprogram
    cases reply with
    | error e => cases hnext
    | ok registration =>
      obtain ⟨header, succeeded, responses⟩ := registration
      cases succeeded <;> cases hnext

end

/-- A process about to register was so before the step, or has just taken its client's next
sequence number. -/
theorem Sound.registers_step {q : Nat} {process : Process} (sound : Sound catalogs initial w)
    (hroot : IsTableRoot root) (h : w.step catalogs action = some w')
    (hq : w'.processes[q]? = some process) (hregisters : Registers root process client readerId) :
    (w.processes[q]? = some process ∧ ∀ tick, action ≠ .advance q tick)
      ∨ readerId = readerIdOf client (w.sequences client)
        ∧ w'.sequences client = w.sequences client + 1
        ∧ ∃ tick operation next, action = .advance q tick
          ∧ w.processes[q]? = some ⟨operation, .call (.takeSequence client) next⟩ := by
  obtain ⟨session, snapshotId, encoded, next', hprogram⟩ := hregisters
  rcases process_of_step h hq with hq | ⟨v, operation, program, before, tick, rfl, rfl, horigin⟩
  · exact .inl hq
  have hwithin := (sound.within horigin).1
  replace hprogram : program = _ := hprogram
  rw [hprogram] at hwithin
  obtain ⟨tableId, snapshot, ttl, rfl⟩ := operation_of_registration hwithin
  refine .inr ?_
  cases horigin with
  | started => exact absurd hprogram program_ne_registration
  | @answered request next tick running =>
    obtain ⟨encoded', session', hsequence⟩ :=
      sequenceFrom_of_next hroot (sound.running running).1 hprogram
    cases hsequence
    have hrequest := (Request.transaction.inj (Calls.call.inj hprogram).1).2
    obtain ⟨-, rfl⟩ := registerRequest_inj hroot hroot hrequest
    refine ⟨rfl, ?_, tick, _, _, rfl, running⟩
    rw [settle_sequences]
    exact Function.update_self _ _ _

/-! ## Ids are not used twice -/

/-- The process is at a call that takes the client's next sequence number. -/
def World.takesSequence (w : World) (p : Nat) : Option Nat :=
  match w.processes[p]? with
  | some ⟨_, .call (.takeSequence client) _⟩ => some client
  | _ => none

/-- No client takes a sequence number of 2⁶⁴ or more. -/
def SequencesLast (w : World) (action : Action) : Prop :=
  ∀ p tick client, action = .advance p tick → w.takesSequence p = some client →
    w.sequences client ≤ u64Max

/-- The id was made from one of the client's sequence numbers. -/
def Issued (w : World) (client : Nat) (readerId : ByteSequence) : Prop :=
  ∃ sequence, sequence < w.sequences client ∧ sequence ≤ u64Max
    ∧ readerId = readerIdOf client sequence

theorem Issued.ne_next (h : Issued w client readerId) (hlast : w.sequences client' ≤ u64Max) :
    readerId ≠ readerIdOf client' (w.sequences client') := by
  obtain ⟨sequence, hlt, hle, rfl⟩ := h
  intro hid
  obtain ⟨rfl, hsame⟩ := readerIdOf_inj hle hlast hid
  omega

theorem answer_sequences_le (w : World) (tick : Nat) (request : Request) (client : Nat) :
    w.sequences client ≤ (w.answer tick request).2.sequences client := by
  have honStore : ∀ {α : Type} (v : World) (x : EStateM ClientException InMemoryMetadataStore α),
      (v.onStore x).2.sequences = v.sequences := by
    intro α v x
    rw [onStore_world]
  have htaken : ∀ taker, w.sequences client
      ≤ Function.update w.sequences taker (w.sequences taker + 1) client := by
    intro taker
    by_cases hsame : client = taker
    · subst hsame
      rw [Function.update_self]
      omega
    · rw [Function.update_of_ne hsame]
  cases request
  case transaction taker request =>
    let taken : World :=
      { w with sequences := Function.update w.sequences taker (w.sequences taker + 1) }
    exact (htaken taker).trans (congrFun (honStore taken _) client).ge
  case takeSequence taker => exact htaken taker
  case createWatch taker request =>
    refine (congrFun ?_ client).le
    show _ = (w.createWatch taker request).2.sequences
    unfold World.createWatch
    cases InMemoryMetadataStore.createWatch request w.store with
    | ok response s | error e s => rfl
  case exchangeClosed token =>
    refine (congrFun ?_ client).le
    show _ = (w.exchangeClosed token).2.sequences
    unfold World.exchangeClosed
    split <;> rfl
  case cancelWatch | takeWatchId | loadActive | clearActive => exact le_rfl
  all_goals exact (congrFun (honStore _ _) client).ge

theorem step_sequences_le (h : w.step catalogs action = some w') (client : Nat) :
    w.sequences client ≤ w'.sequences client := by
  cases action with
  | start process operation =>
    obtain ⟨-, ⟨⟩⟩ := ite_none_right_eq_some.mp h
    rw [settle_sequences]
  | advance process tick =>
    simp only [World.step] at h
    split at h
    · cases h
      rw [settle_sequences]
      exact answer_sequences_le w tick _ client
    · cases h
  | expire tick =>
    cases h
    exact le_rfl
  | other operation =>
    obtain ⟨-, ⟨⟩⟩ := ite_none_right_eq_some.mp h
    exact le_rfl

theorem Issued.step (h : Issued w client readerId) (hstep : w.step catalogs action = some w') :
    Issued w' client readerId := by
  obtain ⟨sequence, hlt, hle, hid⟩ := h
  exact ⟨sequence, hlt.trans_le (step_sequences_le hstep client), hle, hid⟩

/-- Every reader of the table, registered or about to be, has an id of its own. -/
structure FreshReaders (catalogs : Nat → Identifier) (root : ByteSequence) (w : World) : Prop where
  registered : ∀ registration ∈ w.registrations catalogs root,
    Issued w registration.client registration.guard.readerId
  waiting : ∀ {p client : Nat} {process : Process} {readerId : ByteSequence},
    w.processes[p]? = some process → Registers root process client readerId →
    Issued w client readerId
  apart : ∀ {p client : Nat} {process : Process} {readerId : ByteSequence},
    w.processes[p]? = some process → Registers root process client readerId →
    ∀ registration ∈ w.registrations catalogs root, registration.guard.readerId ≠ readerId
  distinct : ∀ {p q client client' : Nat} {process process' : Process}
    {readerId readerId' : ByteSequence}, p ≠ q → w.processes[p]? = some process →
    w.processes[q]? = some process' → Registers root process client readerId →
    Registers root process' client' readerId' → readerId ≠ readerId'

theorem readerFrom_registers :
    Registers root ⟨operation, readerFrom client root snapshot encoded session sequence⟩ client
      (readerIdOf client sequence) :=
  ⟨session, snapshot.snapshotId, encoded, _, rfl⟩

/-- A step registers at most one reader of the table, the one its process was about to. -/
theorem TableStep.registrations (step : TableStep catalogs root w action w') :
    w'.registrations catalogs root = w.registrations catalogs root
      ∨ ∃ p tick process registration, action = .advance p tick ∧ w.processes[p]? = some process
        ∧ Registers root process registration.client registration.guard.readerId
        ∧ w'.registrations catalogs root = w.registrations catalogs root ++ [registration] := by
  cases step with
  | registered running table encodes live found reads leased values reports =>
    exact .inr ⟨_, _, _, ⟨_, ⟨_, _, _⟩⟩, rfl, running, readerFrom_registers,
      congrArg Reports.registrations reports⟩
  | quiet kept reports
  | published running held table encodes live expected owned values currentValue snapshotValue
      reports
  | released removed origin reports => exact .inl (congrArg Reports.registrations reports)
  | claimed running table live free leased values reports
  | collected running table range unreferenced values reports =>
    exact .inl (congrArg Reports.registrations reports)

theorem takesSequence_eq_some {p : Nat} {next : Except ClientException Nat → Program Outcome}
    (h : w.processes[p]? = some ⟨operation, .call (.takeSequence client) next⟩) :
    w.takesSequence p = some client := by
  unfold World.takesSequence
  rw [h]

theorem FreshReaders.step (sound : Sound catalogs initial w) (hroot : IsTableRoot root)
    (h : FreshReaders catalogs root w) (hlast : SequencesLast w action)
    (hstep : w.step catalogs action = some w') (step : TableStep catalogs root w action w') :
    FreshReaders catalogs root w' := by
  -- every registration after the step has an id that was issued before it
  have hissued : ∀ registration ∈ w'.registrations catalogs root,
      Issued w registration.client registration.guard.readerId := by
    rcases step.registrations with hsame | ⟨p, tick, process, new, -, hp, hregisters, hnew⟩
    · rw [hsame]
      exact h.registered
    · rw [hnew]
      exact forall_mem_concat h.registered (h.waiting hp hregisters)
  have htaken : ∀ {q client : Nat}, (∃ tick operation next, action = .advance q tick
        ∧ w.processes[q]? = some ⟨operation, .call (.takeSequence client) next⟩) →
      w.sequences client ≤ u64Max := by
    rintro q client ⟨tick, operation, next, haction, hq⟩
    exact hlast q tick client haction (takesSequence_eq_some hq)
  constructor
  · exact fun registration hmem => (hissued registration hmem).step hstep
  · intro p client process readerId hp hregisters
    rcases sound.registers_step hroot hstep hp hregisters with ⟨hp, -⟩ | ⟨hid, hnext, htake⟩
    · exact (h.waiting hp hregisters).step hstep
    · exact ⟨w.sequences client, by omega, htaken htake, hid⟩
  · intro q client process readerId hq hregisters registration hmem
    rcases sound.registers_step hroot hstep hq hregisters with ⟨hq, hother⟩ | ⟨hid, -, htake⟩
    · rcases step.registrations with hsame | ⟨p, tick, process', new, rfl, hp, hnew, happended⟩
      · rw [hsame] at hmem
        exact h.apart hq hregisters registration hmem
      · rw [happended] at hmem
        rcases mem_append.mp hmem with hmem | hmem
        · exact h.apart hq hregisters registration hmem
        · rw [mem_singleton.mp hmem]
          refine h.distinct ?_ hp hq hnew hregisters
          rintro rfl
          exact hother tick rfl
    · rw [hid]
      exact (hissued registration hmem).ne_next (htaken htake)
  · intro p q client client' process process' readerId readerId' hne hp hq hregisters hregisters'
    rcases sound.registers_step hroot hstep hp hregisters with ⟨hp, hother⟩ | ⟨hid, -, htake⟩
    · rcases sound.registers_step hroot hstep hq hregisters' with ⟨hq, -⟩ | ⟨hid', -, htake'⟩
      · exact h.distinct hne hp hq hregisters hregisters'
      · rw [hid']
        exact (h.waiting hp hregisters).ne_next (htaken htake')
    · rcases sound.registers_step hroot hstep hq hregisters' with ⟨hq, -⟩ | ⟨-, -, htake'⟩
      · rw [hid]
        exact ((h.waiting hq hregisters').ne_next (htaken htake)).symm
      · -- one step takes one sequence number
        obtain ⟨_, _, _, haction, -⟩ := htake
        obtain ⟨_, _, _, haction', -⟩ := htake'
        rw [haction] at haction'
        cases haction'
        exact absurd rfl hne

theorem FreshReaders.opened : FreshReaders catalogs root { store } := by
  have hnone : ∀ {p : Nat} {process : Process}, (∅ : ExtTreeMap Nat Process compare)[p]?
      ≠ some process := by
    intro p process hp
    rw [ExtTreeMap.getElem?_empty] at hp
    cases hp
  exact ⟨forall_mem_nil _, fun hp _ => absurd hp hnone, fun hp _ => absurd hp hnone,
    fun _ hp _ _ _ => absurd hp hnone⟩

/-! ## Pinned snapshots -/

/-- As long as the key of a registered reader is there, its snapshot is the one that was
registered. -/
def Pinned (catalogs : Nat → Identifier) (root : ByteSequence) (w : World) : Prop :=
  ∀ registration ∈ w.registrations catalogs root,
    ∀ reader, w.store.values[readerKey root registration.guard.readerId]? = some reader →
      ∃ value, w.store.values[snapshotKey root registration.guard.snapshot.snapshotId]? = some value
        ∧ encodePointer registration.guard.snapshot = .ok value.value

/-- The process is about to publish, and the snapshot id it publishes is one that a reader of the
table has registered with other bytes. -/
def Rewrites (root : ByteSequence) (w : World) (p : Nat) : Prop :=
  ∃ client guard expectedRevision pointer encoded,
    w.processes[p]? = some ⟨.publishSnapshot client guard expectedRevision pointer,
      publishFrom client guard expectedRevision pointer encoded⟩
    ∧ guard.tablePrefix = root
    ∧ (w.store.values[currentKey root]?.map (·.modRevision)).getD 0 = expectedRevision
    ∧ ∃ readerId reader snapshot, w.store.values[readerKey root readerId]? = some reader
      ∧ reader.value = pointer.snapshotId
      ∧ w.store.values[snapshotKey root pointer.snapshotId]? = some snapshot
      ∧ snapshot.value ≠ encoded

/-- No publication rewrites a registered snapshot, and no client takes a sequence number of 2⁶⁴
or more. -/
def Immutable (root : ByteSequence) (w : World) (action : Action) : Prop :=
  SequencesLast w action ∧ ∀ p tick, action = .advance p tick → ¬ Rewrites root w p

structure Pinning (catalogs : Nat → Identifier) (root : ByteSequence) (w : World) : Prop where
  fresh : FreshReaders catalogs root w
  referenced : Referenced root w.store
  reads : ∀ registration ∈ w.registrations catalogs root,
    ∀ reader, w.store.values[readerKey root registration.guard.readerId]? = some reader →
      reader.value = registration.guard.snapshot.snapshotId
  pinned : Pinned catalogs root w

/-- A step that registers no reader, keeps or removes the reader keys, and keeps the snapshots
that a remaining reader key refers to. -/
theorem Pinning.of_kept (h : Pinning catalogs root w) (fresh : FreshReaders catalogs root w')
    (referenced : Referenced root w'.store)
    (registrations : w'.registrations catalogs root = w.registrations catalogs root)
    (readers : ∀ id reader, w'.store.values[readerKey root id]? = some reader →
      w.store.values[readerKey root id]? = some reader)
    (snapshots : ∀ id reader value, w.store.values[readerKey root id]? = some reader →
      w.store.values[snapshotKey root reader.value]? = some value →
      ∃ value', w'.store.values[snapshotKey root reader.value]? = some value'
        ∧ value'.value = value.value) : Pinning catalogs root w' := by
  refine ⟨fresh, referenced, ?_, ?_⟩
  · rw [registrations]
    exact fun registration hmem reader hreader =>
      h.reads registration hmem reader (readers _ _ hreader)
  · unfold Pinned
    rw [registrations]
    intro registration hmem reader hreader
    have hbefore := readers _ _ hreader
    have hreads := h.reads registration hmem reader hbefore
    obtain ⟨value, hvalue, hencoded⟩ := h.pinned registration hmem reader hbefore
    rw [← hreads] at hvalue ⊢
    obtain ⟨value', hvalue', hsame⟩ := snapshots _ reader value hbefore hvalue
    exact ⟨value', hvalue', by rw [hsame, hencoded]⟩

theorem Pinning.step (sound : Sound catalogs initial w) (hroot : IsTableRoot root)
    (h : Pinning catalogs root w) (hallowed : Immutable root w action)
    (hstep : w.step catalogs action = some w') (step : TableStep catalogs root w action w') :
    Pinning catalogs root w' := by
  have hfresh := h.fresh.step sound hroot hallowed.1 hstep step
  have hreferenced := h.referenced.step step
  cases step with
  | quiet kept reports =>
    refine h.of_kept hfresh hreferenced (congrArg Reports.registrations reports)
      (fun id reader hreader => ?_) fun id reader value hreader hvalue => ⟨value, ?_, rfl⟩
    · rwa [kept _ (isPrefix_readerKey root id)] at hreader
    · rw [kept _ (isPrefix_snapshotKey root _), hvalue]
  | claimed running table live free leased values reports =>
    refine h.of_kept hfresh hreferenced (congrArg Reports.registrations reports)
      (fun id reader hreader => ?_) fun id reader value hreader hvalue => ⟨value, ?_, rfl⟩
    · rwa [values, ExtTreeMap.getElem?_insert_of_ne (writerKey_ne_readerKey root id)] at hreader
    · rw [values, ExtTreeMap.getElem?_insert_of_ne (writerKey_ne_snapshotKey root _), hvalue]
  | @published p tick client guard expectedRevision pointer encoded current snapshot _ running held
      table encodes live expected owned values currentValue snapshotValue reports =>
    refine h.of_kept hfresh hreferenced (congrArg Reports.registrations reports)
      (fun id reader hreader => ?_) fun id reader value hreader hvalue => ?_
    · rwa [values, ExtTreeMap.getElem?_insert_of_ne (snapshotKey_ne_readerKey root _ id),
        ExtTreeMap.getElem?_insert_of_ne (currentKey_ne_readerKey root id)] at hreader
    · by_cases hid : pointer.snapshotId = reader.value
      · -- the snapshot is written again, by the condition with the same bytes
        refine ⟨snapshot, by rw [values, hid, ExtTreeMap.getElem?_insert_self], ?_⟩
        rw [snapshotValue.1]
        by_contra hne
        refine hallowed.2 p tick rfl ⟨client, guard, expectedRevision, pointer, encoded, running,
          table, expected, id, reader, value, hreader, hid.symm, ?_, fun hsame => hne hsame.symm⟩
        rw [hid, hvalue]
      · refine ⟨value, ?_, rfl⟩
        rw [values, ExtTreeMap.getElem?_insert_of_ne (by rwa [ne_eq, snapshotKey_inj]),
          ExtTreeMap.getElem?_insert_of_ne (currentKey_ne_snapshotKey root _), hvalue]
  | collected running table range unreferenced values reports =>
    refine h.of_kept hfresh hreferenced (congrArg Reports.registrations reports)
      (fun id reader hreader => ?_) fun id reader value hreader hvalue => ⟨value, ?_, rfl⟩
    · rwa [values, if_neg (snapshotKey_ne_readerKey root _ id).symm] at hreader
    · have hinside :=
        (containsKey_prefixRange range (readerKey root id)).mpr (prefix_append _ _)
      have hne := unreferenced.readers hreader hinside
      rw [values, if_neg (by rwa [snapshotKey_inj]), hvalue]
  | released removed origin reports =>
    refine h.of_kept hfresh hreferenced (congrArg Reports.registrations reports)
      (fun id reader hreader => (removed.2.mp hreader).1)
      fun id reader value hreader hvalue => ⟨value, removed.2.mpr ⟨hvalue, ?_⟩, rfl⟩
    rw [h.referenced.snapshots hvalue]
    exact removed.1
  | @registered p tick client sequence tableId encoded ttl snapshot session new _ running table
      encodes live found reads leased values reports =>
    have hregistrations : w'.registrations catalogs root = w.registrations catalogs root
        ++ [⟨client, ⟨session, readerIdOf client sequence, snapshot⟩⟩] :=
      congrArg Reports.registrations reports
    have hsnapshots : ∀ id, w'.store.values[snapshotKey root id]?
        = w.store.values[snapshotKey root id]? := by
      intro id
      rw [values, ExtTreeMap.getElem?_insert_of_ne (snapshotKey_ne_readerKey root _ _).symm]
    -- the readers registered before have other ids
    have hothers : ∀ registration ∈ w.registrations catalogs root,
        w'.store.values[readerKey root registration.guard.readerId]?
          = w.store.values[readerKey root registration.guard.readerId]? := by
      intro registration hmem
      have hne := h.fresh.apart running readerFrom_registers registration hmem
      rw [values, ExtTreeMap.getElem?_insert_of_ne]
      rw [ne_eq, readerKey_inj]
      exact hne.symm
    have hself : w'.store.values[readerKey root (readerIdOf client sequence)]? = some new := by
      rw [values, ExtTreeMap.getElem?_insert_self]
    refine ⟨hfresh, hreferenced, ?_, ?_⟩
    · intro registration hmem reader hreader
      rw [hregistrations] at hmem
      rcases mem_append.mp hmem with hmem | hmem
      · rw [hothers registration hmem] at hreader
        exact h.reads registration hmem reader hreader
      · rw [mem_singleton.mp hmem] at hreader ⊢
        rw [hself] at hreader
        cases hreader
        exact reads
    · intro registration hmem reader hreader
      rw [hregistrations] at hmem
      rw [hsnapshots]
      rcases mem_append.mp hmem with hmem | hmem
      · rw [hothers registration hmem] at hreader
        exact h.pinned registration hmem reader hreader
      · rw [mem_singleton.mp hmem]
        obtain ⟨value, hvalue, hencoded⟩ := found
        exact ⟨value, hvalue, by rw [hencoded, encodes]⟩

/-- In every run in which no publication rewrites a registered snapshot and the clients' sequence
numbers last, a snapshot stays as its readers have registered it until their keys are removed. -/
theorem registered_snapshot_pinned (opened : Opened store)
    (hroot : IsTableRoot root) (untouched : Untouched root store)
    (run : Reaches catalogs (Immutable root) { store } w) : Pinned catalogs root w := by
  have hinvariant : Pinning catalogs root w :=
    (Sound.opened opened).table_induct (P := Pinning catalogs root) hroot run
      ⟨FreshReaders.opened, Referenced.untouched untouched, forall_mem_nil _,
        forall_mem_nil _⟩
      fun sound _ hallowed hstep step h => h.step sound hroot hallowed hstep step
  exact hinvariant.pinned

/-- The next sequence number is a 64-bit one, and no value is the id of a snapshot that is being
published. -/
def unregistered (w : World) : Action → Bool
  | .advance p _ =>
    (w.takesSequence p).all (fun client => w.sequences client ≤ u64Max)
      && (match w.processes[p]? with
        | some ⟨.publishSnapshot _ _ _ pointer, _⟩ =>
          w.store.values.toList.all fun entry => entry.2.value ≠ pointer.snapshotId
        | _ => true)
  | _ => true

theorem immutable_of_unregistered (h : unregistered w action = true) : Immutable root w action := by
  refine ⟨?_, ?_⟩
  · rintro p tick client rfl htakes
    simp only [unregistered, htakes, all_some, Bool.and_eq_true, decide_eq_true_eq] at h
    exact h.1
  · rintro p tick rfl ⟨client, guard, expectedRevision, pointer, encoded, running, -, -, readerId,
      reader, -, hreader, hvalue, -⟩
    simp only [unregistered, running, Bool.and_eq_true, List.all_eq_true] at h
    have hmem := ExtTreeMap.mem_toList_iff_getElem?_eq_some.mpr hreader
    exact of_decide_eq_true (h.2 _ hmem) hvalue

theorem registered_snapshot_pinned_readerStays :
    ∃ w : World, (w.registrations oneCatalog someRoot).map (·.guard.readerId) = [readerIdOf 1 1]
      ∧ w.store.values[readerKey someRoot (readerIdOf 1 1)]?.isSome = true
      ∧ Pinned oneCatalog someRoot w := by
  have hplay : (World.play oneCatalog unregistered { store := emptyStore } readerStays).map
      (fun w => ((w.registrations oneCatalog someRoot).map (·.guard.readerId),
        w.store.values[readerKey someRoot (readerIdOf 1 1)]?.isSome))
        = some ([readerIdOf 1 1], true) := by
    decide +kernel
  obtain ⟨w, hw, hend⟩ := map_eq_some_iff.mp hplay
  obtain ⟨hregistrations, hpresent⟩ := Prod.mk.inj hend
  have run : Reaches oneCatalog (Immutable someRoot) { store := emptyStore } w :=
    Reaches.of_play (fun _ _ hcheck => immutable_of_unregistered hcheck) hw
  exact ⟨w, hregistrations, hpresent, registered_snapshot_pinned emptyStore_opened
    isTableRoot_someRoot untouched_emptyStore run⟩

/-! ## Republication -/

/-- The id of a registered snapshot is published again with another manifest. -/
def republication : List Action :=
  registration ++ [.start 3 (.publishSnapshot 0 ⟨⟨1, 1⟩, someRoot, 0⟩ 2
      { somePointer (ascii ['1']) with manifestUri := ascii ['n'] }),
    .advance 3 4, .advance 3 4]

/-- The snapshot of a reader that is still registered has been rewritten. -/
theorem republication_rewrites_pinned :
    ¬ ∀ w, Reaches oneCatalog anything { store := emptyStore } w →
      Pinned oneCatalog someRoot w := by
  have hplay : (World.play oneCatalog (fun _ _ => true) { store := emptyStore } republication).map
      (fun w => (w.registrations oneCatalog someRoot,
        w.store.values[readerKey someRoot (readerIdOf 1 1)]?.isSome,
        w.store.values[snapshotKey someRoot (ascii ['1'])]?.map fun value =>
          decide (encodePointer (somePointer (ascii ['1'])) = .ok value.value)))
        = some ([⟨1, ⟨⟨2, 2⟩, readerIdOf 1 1, somePointer (ascii ['1'])⟩⟩], true, some false) := by
    decide +kernel
  obtain ⟨w, hw, hend⟩ := map_eq_some_iff.mp hplay
  obtain ⟨hregistrations, hend⟩ := Prod.mk.inj hend
  obtain ⟨hpresent, hsnapshot⟩ := Prod.mk.inj hend
  intro h
  have hpinned := h w (Reaches.of_play (fun _ _ _ => trivial) hw)
  obtain ⟨reader, hreader⟩ := isSome_iff_exists.mp hpresent
  unfold Pinned at hpinned
  rw [hregistrations] at hpinned
  obtain ⟨value, hvalue, hencoded⟩ := hpinned _ mem_cons_self reader hreader
  rw [show w.store.values[snapshotKey someRoot (ascii ['1'])]? = some value from hvalue]
    at hsnapshot
  exact of_decide_eq_false (Option.some.inj hsnapshot) hencoded

end KuraMetadata.Kura
