import KuraMetadata.Storage.Types
import KuraMetadata.Storage.Checksum
import KuraMetadata.Library.EStateM

/-! # The hard-state file

`FileRaftHardStateStore` keeps the hard state in one file of 48 bytes, which it replaces by
renaming a complete temporary file over it. A write passes six boundaries, and may be
interrupted at each of them; what a reopened store then finds is decided by the boundary alone.

The file is `none` while it does not exist. The temporary files are left out: their names are
unique and no store reads one. -/

namespace KuraMetadata.Storage

open LittleEndian List Except

variable {state : RaftHardState} {file : Option (List UInt8)} {events : List Event}

inductive RaftHardStateWriteBoundary where
  | temporaryCreated
  | recordWritten
  | temporarySynchronized
  | temporaryClosed
  | finalReplaced
  | directorySynchronized
  deriving DecidableEq, Repr

/-- The file has been replaced once this boundary is reached. -/
def RaftHardStateWriteBoundary.replaced : RaftHardStateWriteBoundary → Bool
  | .finalReplaced | .directorySynchronized => true
  | _ => false

/-- The exceptions of `persist`: its own, and the one a fault hook throws at a boundary. -/
inductive PersistException where
  | storage (error : StorageError)
  | interrupted (boundary : RaftHardStateWriteBoundary)
  deriving DecidableEq, Repr

/-- A store together with the content of its file. -/
structure FileRaftHardStateStore where
  limits : StorageLimits
  file : Option (List UInt8)
  state : RaftHardState := {}
  generation : Nat := 0
  healthy : Bool := true
  deriving DecidableEq, Repr

namespace FileRaftHardStateStore

def hardStateRecordSize : Nat := 48

def hardStateFormatVersion : Nat := 1

/-- `KURAHST1`. -/
def hardStateMagic : List UInt8 := [75, 85, 82, 65, 72, 83, 84, 49]

/-! ## The record -/

/-- The fields the checksum covers. -/
def recordFields (generation : Nat) (state : RaftHardState) : List UInt8 :=
  hardStateMagic ++ (bytes 2 hardStateFormatVersion ++ (bytes 2 hardStateRecordSize
    ++ (bytes 4 0 ++ (bytes 8 generation ++ (bytes 8 state.currentTerm
      ++ bytes 8 (state.votedFor.getD 0))))))

def encode (generation : Nat) (state : RaftHardState) : Except StorageError (List UInt8) := do
  if generation = 0 then throw ⟨"Raft hard-state generation must be nonzero"⟩
  if state.votedFor = some 0 then
    throw ⟨"Raft votedFor must be absent or a nonzero node ID"⟩
  if state.currentTerm = 0 ∧ state.votedFor.isSome then
    throw ⟨"Raft term zero cannot contain a vote"⟩
  let fields := recordFields generation state
  return fields ++ (bytes 4 (crc32c fields) ++ bytes 4 0)

structure DecodedHardState where
  generation : Nat := 0
  state : RaftHardState := {}
  deriving DecidableEq, Repr

def decode (limits : StorageLimits) (file : List UInt8) :
    Except StorageError DecodedHardState := do
  if limits.maxRaftHardStateBytes < file.length then
    throw ⟨"Raft hard-state file exceeds configured size limit"⟩
  if file.length ≠ hardStateRecordSize then
    throw ⟨"Raft hard-state record is torn or has trailing bytes"⟩
  if file.take 8 ≠ hardStateMagic then throw ⟨"Raft hard-state magic is invalid"⟩
  if readLe 2 file 8 ≠ hardStateFormatVersion ∨ readLe 2 file 10 ≠ hardStateRecordSize
      ∨ readLe 4 file 12 ≠ 0 ∨ readLe 4 file 44 ≠ 0 then
    throw ⟨"Raft hard-state version, size, flags, or reserved field is invalid"⟩
  let generation := readLe 8 file 16
  let term := readLe 8 file 24
  let votedFor := readLe 8 file 32
  if generation = 0 then throw ⟨"Raft hard-state generation zero is invalid"⟩
  if term = 0 ∧ votedFor ≠ 0 then throw ⟨"Raft hard-state term zero contains a vote"⟩
  if readLe 4 file 40 ≠ crc32c (file.take 40) then
    throw ⟨"Raft hard-state checksum mismatch"⟩
  return { generation,
           state := { currentTerm := term,
                      votedFor := if votedFor = 0 then none else some votedFor } }

/-! ## The store -/

def loadDecoded (limits : StorageLimits) : Option (List UInt8) →
    Except StorageError DecodedHardState
  | none => pure {}
  | some file => decode limits file

/-- The constructor, on the file its directory holds. -/
def ofDirectory (limits : StorageLimits) (file : Option (List UInt8)) :
    Except StorageError FileRaftHardStateStore := do
  if limits.maxRaftHardStateBytes < hardStateRecordSize then
    throw ⟨"Raft hard-state storage limit is smaller than the v1 record"⟩
  let decoded ← loadDecoded limits file
  return { limits, file, state := decoded.state, generation := decoded.generation }

def load (s : FileRaftHardStateStore) : Except StorageError RaftHardState := do
  if !s.healthy then
    throw ⟨"Raft hard-state store must be reopened after a write failure"⟩
  let decoded ← loadDecoded s.limits s.file
  if decoded.generation ≠ s.generation ∨ decoded.state ≠ s.state then
    throw ⟨"Raft hard state changed outside its owning store"⟩
  return s.state

abbrev HardStateM := EStateM PersistException FileRaftHardStateStore

/-- The boundaries at which the fault hook throws. -/
abbrev FaultHook := RaftHardStateWriteBoundary → Bool

def reached (hook : FaultHook) (boundary : RaftHardStateWriteBoundary) : HardStateM Unit :=
  if hook boundary then throw (.interrupted boundary) else pure ()

/-- The statements of `persist` inside its `try`. -/
def writeRecord (hook : FaultHook) (record : List UInt8) : HardStateM Unit := do
  reached hook .temporaryCreated
  reached hook .recordWritten
  reached hook .temporarySynchronized
  reached hook .temporaryClosed
  modify fun s => { s with file := some record }
  reached hook .finalReplaced
  reached hook .directorySynchronized

def persist (hook : FaultHook) (request : PersistRaftHardState) :
    HardStateM PersistRaftHardState := do
  let s ← get
  if !s.healthy then
    throw (.storage ⟨"Raft hard-state store must be reopened after a write failure"⟩)
  if request.requestId = 0 then
    throw (.storage ⟨"Raft hard-state persistence request ID must be nonzero"⟩)
  MonadExcept.ofExcept ((validateTransition s.state request.state).mapError .storage)
  if request.state = s.state then return { requestId := request.requestId, state := s.state }
  if s.generation = u64Max then
    throw (.storage ⟨"Raft hard-state generation would overflow"⟩)
  let record ← MonadExcept.ofExcept ((encode (s.generation + 1) request.state).mapError .storage)
  tryCatch (writeRecord hook record) fun exception => do
    modify fun s => { s with healthy := false }
    throw exception
  modify fun s => { s with generation := s.generation + 1, state := request.state }
  return { requestId := request.requestId, state := request.state }

/-! ## Reading a record back -/

variable {limits : StorageLimits} {generation : Nat} {record : List UInt8}

/-- The state's integers fit their fields, as those of the source's type do. -/
structure Fits (state : RaftHardState) : Prop where
  term : state.currentTerm ≤ u64Max
  vote : ∀ node, state.votedFor = some node → node ≤ u64Max

theorem encode_eq_ok (h : encode generation state = .ok record) :
    generation ≠ 0 ∧ state.votedFor ≠ some 0 ∧ (state.currentTerm = 0 → state.votedFor = none)
      ∧ record = recordFields generation state
          ++ (bytes 4 (crc32c (recordFields generation state)) ++ bytes 4 0) := by
  simp only [encode, throw_eq_error, error_bind, ite_error_eq_ok,
    pure_eq_ok, not_and, Bool.not_eq_true, Option.isSome_eq_false_iff,
    Option.isNone_iff_eq_none] at h
  obtain ⟨hgeneration, hnode, hzero, rfl⟩ := h
  exact ⟨hgeneration, hnode, hzero, rfl⟩

theorem length_recordFields : (recordFields generation state).length = 40 := by
  simp [recordFields, hardStateMagic]

theorem decode_encode (hlimits : hardStateRecordSize ≤ limits.maxRaftHardStateBytes)
    (hgeneration : generation ≤ u64Max) (hfits : Fits state)
    (h : encode generation state = .ok record) :
    decode limits record = .ok { generation, state } := by
  obtain ⟨hnonzero, hnode, hzero, rfl⟩ := encode_eq_ok h
  obtain ⟨term, votedFor⟩ := state
  -- the fields stand at fixed offsets, so each read evaluates to the field's own bytes
  have hgen : value (bytes 8 generation) = generation := value_bytes (lt_of_le_u64Max hgeneration)
  have hterm : value (bytes 8 term) = term := value_bytes (lt_of_le_u64Max hfits.term)
  have hvote : value (bytes 8 (votedFor.getD 0)) = votedFor.getD 0 := by
    refine value_bytes (lt_of_le_u64Max ?_)
    cases votedFor with
    | none => exact Nat.zero_le _
    | some node => exact hfits.vote node rfl
  have hcrc : value (bytes 4 (crc32c (recordFields generation ⟨term, votedFor⟩)))
      = crc32c (recordFields generation ⟨term, votedFor⟩) := value_bytes (crc32c_lt _)
  have hstate : (if votedFor.getD 0 = 0 then none else some (votedFor.getD 0)) = votedFor := by
    cases votedFor with
    | none => rfl
    | some node => exact if_neg fun hz => hnode (congrArg some hz)
  have hterm_vote : ¬ (term = 0 ∧ votedFor.getD 0 ≠ 0) := by
    rintro ⟨hz, hv⟩
    have hnone : votedFor = none := hzero hz
    rw [hnone] at hv
    exact hv rfl
  generalize hrecord : recordFields generation ⟨term, votedFor⟩
    ++ (bytes 4 (crc32c (recordFields generation ⟨term, votedFor⟩)) ++ bytes 4 0) = record
  have hlength : record.length = hardStateRecordSize := by rw [← hrecord]; rfl
  have hmagic : record.take 8 = hardStateMagic := by rw [← hrecord]; rfl
  have hfixed : readLe 2 record 8 = hardStateFormatVersion
      ∧ readLe 2 record 10 = hardStateRecordSize
      ∧ readLe 4 record 12 = 0 ∧ readLe 4 record 44 = 0 := by
    rw [← hrecord]
    exact ⟨rfl, rfl, rfl, rfl⟩
  have hfields : readLe 8 record 16 = generation ∧ readLe 8 record 24 = term
      ∧ readLe 8 record 32 = votedFor.getD 0 := by
    rw [← hrecord]
    exact ⟨hgen, hterm, hvote⟩
  have hsum : readLe 4 record 40 = crc32c (record.take 40) := by
    rw [← hrecord]
    exact hcrc
  obtain ⟨hversion, hsize, hflags, hreserved⟩ := hfixed
  obtain ⟨hg, ht, hv⟩ := hfields
  simp only [decode, throw_eq_error, error_bind, ite_error_eq_ok,
    pure_eq_ok, hlength, hmagic, hversion, hsize, hflags, hreserved, hg, ht, hv, hsum, hstate]
  exact ⟨Nat.not_lt.mpr hlimits, by simp, by simp, by simp, hnonzero, hterm_vote, by simp, trivial⟩

variable {decoded : DecodedHardState}

/-- Which records are accepted does not depend on the limits of the store that reads them. -/
theorem decode_limits {limits' : StorageLimits}
    (hlimits : hardStateRecordSize ≤ limits'.maxRaftHardStateBytes)
    (h : decode limits record = .ok decoded) : decode limits' record = .ok decoded := by
  simp only [decode, throw_eq_error, error_bind, ite_error_eq_ok,
    pure_eq_ok, not_not, ne_eq] at h ⊢
  obtain ⟨-, hlength, hrest⟩ := h
  refine ⟨?_, hlength, hrest⟩
  rw [hlength]
  exact Nat.not_lt.mpr hlimits

theorem decode_generation_le (h : decode limits record = .ok decoded) :
    decoded.generation ≤ u64Max := by
  simp only [decode, throw_eq_error, error_bind, ite_error_eq_ok,
    pure_eq_ok] at h
  obtain ⟨-, -, -, -, -, -, -, rfl⟩ := h
  exact Nat.le_of_lt_succ (readLe_lt 8 record 16)

/-! ## What a call can do -/

variable {s : FileRaftHardStateStore}

theorem ofDirectory_eq_ok :
    ofDirectory limits file = .ok s ↔ hardStateRecordSize ≤ limits.maxRaftHardStateBytes
        ∧ ∃ decoded, loadDecoded limits file = .ok decoded
          ∧ s = { limits, file, state := decoded.state, generation := decoded.generation } := by
  simp only [ofDirectory, throw_eq_error, error_bind, ite_error_eq_ok,
    bind_eq_ok, pure_eq_ok, Nat.not_lt, eq_comm (a := s)]

theorem load_eq_ok (h : s.load = .ok state) : s.healthy = true ∧ state = s.state := by
  simp only [load, throw_eq_error, error_bind, ite_error_eq_ok,
    bind_eq_ok, pure_eq_ok, Bool.not_eq_true', Bool.not_eq_false] at h
  obtain ⟨hhealthy, _, -, -, rfl⟩ := h
  exact ⟨hhealthy, rfl⟩

variable {hook : FaultHook} {request reply : PersistRaftHardState} {s t : FileRaftHardStateStore}
variable {next : RaftHardState}

theorem reached_bind_apply {α : Type} {boundary : RaftHardStateWriteBoundary}
    {rest : Unit → HardStateM α} :
    (reached hook boundary >>= rest) s
      = if hook boundary then .error (.interrupted boundary) s else rest () s := by
  unfold reached
  split
  · rfl
  · rfl

/-- A write replaces the file, or is interrupted before or after it has. -/
theorem writeRecord_outcome (hook : FaultHook) (record : List UInt8) (s : FileRaftHardStateStore) :
    writeRecord hook record s = .ok () { s with file := some record }
      ∨ ∃ boundary, writeRecord hook record s = .error (.interrupted boundary)
          (if boundary.replaced then { s with file := some record } else s) := by
  simp only [writeRecord, reached_bind_apply, EStateM.modify_bind_apply]
  by_cases hcreated : hook .temporaryCreated
  · exact .inr ⟨.temporaryCreated, if_pos hcreated⟩
  by_cases hwritten : hook .recordWritten
  · exact .inr ⟨.recordWritten, by rw [if_neg hcreated, if_pos hwritten]; rfl⟩
  by_cases hsynchronized : hook .temporarySynchronized
  · exact .inr ⟨.temporarySynchronized, by
      rw [if_neg hcreated, if_neg hwritten, if_pos hsynchronized]; rfl⟩
  by_cases hclosed : hook .temporaryClosed
  · exact .inr ⟨.temporaryClosed, by
      rw [if_neg hcreated, if_neg hwritten, if_neg hsynchronized, if_pos hclosed]; rfl⟩
  rw [if_neg hcreated, if_neg hwritten, if_neg hsynchronized, if_neg hclosed]
  by_cases hreplaced : hook .finalReplaced
  · exact .inr ⟨.finalReplaced, if_pos hreplaced⟩
  rw [if_neg hreplaced]
  unfold reached
  by_cases hdirectory : hook .directorySynchronized
  · exact .inr ⟨.directorySynchronized, by rw [if_pos hdirectory]; rfl⟩
  · exact .inl (by rw [if_neg hdirectory]; rfl)

/-- What `persist` has checked when it begins to write. -/
structure Writes (s : FileRaftHardStateStore) (state : RaftHardState) (record : List UInt8) :
    Prop where
  healthy : s.healthy = true
  follows : Follows s.state state
  room : s.generation ≠ u64Max
  encoded : encode (s.generation + 1) state = .ok record

/-- A request is refused, finds its state stored, or is written. -/
inductive Persisted (request : PersistRaftHardState) (s : FileRaftHardStateStore) :
    EStateM.Result PersistException FileRaftHardStateStore PersistRaftHardState → Prop
  | refused (error : StorageError) : Persisted request s (.error (.storage error) s)
  | stored (healthy : s.healthy = true) (same : request.state = s.state) :
      Persisted request s (.ok request s)
  | written {record : List UInt8} (writes : Writes s request.state record) :
      Persisted request s (.ok request
        { s with file := some record, generation := s.generation + 1, state := request.state })
  | interrupted {record : List UInt8} (writes : Writes s request.state record)
      (boundary : RaftHardStateWriteBoundary) :
      Persisted request s (.error (.interrupted boundary)
        { s with file := if boundary.replaced then some record else s.file, healthy := false })

theorem persisted_check {p : Prop} [Decidable p] {error : StorageError}
    {f : PUnit → HardStateM PersistRaftHardState} {x : HardStateM PersistRaftHardState}
    (h : ¬ p → Persisted request s (x s)) :
    Persisted request s ((if p then throw (.storage error) >>= f else x) s) := by
  split
  · exact Persisted.refused error
  · rename_i hp
    exact h hp

theorem persisted_ofExcept {α : Type} {x : Except StorageError α}
    {f : α → HardStateM PersistRaftHardState}
    (h : ∀ a, x = .ok a → Persisted request s (f a s)) :
    Persisted request s
      (((MonadExcept.ofExcept (x.mapError .storage) : HardStateM α) >>= f) s) := by
  cases x with
  | error error => exact Persisted.refused error
  | ok a => exact h a rfl

theorem persist_outcome (hook : FaultHook) (request : PersistRaftHardState)
    (s : FileRaftHardStateStore) : Persisted request s (persist hook request s) := by
  refine persisted_check fun hhealthy => persisted_check fun hid =>
    persisted_ofExcept fun _ hvalid => ?_
  have hhealthy : s.healthy = true := by simpa using hhealthy
  have hfollows := validateTransition_eq_ok.mp hvalid
  by_cases hsame : request.state = s.state
  · rw [if_pos hsame, ← hsame]
    exact Persisted.stored hhealthy hsame
  rw [if_neg hsame]
  refine persisted_check fun hroom => persisted_ofExcept fun record hrecord => ?_
  have hwrites : Writes s request.state record := ⟨hhealthy, hfollows, hroom, hrecord⟩
  rcases writeRecord_outcome hook record s with hwrite | ⟨boundary, hwrite⟩
  · rw [EStateM.bind_apply_of_ok (EStateM.tryCatch_apply_of_ok hwrite)]
    exact Persisted.written hwrites
  · rw [EStateM.bind_apply_of_error (EStateM.tryCatch_rethrow_apply hwrite)]
    have hstate : { (if boundary.replaced then { s with file := some record } else s) with
          healthy := false }
        = { s with
            file := if boundary.replaced then some record else s.file, healthy := false } := by
      split
      · rfl
      · rfl
    rw [hstate]
    exact Persisted.interrupted hwrites boundary

/-! ## Runs -/

/-- What the caller sees of the calls on a directory. -/
inductive Event where
  | acknowledged (state : RaftHardState)
  | interrupted (boundary : RaftHardStateWriteBoundary) (state : RaftHardState)
  | refused
  | loaded (state : RaftHardState)
  deriving DecidableEq, Repr

/-- Requests on a store that has loaded `s`, each refused, acknowledged or interrupted, with loads
and reopenings of the directory at any time. -/
inductive Run (s : FileRaftHardStateStore) : List Event → FileRaftHardStateStore → Prop
  | start : Run s [] s
  | acknowledged {events : List Event} {t u : FileRaftHardStateStore} {hook : FaultHook}
      {request reply : PersistRaftHardState} (run : Run s events t) (fits : Fits request.state)
      (returned : persist hook request t = .ok reply u) :
      Run s (events ++ [.acknowledged reply.state]) u
  | interrupted {events : List Event} {t u : FileRaftHardStateStore} {hook : FaultHook}
      {request : PersistRaftHardState} {boundary : RaftHardStateWriteBoundary}
      (run : Run s events t) (fits : Fits request.state)
      (threw : persist hook request t = .error (.interrupted boundary) u) :
      Run s (events ++ [.interrupted boundary request.state]) u
  | refused {events : List Event} {t u : FileRaftHardStateStore} {hook : FaultHook}
      {request : PersistRaftHardState} {error : StorageError} (run : Run s events t)
      (fits : Fits request.state) (threw : persist hook request t = .error (.storage error) u) :
      Run s (events ++ [.refused]) u
  | loaded {events : List Event} {t : FileRaftHardStateStore} {state : RaftHardState}
      (run : Run s events t) (returned : t.load = .ok state) : Run s (events ++ [.loaded state]) t
  | reopened {events : List Event} {t u : FileRaftHardStateStore} {limits : StorageLimits}
      (run : Run s events t) (opened : ofDirectory limits t.file = .ok u) :
      Run s (events ++ [.loaded u.state]) u

/-- The state on disk after an event: an interrupted request survives once the file is
replaced. -/
def survivorAfter (state : RaftHardState) : Event → RaftHardState
  | .acknowledged next => next
  | .interrupted boundary next => if boundary.replaced then next else state
  | .refused | .loaded _ => state

/-- The last completed state, or that of a later request interrupted too late to undo. -/
def survivor (state : RaftHardState) (events : List Event) : RaftHardState :=
  events.foldl survivorAfter state

/-- The states a caller has been told of. -/
def Event.seen : Event → List RaftHardState
  | .acknowledged state => [state]
  | .loaded state => [state]
  | .interrupted _ _ | .refused => []

/-- A later state may have a higher term, or give its vote in the same term if it was not
given. -/
structure AtOrBeyond (earlier later : RaftHardState) : Prop where
  term : earlier.currentTerm ≤ later.currentTerm
  vote : earlier.currentTerm = later.currentTerm → earlier.votedFor ≠ none →
    later.votedFor = earlier.votedFor

theorem AtOrBeyond.refl (state : RaftHardState) : AtOrBeyond state state :=
  ⟨le_rfl, fun _ _ => rfl⟩

theorem AtOrBeyond.trans {a b c : RaftHardState} (h : AtOrBeyond a b) (h' : AtOrBeyond b c) :
    AtOrBeyond a c := by
  obtain ⟨hterm, hvote⟩ := h
  obtain ⟨hterm', hvote'⟩ := h'
  refine ⟨hterm.trans hterm', fun he hgiven => ?_⟩
  have hb : b.votedFor = a.votedFor := hvote (by omega) hgiven
  rw [hvote' (by omega) (by rw [hb]; exact hgiven), hb]

theorem atOrBeyond_of_follows {current : RaftHardState} (h : Follows current next) :
    AtOrBeyond current next :=
  ⟨h.term, fun he hgiven => h.vote he.symm hgiven⟩

/-- The file holds the surviving state, which a store that may still be used also has in
memory. -/
structure Intact (survivor : RaftHardState) (s : FileRaftHardStateStore) (generation : Nat) :
    Prop where
  representable : generation ≤ u64Max
  readable : ∀ limits : StorageLimits, hardStateRecordSize ≤ limits.maxRaftHardStateBytes →
    loadDecoded limits s.file = .ok { generation, state := survivor }
  current : s.healthy = true → s.generation = generation ∧ s.state = survivor

theorem Intact.opened (h : ofDirectory limits file = .ok s) : Intact s.state s s.generation := by
  obtain ⟨-, decoded, hdecoded, rfl⟩ := ofDirectory_eq_ok.mp h
  cases file with
  | none =>
    cases hdecoded
    exact ⟨Nat.zero_le _, fun _ _ => rfl, fun _ => ⟨rfl, rfl⟩⟩
  | some record =>
    exact ⟨decode_generation_le hdecoded, fun _ hlimits => decode_limits hlimits hdecoded,
      fun _ => ⟨rfl, rfl⟩⟩

/-- The record a request writes is read back as the request's state. -/
theorem Writes.intact (h : Writes s state record) (hfits : Fits state)
    {disk : RaftHardState} (hintact : Intact disk s generation) (hfile : t.file = some record)
    (hcurrent : t.healthy = true → t.generation = s.generation + 1 ∧ t.state = state) :
    Intact state t (s.generation + 1) := by
  have hgeneration : s.generation + 1 ≤ u64Max := by
    have hle := hintact.representable
    have hroom := h.room
    rw [← (hintact.current h.healthy).1] at hle
    omega
  refine ⟨hgeneration, fun limits hlimits => ?_, hcurrent⟩
  rw [hfile]
  exact decode_encode hlimits hgeneration hfits h.encoded

/-- The states told of so far, the one the store was opened with among them. -/
def seenStates (state : RaftHardState) (events : List Event) : List RaftHardState :=
  state :: events.flatMap Event.seen

theorem survivor_append (state : RaftHardState) (events : List Event) (event : Event) :
    survivor state (events ++ [event]) = survivorAfter (survivor state events) event := by
  rw [survivor, foldl_append]
  rfl

/-- What holds along a run: the states told of are in order, and the surviving one is last. -/
structure Ordered (state : RaftHardState) (events : List Event) : Prop where
  seen : (seenStates state events).Pairwise AtOrBeyond
  last : ∀ earlier ∈ seenStates state events, AtOrBeyond earlier (survivor state events)

variable {event : Event}

theorem Ordered.snoc (h : Ordered state events)
    (hbeyond : AtOrBeyond (survivor state events) (survivor state (events ++ [event])))
    (hseen : ∀ next ∈ event.seen, next = survivor state (events ++ [event])) :
    Ordered state (events ++ [event]) := by
  have hlast : ∀ earlier ∈ seenStates state events,
      AtOrBeyond earlier (survivor state (events ++ [event])) :=
    fun earlier hearlier => (h.last earlier hearlier).trans hbeyond
  have hstates : seenStates state (events ++ [event]) = seenStates state events ++ event.seen := by
    simp [seenStates]
  have hone : event.seen.Pairwise AtOrBeyond := by
    refine pairwise_of_forall_mem_list fun a ha b hb => ?_
    rw [hseen a ha, hseen b hb]
    exact AtOrBeyond.refl _
  refine ⟨?_, ?_⟩
  · rw [hstates, pairwise_append]
    refine ⟨h.seen, hone, fun a ha b hb => ?_⟩
    rw [hseen b hb]
    exact hlast a ha
  · intro earlier hearlier
    rw [hstates, mem_append] at hearlier
    rcases hearlier with hearlier | hearlier
    · exact hlast earlier hearlier
    · rw [hseen earlier hearlier]
      exact AtOrBeyond.refl _

/-- An event that leaves the file as it is may tell of the surviving state only. -/
theorem Ordered.kept (h : Ordered state events)
    (hafter : survivor state (events ++ [event]) = survivor state events)
    (hseen : ∀ next ∈ event.seen, next = survivor state events) :
    Ordered state (events ++ [event]) := by
  refine h.snoc ?_ ?_
  · rw [hafter]
    exact AtOrBeyond.refl _
  · rw [hafter]
    exact hseen

/-- An event that replaces the surviving state may tell of the new one only. -/
theorem Ordered.moved
    (h : Ordered state events) (hafter : survivor state (events ++ [event]) = next)
    (hfollows : Follows (survivor state events) next) (hseen : ∀ told ∈ event.seen, told = next) :
    Ordered state (events ++ [event]) := by
  refine h.snoc ?_ ?_
  · rw [hafter]
    exact atOrBeyond_of_follows hfollows
  · rw [hafter]
    exact hseen

/-- The surviving state after every event is the one in the file, and no event turns it back. -/
theorem Run.ordered (run : Run s events t) (hopened : Intact s.state s s.generation) :
    Ordered s.state events ∧ ∃ generation, Intact (survivor s.state events) t generation := by
  induction run with
  | start =>
    refine ⟨⟨pairwise_singleton _ _, fun earlier hearlier => ?_⟩, _, hopened⟩
    rw [mem_singleton.mp hearlier]
    exact AtOrBeyond.refl _
  | @acknowledged events t u hook request reply run fits returned ih =>
    obtain ⟨hordered, generation, hintact⟩ := ih
    have houtcome := persist_outcome hook request t
    rw [returned] at houtcome
    have hafter := survivor_append s.state events (.acknowledged request.state)
    cases houtcome with
    | stored healthy same =>
      have hstate : request.state = survivor s.state events := by
        rw [same, (hintact.current healthy).2]
      have hkept := hafter.trans hstate
      refine ⟨hordered.kept hkept fun next hnext => ?_, generation, ?_⟩
      · rw [mem_singleton.mp hnext, hstate]
      · rw [hkept]
        exact hintact
    | written writes =>
      have hfollows := writes.follows
      rw [(hintact.current writes.healthy).2] at hfollows
      refine ⟨hordered.moved hafter hfollows fun next hnext => mem_singleton.mp hnext,
        t.generation + 1, ?_⟩
      rw [hafter]
      exact writes.intact fits hintact rfl fun _ => ⟨rfl, rfl⟩
  | @interrupted events t u hook request boundary run fits threw ih =>
    obtain ⟨hordered, generation, hintact⟩ := ih
    have houtcome := persist_outcome hook request t
    rw [threw] at houtcome
    have hafter := survivor_append s.state events (.interrupted boundary request.state)
    rw [survivorAfter] at hafter
    cases houtcome with
    | interrupted writes =>
      have hfollows := writes.follows
      rw [(hintact.current writes.healthy).2] at hfollows
      -- a crash after the rename leaves the new record, one before it the old
      cases hreplaced : boundary.replaced with
      | true =>
        rw [hreplaced, if_pos rfl] at hafter
        refine ⟨hordered.moved hafter hfollows (forall_mem_nil _), t.generation + 1, ?_⟩
        rw [hafter]
        exact writes.intact fits hintact rfl fun hhealthy => by cases hhealthy
      | false =>
        rw [hreplaced, if_neg (by decide)] at hafter
        refine ⟨hordered.kept hafter (forall_mem_nil _), generation, ?_⟩
        rw [hafter]
        exact ⟨hintact.representable, hintact.readable, fun hhealthy => by cases hhealthy⟩
  | @refused events t u hook request error run fits threw ih =>
    obtain ⟨hordered, generation, hintact⟩ := ih
    have houtcome := persist_outcome hook request t
    rw [threw] at houtcome
    have hafter := survivor_append s.state events .refused
    cases houtcome
    refine ⟨hordered.kept hafter (forall_mem_nil _), generation, ?_⟩
    rw [hafter]
    exact hintact
  | @loaded events t state run returned ih =>
    obtain ⟨hordered, generation, hintact⟩ := ih
    obtain ⟨hhealthy, rfl⟩ := load_eq_ok returned
    have hafter := survivor_append s.state events (.loaded t.state)
    refine ⟨hordered.kept hafter fun next hnext => ?_, generation, ?_⟩
    · rw [mem_singleton.mp hnext, (hintact.current hhealthy).2]
    · rw [hafter]
      exact hintact
  | @reopened events t u limits run opened ih =>
    obtain ⟨hordered, generation, hintact⟩ := ih
    have hintact' := Intact.opened opened
    obtain ⟨hlimits, decoded, hdecoded, rfl⟩ := ofDirectory_eq_ok.mp opened
    rw [hintact.readable limits hlimits] at hdecoded
    cases hdecoded
    have hafter := survivor_append s.state events (.loaded (survivor s.state events))
    refine ⟨hordered.kept hafter fun next hnext => mem_singleton.mp hnext, generation, ?_⟩
    rw [hafter]
    exact hintact'

/-- Along every run of a store, interrupted writes included: the directory can be reopened, and
holds the last completed state or that of a later request interrupted once the file was
replaced; a state acknowledged or loaded is one every later store starts at or beyond; and these
states never turn back to a lower term or to another vote in a term. -/
theorem persist_crash_atomic (opened : ofDirectory limits file = .ok s) (run : Run s events t) :
    (∀ limits' : StorageLimits, hardStateRecordSize ≤ limits'.maxRaftHardStateBytes →
        ∃ u, ofDirectory limits' t.file = .ok u ∧ u.state = survivor s.state events
          ∧ ∀ earlier ∈ seenStates s.state events, AtOrBeyond earlier u.state)
      ∧ (seenStates s.state events).Pairwise AtOrBeyond := by
  obtain ⟨hordered, generation, hintact⟩ := run.ordered (Intact.opened opened)
  refine ⟨fun limits' hlimits => ?_, hordered.seen⟩
  refine ⟨{ limits := limits', file := t.file, state := survivor s.state events, generation }, ?_,
    rfl, hordered.last⟩
  exact ofDirectory_eq_ok.mpr ⟨hlimits, _, hintact.readable limits' hlimits, rfl⟩

/-- A store on an empty directory. -/
def freshStore : FileRaftHardStateStore := { limits := {}, file := none }

def firstTerm : PersistRaftHardState := { requestId := 1, state := { currentTerm := 21 } }

def firstVote : PersistRaftHardState :=
  { requestId := 2, state := { currentTerm := 21, votedFor := some 101 } }

def afterFirstTerm : FileRaftHardStateStore := (persist (fun _ => false) firstTerm freshStore).state

/-- The hook throws right after the file is replaced. -/
def afterFirstVote : FileRaftHardStateStore :=
  (persist (fun boundary => boundary == .finalReplaced) firstVote afterFirstTerm).state

/-- A vote interrupted after the replacement is found again, and binds the next store. -/
theorem persist_crash_atomic_vote :
    ∃ u, ofDirectory {} afterFirstVote.file = .ok u ∧ u.state = firstVote.state := by
  have hfits : Fits firstTerm.state ∧ Fits firstVote.state := by
    refine ⟨⟨by decide, fun node hnode => by cases hnode⟩, by decide, fun node hnode => ?_⟩
    cases hnode
    decide
  have hfirst : Run freshStore [.acknowledged firstTerm.state] afterFirstTerm :=
    @Run.acknowledged _ [] _ _ (fun _ => false) firstTerm firstTerm Run.start hfits.1
      (by decide +kernel)
  have hrun : Run freshStore
      [.acknowledged firstTerm.state, .interrupted .finalReplaced firstVote.state]
      afterFirstVote :=
    @Run.interrupted _ _ _ _ (fun boundary => boundary == .finalReplaced) firstVote _ hfirst
      hfits.2 (by decide +kernel)
  have hopened : ofDirectory {} none = .ok freshStore := rfl
  obtain ⟨u, hu, hstate, -⟩ := (persist_crash_atomic hopened hrun).1 {} (by decide)
  exact ⟨u, hu, hstate⟩

end FileRaftHardStateStore

end KuraMetadata.Storage
