import KuraMetadata.Library.Guarded
import KuraMetadata.Storage.HardStateFile
import KuraMetadata.Storage.SnapshotStore

/-! # The durable formats are canonical

The snapshot file and the hard-state record. Each accepted byte string is the encoding of what is
read from it: every byte is a field that some check pins, or a part of the content. With the
checksum this leaves no accepted string that differs from another in one byte. -/

namespace KuraMetadata.Storage

open LittleEndian List Except
open FileSnapshotStore (smallSnapshot)
open Guarded (field_bind ite_error ite_error_iff require_bind span_bind field span)

variable {view record : List UInt8} {limits limits' : StorageLimits} {byte : UInt8}
variable {offset count i : Nat} {snapshot : Snapshot}

/-! ## Snapshots -/

theorem length_readNodes (view : List UInt8) (offset count : Nat) :
    (readNodes view offset count).length = count := by
  rw [readNodes, length_map, length_range]

/-- The bytes a row of node IDs was read from. -/
theorem drop_eq_encodeNodes (h : offset + 8 * count ≤ view.length) :
    view.drop offset
      = encodeNodes (readNodes view offset count) ++ view.drop (offset + 8 * count) := by
  induction count with
  | zero => rfl
  | succ count ih =>
    have hlast : view.drop (offset + 8 * count) = bytes 8 (readLe 8 view (offset + 8 * count))
        ++ view.drop (offset + 8 * (count + 1)) := drop_eq_append (by omega)
    rw [ih (by omega), hlast, readNodes, readNodes, range_succ, map_append, encodeNodes,
      encodeNodes, flatMap_append, append_assoc]
    simp

/-- An accepted file is a checksummed string, and the encoding of its snapshot. -/
theorem encodeSnapshot_of_decodeSnapshot (h : decodeSnapshot limits view = .ok snapshot) :
    encodeSnapshot limits snapshot = .ok view
      ∧ view = checksummed (snapshotFields snapshot) (snapshotBody snapshot)
      ∧ snapshot.checksum = readLe 4 view 64 := by
  simp only [decodeSnapshot, throw_eq_error, error_bind, ite_error_eq_ok,
    bind_eq_ok, pure_eq_ok, not_or, not_not, ne_eq] at h
  obtain ⟨hlong, hmagic, ⟨hversion, hheader, hflags⟩, -, -, ⟨-, hlength⟩, hcrc, members, -,
    members', -, u, hvalidate, hsnapshot⟩ := h
  have hsize : 68 ≤ view.length := Nat.not_lt.mp hlong
  rw [show snapshotHeaderSize = 68 from rfl] at hlength
  generalize hvoters : readNodes view snapshotHeaderSize (readLe 4 view 48) = voters at *
  generalize hlearners : readNodes view (snapshotHeaderSize + 8 * readLe 4 view 48)
    (readLe 4 view 52) = learners at *
  have hvoterCount : voters.length = readLe 4 view 48 := by rw [← hvoters, length_readNodes]
  have hlearnerCount : learners.length = readLe 4 view 52 := by rw [← hlearners, length_readNodes]
  have hstate : (view.drop (snapshotHeaderSize + 8 * (readLe 4 view 48 + readLe 4 view 52))).length
      = readLe 8 view 56 := by
    rw [length_drop, show snapshotHeaderSize = 68 from rfl]
    omega
  -- the header, field by field
  have hfields : view
      = snapshotFields snapshot ++ (bytes 4 (readLe 4 view 64) ++ view.drop 68) := by
    rw [← hsnapshot, snapshotFields]
    dsimp only
    rw [hvoterCount, hlearnerCount, hstate, Int.toNat_natCast, Int.toNat_natCast, ← hmagic,
      ← hversion, ← hheader, ← hflags]
    simp only [append_assoc]
    rw [← drop_eq_append (show 64 + 4 ≤ view.length by omega),
      ← drop_eq_append (show 56 + 8 ≤ view.length by omega),
      ← drop_eq_append (show 52 + 4 ≤ view.length by omega),
      ← drop_eq_append (show 48 + 4 ≤ view.length by omega),
      ← drop_eq_append (show 40 + 8 ≤ view.length by omega),
      ← drop_eq_append (show 32 + 8 ≤ view.length by omega),
      ← drop_eq_append (show 24 + 8 ≤ view.length by omega),
      ← drop_eq_append (show 16 + 8 ≤ view.length by omega),
      ← drop_eq_append (show 12 + 4 ≤ view.length by omega),
      ← drop_eq_append (show 10 + 2 ≤ view.length by omega),
      ← drop_eq_append (show 8 + 2 ≤ view.length by omega), take_append_drop]
  -- the content after it
  have hbody : view.drop 68 = snapshotBody snapshot := by
    rw [← hsnapshot, snapshotBody]
    dsimp only
    rw [drop_eq_encodeNodes (show 68 + 8 * readLe 4 view 48 ≤ view.length by omega),
      drop_eq_encodeNodes (show 68 + 8 * readLe 4 view 48 + 8 * readLe 4 view 52 ≤ view.length by
        omega), ← hvoters, ← hlearners, Nat.mul_add, ← Nat.add_assoc]
    rfl
  have htake : view.take 64 = snapshotFields snapshot := by
    conv => lhs; rw [hfields]
    exact take_left' (length_snapshotFields snapshot)
  have hview : view = checksummed (snapshotFields snapshot) (snapshotBody snapshot) := by
    rw [htake, show view.drop snapshotHeaderSize = _ from hbody] at hcrc
    rw [checksummed, hcrc, ← hbody]
    exact hfields
  refine ⟨?_, hview, by rw [← hsnapshot]⟩
  have hvalid : validateSnapshotValue limits snapshot = .ok () := by
    rw [← hsnapshot]
    exact hvalidate
  rw [encodeSnapshot, hvalid]
  exact congrArg Except.ok hview.symm

/-! ## Hard-state records -/

namespace FileRaftHardStateStore

theorem encode_of_decode {decoded : DecodedHardState}
    (h : decode limits record = .ok decoded) :
    encode decoded.generation decoded.state = .ok record := by
  simp only [decode, throw_eq_error, error_bind, ite_error_eq_ok,
    pure_eq_ok, not_or, not_not, not_and, ne_eq] at h
  obtain ⟨-, hlength, hmagic, ⟨hversion, hsize, hflags, hreserved⟩, hgeneration, hzero, hcrc,
    rfl⟩ := h
  replace hlength : record.length = 48 := hlength
  have hvote : (if readLe 8 record 32 = 0 then none else some (readLe 8 record 32)).getD 0
      = readLe 8 record 32 := by
    split
    · rename_i hnone
      exact hnone.symm
    · rfl
  have hfields : record = recordFields (readLe 8 record 16)
      { currentTerm := readLe 8 record 24
        votedFor := if readLe 8 record 32 = 0 then none else some (readLe 8 record 32) }
      ++ (bytes 4 (readLe 4 record 40) ++ bytes 4 0) := by
    have hnil : record.drop (44 + 4) = [] := drop_eq_nil_iff.mpr (by omega)
    rw [recordFields, hvote, ← hmagic, ← hversion, ← hsize]
    dsimp only
    nth_rw 2 [← hreserved]
    rw [← hflags]
    simp only [append_assoc]
    rw [← append_nil (bytes 4 (readLe 4 record 44)), ← hnil,
      ← drop_eq_append (show 44 + 4 ≤ record.length by omega),
      ← drop_eq_append (show 40 + 4 ≤ record.length by omega),
      ← drop_eq_append (show 32 + 8 ≤ record.length by omega),
      ← drop_eq_append (show 24 + 8 ≤ record.length by omega),
      ← drop_eq_append (show 16 + 8 ≤ record.length by omega),
      ← drop_eq_append (show 12 + 4 ≤ record.length by omega),
      ← drop_eq_append (show 10 + 2 ≤ record.length by omega),
      ← drop_eq_append (show 8 + 2 ≤ record.length by omega), take_append_drop]
  have htake : record.take 40 = recordFields (readLe 8 record 16)
      { currentTerm := readLe 8 record 24
        votedFor := if readLe 8 record 32 = 0 then none else some (readLe 8 record 32) } := by
    conv => lhs; rw [hfields]
    exact take_left' length_recordFields
  simp only [encode, throw_eq_error, error_bind, ite_error_eq_ok,
    pure_eq_ok]
  refine ⟨hgeneration, ?_, ?_, ?_⟩
  · split
    · exact fun h => (by cases h)
    · rename_i hne
      exact fun h => hne (Option.some.inj h)
  · rintro ⟨hterm, hsome⟩
    rw [if_pos (hzero hterm)] at hsome
    cases hsome
  · rw [← htake, ← hcrc, htake]
    exact hfields.symm

theorem encode_eq_checksummed {generation : Nat} {state : RaftHardState}
    (h : encode generation state = .ok record) :
    record = checksummed (recordFields generation state) [] ++ bytes 4 0 := by
  obtain ⟨-, -, -, rfl⟩ := encode_eq_ok h
  simp only [checksummed, append_assoc, append_nil]

end FileRaftHardStateStore

/-! ## The bounds of the reads -/

/-- `checked_add`, on 64-bit integers. -/
def checkedAdd (left right : Nat) : Option Nat :=
  if u64Max - left < right then none else some ((left + right) % 2 ^ 64)

def checkedMultiply (left right : Nat) : Option Nat :=
  if left ≠ 0 ∧ u64Max / left < right then none else some (left * right % 2 ^ 64)

/-- The size of a snapshot file, as its header declares it. -/
def expectedSize (voterCount learnerCount stateLength : Nat) : Option Nat :=
  (checkedAdd voterCount learnerCount).bind fun memberCount =>
    (checkedMultiply memberCount 8).bind fun memberBytes =>
      (checkedAdd snapshotHeaderSize memberBytes).bind fun expected =>
        checkedAdd expected stateLength

def guardedReadNodes (view : List UInt8) (offset count : Nat) :
    Except (Option StorageError) (List NodeId) :=
  (List.range count).mapM fun i => field 8 view (offset + 8 * i)

/-- `decode_snapshot`, with the bounds its reads, its sums and its allocation rely on. -/
def guardedDecodeSnapshot (limits : StorageLimits) (view : List UInt8) :
    Except (Option StorageError) Snapshot := do
  if view.length < snapshotHeaderSize then throw (some ⟨"snapshot header is truncated"⟩)
  let magic ← span view 0 8
  if magic ≠ snapshotMagic then throw (some ⟨"snapshot magic is invalid"⟩)
  let version ← field 2 view 8
  let headerSize ← field 2 view 10
  let flags ← field 4 view 12
  if version ≠ snapshotFormatVersion ∨ headerSize ≠ snapshotHeaderSize ∨ flags ≠ 0 then
    throw (some ⟨"snapshot version, header size, or flags are unsupported"⟩)
  let index ← field 8 view 16
  let term ← field 8 view 24
  let storeRevisionBits ← field 8 view 32
  let compactionRevisionBits ← field 8 view 40
  let voterCount ← field 4 view 48
  let learnerCount ← field 4 view 52
  let stateLength ← field 8 view 56
  let storedChecksum ← field 4 view 64
  if storeRevisionBits >>> 63 ≠ 0 ∨ compactionRevisionBits >>> 63 ≠ 0 then
    throw (some ⟨"snapshot revision is negative"⟩)
  if limits.maxSnapshotMembers < voterCount ∨ limits.maxSnapshotMembers < learnerCount then
    throw (some ⟨"snapshot membership exceeds configured limit"⟩)
  Guarded.require (learnerCount ≤ limits.maxSnapshotMembers)
  if limits.maxSnapshotMembers - learnerCount < voterCount then
    throw (some ⟨"snapshot membership exceeds configured limit"⟩)
  if expectedSize voterCount learnerCount stateLength ≠ some view.length then
    throw (some ⟨"snapshot body length is invalid"⟩)
  let head ← span view 0 64
  let body ← span view snapshotHeaderSize (view.length - snapshotHeaderSize)
  if crc32c (head ++ body) ≠ storedChecksum then throw (some ⟨"snapshot checksum mismatch"⟩)
  -- the set of members is allocated for its declared size
  Guarded.require (8 * (voterCount + learnerCount) ≤ view.length)
  let voters ← guardedReadNodes view snapshotHeaderSize voterCount
  let members ← (voters.foldlM insertMember []).mapError some
  let learners ← guardedReadNodes view (snapshotHeaderSize + 8 * voterCount) learnerCount
  let _ ← (learners.foldlM insertMember members).mapError some
  let offset := snapshotHeaderSize + 8 * (voterCount + learnerCount)
  let state ← span view offset (view.length - offset)
  let snapshot : Snapshot :=
    { metadata :=
        { lastIncludedIndex := index
          lastIncludedTerm := term
          storeRevision := storeRevisionBits
          compactionRevision := compactionRevisionBits
          membership := { voters, learners }
          formatVersion := snapshotFormatVersion }
      state
      checksum := storedChecksum }
  (validateSnapshotValue limits snapshot).mapError some
  return snapshot

/-- A sum that does not fit 64 bits is noticed. -/
theorem expectedSize_eq {voterCount : Nat} (hvoters : voterCount ≤ u64Max)
    (learnerCount stateLength size : Nat) :
    expectedSize voterCount learnerCount stateLength = some size
      ↔ ¬ (u64Max < snapshotHeaderSize + 8 * (voterCount + learnerCount) + stateLength
        ∨ snapshotHeaderSize + 8 * (voterCount + learnerCount) + stateLength ≠ size) := by
  have hmax : u64Max = 2 ^ 64 - 1 := rfl
  have hadd : ∀ left right sum, checkedAdd left right = some sum
      ↔ right ≤ u64Max - left ∧ (left + right) % 2 ^ 64 = sum := by
    intro left right sum
    unfold checkedAdd
    split <;> simp <;> omega
  have hmultiply : ∀ left product, checkedMultiply left 8 = some product
      ↔ left * 8 ≤ u64Max ∧ left * 8 % 2 ^ 64 = product := by
    intro left product
    have hdiv : (left ≠ 0 ∧ u64Max / left < 8) ↔ u64Max < 8 * left := by
      by_cases hzero : left = 0
      · simp [hzero]
      · rw [Nat.div_lt_iff_lt_mul (Nat.pos_of_ne_zero hzero)]
        omega
    unfold checkedMultiply
    rw [if_congr hdiv rfl rfl]
    split <;> simp <;> omega
  simp only [expectedSize, Option.bind_eq_some_iff, hadd, hmultiply,
    show snapshotHeaderSize = 68 from rfl]
  constructor
  · rintro ⟨_, ⟨_, rfl⟩, _, ⟨_, rfl⟩, _, ⟨_, rfl⟩, _, rfl⟩
    omega
  · intro h
    exact ⟨_, ⟨by omega, rfl⟩, _, ⟨by omega, rfl⟩, _, ⟨by omega, rfl⟩, by omega, by omega⟩

theorem guardedReadNodes_bind {β : Type}
    {f : List NodeId → Except (Option StorageError) β} (h : offset + 8 * count ≤ view.length) :
    (guardedReadNodes view offset count >>= f) = f (readNodes view offset count) := by
  have hmap : ∀ l : List Nat, (∀ i ∈ l, i < count) →
      l.mapM (fun i => (field 8 view (offset + 8 * i) : Except (Option StorageError) Nat))
        = .ok (l.map fun i => readLe 8 view (offset + 8 * i)) := by
    intro l hl
    induction l with
    | nil => rfl
    | cons i l ih =>
      obtain ⟨hi, hl⟩ := forall_mem_cons.mp hl
      rw [mapM_cons, field_bind (by omega), ih hl]
      rfl
  rw [guardedReadNodes, hmap _ fun _ => mem_range.mp]
  rfl

theorem guardedDecodeSnapshot_eq (limits : StorageLimits) (view : List UInt8) :
    guardedDecodeSnapshot limits view = (decodeSnapshot limits view).mapError some := by
  refine ite_error fun hlong => ?_
  have hsize : 68 ≤ view.length := Nat.not_lt.mp hlong
  rw [span_bind (by omega), drop_zero]
  refine ite_error fun _ => ?_
  rw [field_bind (by omega), field_bind (by omega), field_bind (by omega)]
  refine ite_error fun _ => ?_
  rw [field_bind (by omega), field_bind (by omega), field_bind (by omega),
    field_bind (by omega), field_bind (by omega), field_bind (by omega),
    field_bind (by omega), field_bind (by omega)]
  refine ite_error fun _ => ?_
  have hvoterCount : readLe 4 view 48 ≤ u64Max :=
    (Nat.le_of_lt (readLe_lt 4 view 48)).trans (by decide)
  generalize readLe 4 view 48 = voterCount at hvoterCount ⊢
  generalize readLe 4 view 52 = learnerCount
  -- the subtraction of the third check is reached only where it does not wrap
  by_cases hmany : limits.maxSnapshotMembers < voterCount ∨ limits.maxSnapshotMembers < learnerCount
  · rw [if_pos hmany, if_pos (or_assoc.mp (.inl hmany))]
    rfl
  rw [if_neg hmany]
  refine (require_bind (show learnerCount ≤ limits.maxSnapshotMembers by omega)).trans ?_
  refine ite_error_iff (by omega) fun _ => ?_
  refine ite_error_iff ((not_congr (expectedSize_eq hvoterCount _ _ _)).trans not_not)
    fun hlength => ?_
  rw [show snapshotHeaderSize = 68 from rfl] at hlength ⊢
  rw [span_bind (by omega), span_bind (by omega), drop_zero,
    take_of_length_le (l := view.drop 68) (by rw [length_drop])]
  refine ite_error fun _ => ?_
  rw [require_bind (by omega), guardedReadNodes_bind (by omega)]
  refine Guarded.bind (ensures_true _) rfl fun members _ => ?_
  rw [guardedReadNodes_bind (by omega)]
  refine Guarded.bind (ensures_true _) rfl fun _ _ => ?_
  rw [span_bind (by omega), take_of_length_le (by rw [length_drop])]
  exact Guarded.bind (ensures_true _) rfl fun _ _ => rfl

namespace FileRaftHardStateStore

/-- `decode`, with the bounds its reads rely on. -/
def guardedDecode (limits : StorageLimits) (file : List UInt8) :
    Except (Option StorageError) DecodedHardState := do
  if limits.maxRaftHardStateBytes < file.length then
    throw (some ⟨"Raft hard-state file exceeds configured size limit"⟩)
  if file.length ≠ hardStateRecordSize then
    throw (some ⟨"Raft hard-state record is torn or has trailing bytes"⟩)
  let magic ← span file 0 8
  if magic ≠ hardStateMagic then throw (some ⟨"Raft hard-state magic is invalid"⟩)
  let version ← field 2 file 8
  let size ← field 2 file 10
  let flags ← field 4 file 12
  let reserved ← field 4 file 44
  if version ≠ hardStateFormatVersion ∨ size ≠ hardStateRecordSize ∨ flags ≠ 0 ∨ reserved ≠ 0 then
    throw (some ⟨"Raft hard-state version, size, flags, or reserved field is invalid"⟩)
  let generation ← field 8 file 16
  let term ← field 8 file 24
  let votedFor ← field 8 file 32
  if generation = 0 then throw (some ⟨"Raft hard-state generation zero is invalid"⟩)
  if term = 0 ∧ votedFor ≠ 0 then throw (some ⟨"Raft hard-state term zero contains a vote"⟩)
  let storedChecksum ← field 4 file 40
  let fields ← span file 0 40
  if storedChecksum ≠ crc32c fields then throw (some ⟨"Raft hard-state checksum mismatch"⟩)
  return { generation,
           state := { currentTerm := term,
                      votedFor := if votedFor = 0 then none else some votedFor } }

theorem guardedDecode_eq (limits : StorageLimits) (file : List UInt8) :
    guardedDecode limits file = (decode limits file).mapError some := by
  refine ite_error fun _ => ite_error fun hsize => ?_
  have hlength : file.length = 48 := not_not.mp hsize
  rw [span_bind (by omega), drop_zero]
  refine ite_error fun _ => ?_
  rw [field_bind (by omega), field_bind (by omega), field_bind (by omega),
    field_bind (by omega)]
  refine ite_error fun _ => ?_
  rw [field_bind (by omega), field_bind (by omega), field_bind (by omega)]
  refine ite_error fun _ => ite_error fun _ => ?_
  rw [field_bind (by omega), span_bind (by omega), drop_zero]
  exact ite_error fun _ => rfl

end FileRaftHardStateStore

/-! ## The formats -/

open FileRaftHardStateStore (hardStateRecordSize encode decode guardedDecode)

/-- Both formats are read back as they were written, accept only what is written, and are decoded
within the bounds of the file. -/
theorem durable_formats_canonical (limits : StorageLimits) :
    (∀ snapshot : Snapshot, snapshot.Fits → validateSnapshotValue limits snapshot = .ok () →
      ∃ view, encodeSnapshot limits snapshot = .ok view ∧ view.length ≤ limits.maxSnapshotBytes
        ∧ decodeSnapshot limits view = .ok { snapshot with checksum := readLe 4 view 64 })
    ∧ (∀ view snapshot, decodeSnapshot limits view = .ok snapshot →
      encodeSnapshot limits snapshot = .ok view)
    ∧ (∀ generation state, hardStateRecordSize ≤ limits.maxRaftHardStateBytes →
      generation ≠ 0 → generation ≤ u64Max → FileRaftHardStateStore.Fits state →
      state.votedFor ≠ some 0 → (state.currentTerm = 0 → state.votedFor = none) →
      ∃ record, encode generation state = .ok record ∧ record.length = hardStateRecordSize
        ∧ decode limits record = .ok { generation, state })
    ∧ (∀ record decoded, decode limits record = .ok decoded →
      encode decoded.generation decoded.state = .ok record)
    ∧ (∀ view, guardedDecodeSnapshot limits view = (decodeSnapshot limits view).mapError some)
    ∧ ∀ file, guardedDecode limits file = (decode limits file).mapError some := by
  refine ⟨fun snapshot hfits hvalid => ?_, fun view snapshot h => ?_,
    fun generation state hlimits hnonzero hmax hfits hnode hzero => ?_, fun record decoded h => ?_,
    guardedDecodeSnapshot_eq limits, FileRaftHardStateStore.guardedDecode_eq limits⟩
  · have hencode : encodeSnapshot limits snapshot
        = .ok (checksummed (snapshotFields snapshot) (snapshotBody snapshot)) := by
      rw [encodeSnapshot, hvalid]
      rfl
    have hdecode := decodeSnapshot_encodeSnapshot hfits hencode
    refine ⟨_, hencode, (FileSnapshotStore.encodeSnapshot_length hfits hencode).2, ?_⟩
    rw [← (encodeSnapshot_of_decodeSnapshot hdecode).2.2]
    exact hdecode
  · exact (encodeSnapshot_of_decodeSnapshot h).1
  · have hencode : encode generation state
        = .ok (checksummed (FileRaftHardStateStore.recordFields generation state) []
          ++ bytes 4 0) := by
      have hvote : ¬ (state.currentTerm = 0 ∧ state.votedFor.isSome = true) := by
        rintro ⟨hterm, hsome⟩
        rw [hzero hterm] at hsome
        cases hsome
      simp only [encode, if_neg hnonzero, if_neg hnode, if_neg hvote, checksummed, List.append_nil,
        List.append_assoc]
      rfl
    exact ⟨_, hencode, rfl, FileRaftHardStateStore.decode_encode hlimits hmax hfits hencode⟩
  · exact FileRaftHardStateStore.encode_of_decode h

/-- A snapshot with three members, and the first hard state of a node. -/
theorem durable_formats_canonical_first :
    (∃ view, encodeSnapshot {} (smallSnapshot 1) = .ok view ∧ view.length ≤ 536870912
        ∧ decodeSnapshot {} view = .ok { smallSnapshot 1 with checksum := readLe 4 view 64 })
      ∧ ∃ record, encode 1 { currentTerm := 1 } = .ok record ∧ record.length = 48
        ∧ decode {} record = .ok { generation := 1, state := { currentTerm := 1 } } := by
  obtain ⟨hsnapshot, -, hstate, -⟩ := durable_formats_canonical {}
  refine ⟨hsnapshot _ ⟨by decide, by decide, by decide, by decide, by decide⟩ (by decide),
    hstate 1 _ (by decide) (by decide) (by decide) ⟨by decide, by decide⟩ (by decide) (by decide)⟩

/-! ## Corruption of one byte -/

/-- The value of a byte was changed. -/
def IsCorrupted (file : List UInt8) (i : Nat) (byte : UInt8) : Prop :=
  ∃ h : i < file.length, file.get ⟨i, h⟩ ≠ byte

theorem IsCorrupted.set_ne {file : List UInt8} (h : IsCorrupted file i byte) :
    file.set i byte ≠ file := by
  obtain ⟨hi, hne⟩ := h
  intro hset
  have hbyte := congrArg (·[i]?) hset
  rw [getElem?_set_self hi, List.getElem?_eq_getElem hi] at hbyte
  exact hne (Option.some.inj hbyte).symm

theorem decodeSnapshot_set {other : Snapshot}
    (h : decodeSnapshot limits view = .ok snapshot) (hcorrupted : IsCorrupted view i byte) :
    decodeSnapshot limits' (view.set i byte) ≠ .ok other := by
  intro hother
  obtain ⟨-, hview, -⟩ := encodeSnapshot_of_decodeSnapshot h
  obtain ⟨-, hset, -⟩ := encodeSnapshot_of_decodeSnapshot hother
  have hlength := congrArg length hset
  rw [length_set, hview, checksummed, checksummed] at hlength
  simp only [length_append, length_bytes, length_snapshotFields] at hlength
  rw [hview] at hset
  refine hcorrupted.set_ne ?_
  rw [hview, hset]
  exact checksummed_eq_of_set rfl (by omega) hset.symm

theorem decode_set {decoded other : FileRaftHardStateStore.DecodedHardState}
    (h : decode limits record = .ok decoded) (hcorrupted : IsCorrupted record i byte) :
    decode limits' (record.set i byte) ≠ .ok other := by
  intro hother
  have hrecord := FileRaftHardStateStore.encode_eq_checksummed
    (FileRaftHardStateStore.encode_of_decode h)
  have hset := FileRaftHardStateStore.encode_eq_checksummed
    (FileRaftHardStateStore.encode_of_decode hother)
  refine hcorrupted.set_ne ?_
  rw [hrecord] at hset ⊢
  have hlength : ∀ generation state,
      (checksummed (FileRaftHardStateStore.recordFields generation state) []).length = 44 :=
    fun _ _ => rfl
  have hcovered := hlength decoded.generation decoded.state
  rcases Nat.lt_or_ge i 44 with hi | hi
  · -- in the part the checksum covers, or in the checksum
    rw [set_append_left _ _ (by omega)] at hset ⊢
    have hfields := (append_inj hset (by rw [length_set, hlength, hlength])).1
    rw [hfields]
    exact congrArg (· ++ bytes 4 0) (checksummed_eq_of_set rfl rfl hfields.symm)
  · -- in the reserved field
    rw [set_append_right _ _ (by omega)] at hset ⊢
    rw [(append_inj hset (by rw [hlength, hlength])).2]

namespace FileSnapshotStore

variable {s t : FileSnapshotStore}

theorem latest_congr (h : ∀ index snapshot, Stores s index snapshot ↔ Stores t index snapshot) :
    s.latest = t.latest := by
  cases hs : s.latest with
  | none =>
    cases ht : t.latest with
    | none => rfl
    | some snapshot => exact absurd ((h _ _).mpr (latest_eq_some ht).1) (latest_eq_none hs)
  | some snapshot =>
    obtain ⟨hstores, hhighest⟩ := latest_eq_some hs
    exact (latest_of_highest ((h _ _).mp hstores) fun index other hother =>
      hhighest index other ((h _ _).mpr hother)).symm

/-- A file that cannot be decoded is passed over, as if it were not there. -/
theorem latest_insert_of_corrupt {name : FileName} {entry : DirectoryEntry}
    (h : ∀ snapshot, decodeSnapshot s.limits entry.bytes ≠ .ok snapshot) :
    latest { s with directory := s.directory.insert name entry }
      = latest { s with directory := s.directory.erase name } := by
  refine latest_congr fun index snapshot => ?_
  by_cases hname : name = snapshotName index
  · subst hname
    constructor
    · intro hstores
      obtain ⟨⟨view, hview, hdecode⟩, -⟩ := readCandidate_eq_some.mp hstores.read
      simp only [Directory.readFile, Std.ExtTreeMap.getElem?_insert_self, throw_eq_error,
        ite_error_eq_ok, pure_eq_ok] at hview
      obtain ⟨-, rfl⟩ := hview
      exact absurd hdecode (h snapshot)
    · intro hstores
      obtain ⟨_, hfile, -⟩ := hstores.file
      simp at hfile
  · have herase : (s.directory.erase name)[snapshotName index]?
        = s.directory[snapshotName index]? := by
      rw [Std.ExtTreeMap.getElem?_erase, if_neg]
      rwa [Std.compare_eq_iff_eq]
    exact (stores_congr (Std.ExtTreeMap.getElem?_insert_of_ne hname _)).trans
      (stores_congr herase).symm

end FileSnapshotStore

/-- No byte of a snapshot file or of a hard-state record can be changed without notice. A snapshot
store passes over the file, and a hard-state store does not open. -/
theorem corrupt_byte_rejected (limits : StorageLimits) :
    (∀ view snapshot i byte, decodeSnapshot limits view = .ok snapshot → IsCorrupted view i byte →
      ∃ e, decodeSnapshot limits (view.set i byte) = .error e)
    ∧ (∀ record decoded i byte, decode limits record = .ok decoded → IsCorrupted record i byte →
      ∃ e, decode limits (record.set i byte) = .error e)
    ∧ (∀ (s : FileSnapshotStore) name (entry : DirectoryEntry) snapshot i byte,
      s.directory[name]? = some entry → decodeSnapshot limits entry.bytes = .ok snapshot →
      IsCorrupted entry.bytes i byte →
      FileSnapshotStore.latest { s with
          directory := s.directory.insert name { entry with bytes := entry.bytes.set i byte } }
        = FileSnapshotStore.latest { s with directory := s.directory.erase name })
    ∧ ∀ record decoded i byte, decode limits record = .ok decoded → IsCorrupted record i byte →
      ∃ e, FileRaftHardStateStore.ofDirectory limits (some (record.set i byte)) = .error e := by
  refine ⟨fun view snapshot i byte h hcorrupted => ?_, fun record decoded i byte h hcorrupted => ?_,
    fun s name entry snapshot i byte _ h hcorrupted =>
      FileSnapshotStore.latest_insert_of_corrupt fun _ => decodeSnapshot_set h hcorrupted,
    fun record decoded i byte h hcorrupted => ?_⟩
  · cases hset : decodeSnapshot limits (view.set i byte) with
    | error e => exact ⟨e, rfl⟩
    | ok other => exact absurd hset (decodeSnapshot_set h hcorrupted)
  · cases hset : decode limits (record.set i byte) with
    | error e => exact ⟨e, rfl⟩
    | ok other => exact absurd hset (decode_set h hcorrupted)
  · cases hopen : FileRaftHardStateStore.ofDirectory limits (some (record.set i byte)) with
    | error e => exact ⟨e, rfl⟩
    | ok s =>
      obtain ⟨-, other, hset, -⟩ := FileRaftHardStateStore.ofDirectory_eq_ok.mp hopen
      exact absurd hset (decode_set h hcorrupted)

/-- The first byte of a snapshot file, set to zero. -/
theorem corrupt_byte_rejected_first :
    ∃ view, encodeSnapshot {} (smallSnapshot 1) = .ok view
      ∧ ∃ e, decodeSnapshot {} (view.set 0 0) = .error e := by
  have hencode : encodeSnapshot {} (smallSnapshot 1) = .ok (checksummed
      (snapshotFields (smallSnapshot 1)) (snapshotBody (smallSnapshot 1))) := rfl
  have hdecode := decodeSnapshot_encodeSnapshot
    ⟨by decide, by decide, by decide, by decide, by decide⟩ hencode
  exact ⟨_, hencode, (corrupt_byte_rejected {}).1 _ _ 0 0 hdecode ⟨by decide, by decide⟩⟩

end KuraMetadata.Storage
