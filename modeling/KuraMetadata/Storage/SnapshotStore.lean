import KuraMetadata.Storage.Checksum
import KuraMetadata.Storage.Names
import KuraMetadata.Library.EStateM
import KuraMetadata.Library.OrderedMap

/-! # The snapshot store

`FileSnapshotStore` keeps each snapshot in a file of its own, named by the last log index it
includes. The latest snapshot is the one with the highest index among the files that can be
decoded; a snapshot is published only if its index is higher. -/

namespace KuraMetadata.Storage

open LittleEndian List Except
open MonadExcept (ofExcept)

variable {nodes : List NodeId} {limits : StorageLimits} {snapshot : Snapshot} {revision : Int}
variable {placed : List Snapshot}

/-! ## The format -/

def snapshotHeaderSize : Nat := 68

def snapshotFormatVersion : Nat := 1

/-- `KURASNP1`. -/
def snapshotMagic : List UInt8 := [75, 85, 82, 65, 83, 78, 80, 49]

/-- `snapshot-`. -/
def snapshotStem : FileName := [115, 110, 97, 112, 115, 104, 111, 116, 45]

/-- `.ksnap`. -/
def snapshotExtension : FileName := [46, 107, 115, 110, 97, 112]

def snapshotName (index : Nat) : FileName := decimalName snapshotStem index snapshotExtension

/-- One pass of a loop over node IDs: the set of those seen so far takes in one more. -/
def insertMember (members : List NodeId) (node : NodeId) : Except StorageError (List NodeId) :=
  if node = 0 ∨ node ∈ members then
    throw ⟨"snapshot membership contains zero or duplicate node ID"⟩
  else pure (members ++ [node])

/-- `validate_snapshot_value`. The total size fits 64 bits if every checked operation on the way
to it does. -/
def validateSnapshotValue (limits : StorageLimits) (snapshot : Snapshot) :
    Except StorageError Unit := do
  let metadata := snapshot.metadata
  if metadata.formatVersion ≠ snapshotFormatVersion then
    throw ⟨"snapshot format_version must be 1"⟩
  if metadata.lastIncludedIndex = 0 then
    throw ⟨"snapshot last-included index must be nonzero"⟩
  if metadata.storeRevision < 0 ∨ metadata.compactionRevision < 0
      ∨ metadata.storeRevision < metadata.compactionRevision then
    throw ⟨"snapshot revisions are invalid"⟩
  let voterCount := metadata.membership.voters.length
  let learnerCount := metadata.membership.learners.length
  if limits.maxSnapshotMembers < voterCount ∨ limits.maxSnapshotMembers < learnerCount
      ∨ limits.maxSnapshotMembers - learnerCount < voterCount then
    throw ⟨"snapshot membership exceeds configured limit"⟩
  let members ← metadata.membership.voters.foldlM insertMember []
  let members ← metadata.membership.learners.foldlM insertMember members
  let total := snapshotHeaderSize + 8 * members.length + snapshot.state.length
  if u64Max < total ∨ limits.maxSnapshotBytes < total then
    throw ⟨"snapshot exceeds configured size limit"⟩

def encodeNodes (nodes : List NodeId) : List UInt8 := nodes.flatMap (bytes 8)

/-- The part of a snapshot file after its header. -/
def snapshotBody (snapshot : Snapshot) : List UInt8 :=
  encodeNodes snapshot.metadata.membership.voters
    ++ (encodeNodes snapshot.metadata.membership.learners ++ snapshot.state)

/-- The fields of a snapshot header before its checksum. -/
def snapshotFields (snapshot : Snapshot) : List UInt8 :=
  snapshotMagic ++ (bytes 2 snapshotFormatVersion ++ (bytes 2 snapshotHeaderSize ++ (bytes 4 0
    ++ (bytes 8 snapshot.metadata.lastIncludedIndex
      ++ (bytes 8 snapshot.metadata.lastIncludedTerm
        ++ (bytes 8 snapshot.metadata.storeRevision.toNat
          ++ (bytes 8 snapshot.metadata.compactionRevision.toNat
            ++ (bytes 4 snapshot.metadata.membership.voters.length
              ++ (bytes 4 snapshot.metadata.membership.learners.length
                ++ bytes 8 snapshot.state.length)))))))))

def encodeSnapshot (limits : StorageLimits) (snapshot : Snapshot) :
    Except StorageError (List UInt8) := do
  validateSnapshotValue limits snapshot
  let fields := snapshotFields snapshot
  let body := snapshotBody snapshot
  return fields ++ (bytes 4 (crc32c (fields ++ body)) ++ body)

/-- The node IDs of a loop that reads some of them from an offset on. -/
def readNodes (view : List UInt8) (offset count : Nat) : List NodeId :=
  (List.range count).map fun i => readLe 8 view (offset + 8 * i)

/-- `decode_snapshot`, on the bytes of the file. -/
def decodeSnapshot (limits : StorageLimits) (view : List UInt8) : Except StorageError Snapshot := do
  if view.length < snapshotHeaderSize then throw ⟨"snapshot header is truncated"⟩
  if view.take 8 ≠ snapshotMagic then throw ⟨"snapshot magic is invalid"⟩
  if readLe 2 view 8 ≠ snapshotFormatVersion ∨ readLe 2 view 10 ≠ snapshotHeaderSize
      ∨ readLe 4 view 12 ≠ 0 then
    throw ⟨"snapshot version, header size, or flags are unsupported"⟩
  let index := readLe 8 view 16
  let term := readLe 8 view 24
  let storeRevisionBits := readLe 8 view 32
  let compactionRevisionBits := readLe 8 view 40
  let voterCount := readLe 4 view 48
  let learnerCount := readLe 4 view 52
  let stateLength := readLe 8 view 56
  let storedChecksum := readLe 4 view 64
  if storeRevisionBits >>> 63 ≠ 0 ∨ compactionRevisionBits >>> 63 ≠ 0 then
    throw ⟨"snapshot revision is negative"⟩
  if limits.maxSnapshotMembers < voterCount ∨ limits.maxSnapshotMembers < learnerCount
      ∨ limits.maxSnapshotMembers - learnerCount < voterCount then
    throw ⟨"snapshot membership exceeds configured limit"⟩
  let expected := snapshotHeaderSize + 8 * (voterCount + learnerCount) + stateLength
  if u64Max < expected ∨ expected ≠ view.length then throw ⟨"snapshot body length is invalid"⟩
  if crc32c (view.take 64 ++ view.drop snapshotHeaderSize) ≠ storedChecksum then
    throw ⟨"snapshot checksum mismatch"⟩
  let voters := readNodes view snapshotHeaderSize voterCount
  let members ← voters.foldlM insertMember []
  let learners := readNodes view (snapshotHeaderSize + 8 * voterCount) learnerCount
  let _ ← learners.foldlM insertMember members
  let snapshot : Snapshot :=
    { metadata :=
        { lastIncludedIndex := index
          lastIncludedTerm := term
          storeRevision := storeRevisionBits
          compactionRevision := compactionRevisionBits
          membership := { voters, learners }
          formatVersion := snapshotFormatVersion }
      state := view.drop (snapshotHeaderSize + 8 * (voterCount + learnerCount))
      checksum := storedChecksum }
  validateSnapshotValue limits snapshot
  return snapshot

/-- The snapshot as its file is decoded. -/
def Snapshot.stamped (snapshot : Snapshot) : Snapshot :=
  { snapshot with checksum := crc32c (snapshotFields snapshot ++ snapshotBody snapshot) }

/-! ## Reading a snapshot back -/

theorem foldlM_insertMember {members members' : List NodeId}
    (h : nodes.foldlM insertMember members = .ok members') : members' = members ++ nodes := by
  induction nodes generalizing members with
  | nil =>
    obtain rfl := pure_eq_ok.mp h
    exact (append_nil _).symm
  | cons node nodes ih =>
    simp only [foldlM_cons, insertMember, throw_eq_error, bind_eq_ok,
      ite_error_eq_ok, pure_eq_ok] at h
    obtain ⟨_, ⟨-, rfl⟩, h⟩ := h
    rw [ih h, append_assoc]
    rfl

theorem length_encodeNodes (nodes : List NodeId) :
    (encodeNodes nodes).length = 8 * nodes.length := by
  induction nodes with
  | nil => rfl
  | cons node nodes ih =>
    rw [encodeNodes, flatMap_cons, length_append, length_bytes, length_cons]
    rw [encodeNodes] at ih
    omega

theorem readNodes_encodeNodes (hnodes : ∀ node ∈ nodes, node ≤ u64Max) (before after : List UInt8) :
    readNodes (before ++ (encodeNodes nodes ++ after)) before.length nodes.length = nodes := by
  induction nodes generalizing before with
  | nil => rfl
  | cons node nodes ih =>
    obtain ⟨hnode, hnodes⟩ := forall_mem_cons.mp hnodes
    have hsplit : before ++ (encodeNodes (node :: nodes) ++ after)
        = before ++ bytes 8 node ++ (encodeNodes nodes ++ after) := by
      rw [encodeNodes, flatMap_cons, append_assoc, append_assoc]
      rfl
    have hfirst : readLe 8 (before ++ bytes 8 node ++ (encodeNodes nodes ++ after))
        (before.length + 8 * 0) = node := by
      rw [Nat.mul_zero, Nat.add_zero, readLe, append_assoc, drop_left,
        take_left' (length_bytes 8 node), value_bytes (lt_of_le_u64Max hnode)]
    have hlater := ih hnodes (before ++ bytes 8 node)
    rw [length_append, length_bytes] at hlater
    rw [hsplit, readNodes, length_cons, range_succ_eq_map, map_cons, hfirst,
      map_map]
    conv => rhs; rw [← hlater]
    rw [readNodes]
    refine congrArg _ (map_congr_left fun i _ => ?_)
    show readLe 8 _ (before.length + 8 * (i + 1)) = readLe 8 _ (before.length + 8 + 8 * i)
    congr 1
    omega

/-- The integers of a snapshot fit their fields, as those of the source's types do. -/
structure Snapshot.Fits (snapshot : Snapshot) : Prop where
  index : snapshot.metadata.lastIncludedIndex ≤ u64Max
  term : snapshot.metadata.lastIncludedTerm ≤ u64Max
  storeRevision : snapshot.metadata.storeRevision < 2 ^ 63
  voters : ∀ node ∈ snapshot.metadata.membership.voters, node ≤ u64Max
  learners : ∀ node ∈ snapshot.metadata.membership.learners, node ≤ u64Max

/-- What `validate_snapshot_value` has checked. -/
theorem validateSnapshotValue_eq_ok {u : Unit} :
    validateSnapshotValue limits snapshot = .ok u
      ↔ snapshot.metadata.formatVersion = snapshotFormatVersion
        ∧ snapshot.metadata.lastIncludedIndex ≠ 0
        ∧ ¬ (snapshot.metadata.storeRevision < 0 ∨ snapshot.metadata.compactionRevision < 0
          ∨ snapshot.metadata.storeRevision < snapshot.metadata.compactionRevision)
        ∧ ¬ (limits.maxSnapshotMembers < snapshot.metadata.membership.voters.length
          ∨ limits.maxSnapshotMembers < snapshot.metadata.membership.learners.length
          ∨ limits.maxSnapshotMembers - snapshot.metadata.membership.learners.length
            < snapshot.metadata.membership.voters.length)
        ∧ ∃ members, snapshot.metadata.membership.voters.foldlM insertMember [] = .ok members
          ∧ ∃ members',
            snapshot.metadata.membership.learners.foldlM insertMember members = .ok members'
            ∧ ¬ (u64Max < snapshotHeaderSize + 8 * members'.length + snapshot.state.length
              ∨ limits.maxSnapshotBytes
                < snapshotHeaderSize + 8 * members'.length + snapshot.state.length) := by
  simp only [validateSnapshotValue, throw_eq_error, error_bind,
    ite_error_eq_ok, bind_eq_ok, pure_eq_ok, ne_eq, not_not, and_true]

theorem length_snapshotFields (snapshot : Snapshot) : (snapshotFields snapshot).length = 64 := rfl

/-- The parts of a snapshot file after its header. -/
theorem snapshot_parts (snapshot : Snapshot) (hfits : snapshot.Fits) (checksum : Nat) :
    ∀ view, view = snapshotFields snapshot ++ (bytes 4 checksum ++ snapshotBody snapshot) →
      view.length = snapshotHeaderSize + 8 * (snapshot.metadata.membership.voters.length
        + snapshot.metadata.membership.learners.length) + snapshot.state.length
      ∧ readNodes view snapshotHeaderSize snapshot.metadata.membership.voters.length
        = snapshot.metadata.membership.voters
      ∧ readNodes view (snapshotHeaderSize + 8 * snapshot.metadata.membership.voters.length)
        snapshot.metadata.membership.learners.length = snapshot.metadata.membership.learners
      ∧ view.drop (snapshotHeaderSize + 8 * (snapshot.metadata.membership.voters.length
        + snapshot.metadata.membership.learners.length)) = snapshot.state := by
  rintro view rfl
  have hheader : (snapshotFields snapshot ++ bytes 4 checksum).length = snapshotHeaderSize := rfl
  have hvoters := length_encodeNodes snapshot.metadata.membership.voters
  have hlearners := length_encodeNodes snapshot.metadata.membership.learners
  rw [← append_assoc, snapshotBody]
  generalize snapshotFields snapshot ++ bytes 4 checksum = header at hheader ⊢
  refine ⟨?_, ?_, ?_, ?_⟩
  · rw [length_append, length_append, length_append, hheader, hvoters, hlearners]
    omega
  · rw [← hheader]
    exact readNodes_encodeNodes hfits.voters _ _
  · rw [← append_assoc, ← hheader, ← hvoters, ← length_append]
    exact readNodes_encodeNodes hfits.learners _ _
  · rw [← append_assoc, ← append_assoc]
    refine drop_left' ?_
    rw [length_append, length_append, hheader, hvoters, hlearners]
    omega

/-- The fields of a snapshot header. They stand at fixed offsets, so each read evaluates to the
field's own bytes. -/
theorem snapshot_fields (snapshot : Snapshot) (checksum : Nat) (body : List UInt8) :
    ∀ view, view = snapshotFields snapshot ++ (bytes 4 checksum ++ body) →
      (view.take 8 = snapshotMagic ∧ readLe 2 view 8 = snapshotFormatVersion
        ∧ readLe 2 view 10 = snapshotHeaderSize ∧ readLe 4 view 12 = 0)
      ∧ (readLe 8 view 16 = value (bytes 8 snapshot.metadata.lastIncludedIndex)
        ∧ readLe 8 view 24 = value (bytes 8 snapshot.metadata.lastIncludedTerm)
        ∧ readLe 8 view 32 = value (bytes 8 snapshot.metadata.storeRevision.toNat)
        ∧ readLe 8 view 40 = value (bytes 8 snapshot.metadata.compactionRevision.toNat)
        ∧ readLe 4 view 48 = value (bytes 4 snapshot.metadata.membership.voters.length)
        ∧ readLe 4 view 52 = value (bytes 4 snapshot.metadata.membership.learners.length)
        ∧ readLe 8 view 56 = value (bytes 8 snapshot.state.length)
        ∧ readLe 4 view 64 = value (bytes 4 checksum))
      ∧ view.take 64 = snapshotFields snapshot ∧ view.drop snapshotHeaderSize = body := by
  rintro view rfl
  refine ⟨⟨rfl, rfl, rfl, rfl⟩, ⟨rfl, rfl, rfl, rfl, rfl, rfl, rfl, rfl⟩,
    take_left' (length_snapshotFields snapshot), rfl⟩

theorem shiftRight_toNat (h : revision < 2 ^ 63) : revision.toNat >>> 63 = 0 := by
  rw [Nat.shiftRight_eq_div_pow]
  exact Nat.div_eq_of_lt (by omega)

theorem value_bytes_toNat (h : revision < 2 ^ 63) :
    value (bytes 8 revision.toNat) = revision.toNat :=
  value_bytes (lt_of_le_u64Max (show revision.toNat ≤ 2 ^ 64 - 1 by omega))

/-- A snapshot is decoded as it was encoded, with the checksum of its file. -/
theorem decodeSnapshot_encodeSnapshot
    {view : List UInt8} (hfits : snapshot.Fits) (h : encodeSnapshot limits snapshot = .ok view) :
    decodeSnapshot limits view
      = .ok { snapshot with
          checksum := crc32c (snapshotFields snapshot ++ snapshotBody snapshot) } := by
  simp only [encodeSnapshot, bind_eq_ok, pure_eq_ok] at h
  obtain ⟨u, hvalidate, hview⟩ := h
  obtain ⟨hversion, hindex, hrevisions, hmembers, members, hvoters, members', hlearners, hsize⟩ :=
    validateSnapshotValue_eq_ok.mp hvalidate
  obtain ⟨hlength, hread_voters, hread_learners, hread_state⟩ :=
    snapshot_parts snapshot hfits _ view hview.symm
  obtain ⟨⟨hmagic, hformat, hheader, hflags⟩, ⟨h16, h24, h32, h40, h48, h52, h56, h64⟩,
      htake, hbody⟩ :=
    snapshot_fields snapshot _ _ view hview.symm
  have hcount : members'.length = snapshot.metadata.membership.voters.length
      + snapshot.metadata.membership.learners.length := by
    rw [foldlM_insertMember hlearners, foldlM_insertMember hvoters, nil_append,
      length_append]
  rw [hcount] at hsize
  -- every field holds its value
  have hstore := hfits.storeRevision
  have hcompaction : snapshot.metadata.compactionRevision < 2 ^ 63 := by omega
  have hlimit := limits.maxSnapshotMembers_lt
  have hvoters_lt : snapshot.metadata.membership.voters.length < 256 ^ 4 :=
    Nat.lt_of_le_of_lt (show _ ≤ limits.maxSnapshotMembers by omega) hlimit
  have hlearners_lt : snapshot.metadata.membership.learners.length < 256 ^ 4 :=
    Nat.lt_of_le_of_lt (show _ ≤ limits.maxSnapshotMembers by omega) hlimit
  have hstate_le : snapshot.state.length ≤ u64Max := by omega
  rw [value_bytes (lt_of_le_u64Max hfits.index)] at h16
  rw [value_bytes (lt_of_le_u64Max hfits.term)] at h24
  rw [value_bytes_toNat hstore] at h32
  rw [value_bytes_toNat hcompaction] at h40
  rw [value_bytes hvoters_lt] at h48
  rw [value_bytes hlearners_lt] at h52
  rw [value_bytes (lt_of_le_u64Max hstate_le)] at h56
  rw [value_bytes (crc32c_lt _)] at h64
  have hstore_value : ((snapshot.metadata.storeRevision.toNat : Nat) : Int)
      = snapshot.metadata.storeRevision := Int.toNat_of_nonneg (by omega)
  have hcompaction_value : ((snapshot.metadata.compactionRevision.toNat : Nat) : Int)
      = snapshot.metadata.compactionRevision := Int.toNat_of_nonneg (by omega)
  simp only [decodeSnapshot, throw_eq_error, error_bind, ite_error_eq_ok,
    bind_eq_ok, pure_eq_ok, hmagic, hformat, hheader, hflags, h16, h24, h32, h40, h48,
    h52, h56, h64, htake, hbody, hread_voters, hread_learners, hread_state, hstore_value,
    hcompaction_value, shiftRight_toNat hstore, shiftRight_toNat hcompaction]
  refine ⟨by omega, by simp, by simp, by simp, hmembers, by omega, by simp, members, hvoters,
    members', hlearners, u, ?_, ?_⟩
  · rw [← hversion]
    exact hvalidate
  · rw [← hversion]

/-! ## The store -/

structure FileSnapshotStore where
  directory : Directory
  limits : StorageLimits
  deriving DecidableEq

namespace FileSnapshotStore

/-- One pass of the loop of `latest_locked` over the directory. -/
def candidate (item : FileName × DirectoryEntry) : Option (Nat × FileName) :=
  if item.2.regular then
    ((parseDecimalName item.1 snapshotStem snapshotExtension).filter (· ≠ 0)).map (·, item.1)
  else none

/-- One pass of the loop of `latest_locked` over the candidates: a file that cannot be decoded is
passed over. -/
def readCandidate (s : FileSnapshotStore) (candidate : Nat × FileName) : Option Snapshot :=
  let decoded := do
    let view ← s.directory.readFile candidate.2 s.limits.maxSnapshotBytes
    decodeSnapshot s.limits view
  match decoded with
  | .ok snapshot =>
    if snapshot.metadata.lastIncludedIndex = candidate.1 then some snapshot else none
  | .error _ => none

/-- `latest_locked`, which `latest` calls with the mutex held. -/
def latest (s : FileSnapshotStore) : Option Snapshot :=
  ((s.directory.toList.filterMap candidate).insertionSort fun left right =>
    right.1 ≤ left.1).findSome? s.readCandidate

/-- `publish`. The temporary file may not be written or linked (`written`), and what follows the
link, the removal of the temporary name and the synchronisation of the directory, may fail
(`linked`). A crash stops at one of these two points. -/
def publish (written linked : Except StorageError Unit) (snapshot : Snapshot) :
    EStateM StorageError FileSnapshotStore Unit := do
  let s ← MonadState.get
  if s.latest.any fun current =>
      snapshot.metadata.lastIncludedIndex ≤ current.metadata.lastIncludedIndex then
    throw ⟨"snapshot publication must advance the snapshot index"⟩
  let bytes ← ofExcept (encodeSnapshot s.limits snapshot)
  let path := snapshotName snapshot.metadata.lastIncludedIndex
  if path ∈ s.directory then throw ⟨"refusing to replace an existing snapshot"⟩
  ofExcept written
  modify fun s => { s with directory := s.directory.insert path { bytes } }
  ofExcept linked

/-! ## The latest snapshot -/

variable {s t : FileSnapshotStore} {snapshot other : Snapshot} {index : Nat} {pair : Nat × FileName}

/-- The store has a file from which the snapshot with the index is read. -/
structure Stores (s : FileSnapshotStore) (index : Nat) (snapshot : Snapshot) : Prop where
  index_pos : index ≠ 0
  index_le : index ≤ u64Max
  file : ∃ entry, s.directory[snapshotName index]? = some entry ∧ entry.regular = true
  read : s.readCandidate (index, snapshotName index) = some snapshot

theorem candidate_eq_some {item : FileName × DirectoryEntry} :
    candidate item = some pair
      ↔ item.2.regular = true ∧ pair.1 ≠ 0 ∧ pair.1 ≤ u64Max ∧ item.1 = snapshotName pair.1
        ∧ pair.2 = item.1 := by
  obtain ⟨index, name⟩ := pair
  unfold candidate
  cases item.2.regular with
  | false => simp
  | true =>
    simp only [if_true, Option.map_eq_some_iff, Option.filter_eq_some_iff, Prod.mk.injEq, true_and,
      decide_eq_true_eq]
    constructor
    · rintro ⟨value, ⟨hparse, hne⟩, rfl, rfl⟩
      obtain ⟨hname, hmax⟩ := parseDecimalName_eq_some hparse
      exact ⟨hne, hmax, hname, rfl⟩
    · rintro ⟨hne, hmax, hname, rfl⟩
      refine ⟨index, ⟨?_, hne⟩, rfl, rfl⟩
      rw [hname]
      exact parseDecimalName_decimalName _ _ hmax

theorem mem_candidates (s : FileSnapshotStore) (pair : Nat × FileName) :
    pair ∈ (s.directory.toList.filterMap candidate).insertionSort
      (fun left right => right.1 ≤ left.1)
      ↔ pair.1 ≠ 0 ∧ pair.1 ≤ u64Max ∧ pair.2 = snapshotName pair.1
        ∧ ∃ entry, s.directory[snapshotName pair.1]? = some entry ∧ entry.regular = true := by
  rw [mem_insertionSort, mem_filterMap]
  constructor
  · rintro ⟨item, hitem, hcandidate⟩
    obtain ⟨hregular, hne, hmax, hname, hpair⟩ := candidate_eq_some.mp hcandidate
    rw [Std.ExtTreeMap.mem_toList_iff_getElem?_eq_some, hname] at hitem
    exact ⟨hne, hmax, hpair.trans hname, item.2, hitem, hregular⟩
  · rintro ⟨hne, hmax, hname, entry, hentry, hregular⟩
    refine ⟨(snapshotName pair.1, entry), ?_,
      candidate_eq_some.mpr ⟨hregular, hne, hmax, rfl, hname⟩⟩
    rw [Std.ExtTreeMap.mem_toList_iff_getElem?_eq_some]
    exact hentry

theorem readCandidate_eq_some :
    s.readCandidate pair = some snapshot
      ↔ (∃ view, s.directory.readFile pair.2 s.limits.maxSnapshotBytes = .ok view
          ∧ decodeSnapshot s.limits view = .ok snapshot)
        ∧ snapshot.metadata.lastIncludedIndex = pair.1 := by
  rw [← bind_eq_ok]
  unfold readCandidate
  dsimp only
  split
  · rename_i read hread
    rw [hread, Except.ok.injEq]
    by_cases hindex : read.metadata.lastIncludedIndex = pair.1
    · rw [if_pos hindex, Option.some.injEq]
      exact ⟨fun h => ⟨h, h ▸ hindex⟩, fun h => h.1⟩
    · rw [if_neg hindex]
      exact ⟨fun h => (by cases h), fun h => absurd (h.1 ▸ h.2) hindex⟩
  · rename_i hread
    rw [hread]
    exact ⟨fun h => (by cases h), fun h => (by cases h.1)⟩

/-- The latest snapshot has the highest index of those the store can read. -/
theorem latest_eq_some (h : s.latest = some snapshot) :
    Stores s snapshot.metadata.lastIncludedIndex snapshot
      ∧ ∀ index other, Stores s index other → index ≤ snapshot.metadata.lastIncludedIndex := by
  obtain ⟨before, pair, after, hcandidates, hread, hbefore⟩ := List.findSome?_eq_some_iff.mp h
  have hpair := (mem_candidates s pair).mp (by rw [hcandidates]; simp)
  obtain ⟨hne, hmax, hname, hfile⟩ := hpair
  have hindex := (readCandidate_eq_some.mp hread).2
  have hstores : Stores s pair.1 snapshot := ⟨hne, hmax, hfile, by rw [← hname]; exact hread⟩
  refine ⟨by rw [hindex]; exact hstores, fun index other hother => ?_⟩
  have hmem := (mem_candidates s (index, snapshotName index)).mpr
    ⟨hother.index_pos, hother.index_le, rfl, hother.file⟩
  have hsorted := pairwise_insertionSort (fun left right : Nat × FileName => right.1 ≤ left.1)
    (s.directory.toList.filterMap candidate)
  rw [hcandidates] at hmem hsorted
  rw [hindex]
  rcases mem_append.mp hmem with hmem | hmem
  · -- the candidates passed over cannot be read
    have hnone := hbefore _ hmem
    rw [hother.read] at hnone
    cases hnone
  · rcases mem_cons.mp hmem with hmem | hmem
    · rw [← hmem]
    · exact (pairwise_cons.mp (pairwise_append.mp hsorted).2.1).1 _ hmem

theorem latest_eq_none (h : s.latest = none) : ¬ Stores s index snapshot := by
  intro hstores
  have hmem := (mem_candidates s (index, snapshotName index)).mpr
    ⟨hstores.index_pos, hstores.index_le, rfl, hstores.file⟩
  have hnone := findSome?_eq_none_iff.mp h _ hmem
  rw [hstores.read] at hnone
  cases hnone

theorem stores_congr {directory : Directory}
    (h : directory[snapshotName index]? = s.directory[snapshotName index]?) :
    Stores { s with directory } index snapshot ↔ Stores s index snapshot := by
  have hread : readCandidate { s with directory } (index, snapshotName index)
      = s.readCandidate (index, snapshotName index) := by
    simp only [readCandidate, Directory.readFile, h]
  constructor
  · rintro ⟨hpos, hle, hfile, hread'⟩
    exact ⟨hpos, hle, h ▸ hfile, hread ▸ hread'⟩
  · rintro ⟨hpos, hle, hfile, hread'⟩
    exact ⟨hpos, hle, h.symm ▸ hfile, hread.trans hread'⟩

/-- The latest snapshot is the highest one that can be read. -/
theorem latest_of_highest (h : Stores s index snapshot)
    (highest : ∀ index' other, Stores s index' other → index' ≤ index) :
    s.latest = some snapshot := by
  cases hlatest : s.latest with
  | none => exact absurd h (latest_eq_none hlatest)
  | some other =>
    obtain ⟨hother, hhighest⟩ := latest_eq_some hlatest
    have hread := hother.read
    rw [Nat.le_antisymm (highest _ _ hother) (hhighest _ _ h), h.read] at hread
    exact hread.symm

/-! ## Publication -/

theorem encodeSnapshot_length {bytes : List UInt8}
    (hfits : snapshot.Fits) (h : encodeSnapshot limits snapshot = .ok bytes) :
    snapshot.metadata.lastIncludedIndex ≠ 0 ∧ bytes.length ≤ limits.maxSnapshotBytes := by
  simp only [encodeSnapshot, bind_eq_ok, pure_eq_ok] at h
  obtain ⟨u, hvalidate, hbytes⟩ := h
  obtain ⟨-, hindex, -, -, members, hvoters, members', hlearners, hsize⟩ :=
    validateSnapshotValue_eq_ok.mp hvalidate
  obtain ⟨hlength, -⟩ := snapshot_parts snapshot hfits _ bytes hbytes.symm
  rw [foldlM_insertMember hlearners, foldlM_insertMember hvoters, nil_append,
    length_append] at hsize
  exact ⟨hindex, by omega⟩

/-- The store with the file of a snapshot. -/
def place (s : FileSnapshotStore) (snapshot : Snapshot) (bytes : List UInt8) : FileSnapshotStore :=
  { s with
    directory := s.directory.insert (snapshotName snapshot.metadata.lastIncludedIndex) { bytes } }

/-- The snapshot may be added to the store: its index is above those that can be read. -/
structure Admits (s : FileSnapshotStore) (snapshot : Snapshot) (bytes : List UInt8) : Prop where
  fits : snapshot.Fits
  encodes : encodeSnapshot s.limits snapshot = .ok bytes
  free : snapshotName snapshot.metadata.lastIncludedIndex ∉ s.directory
  above : ∀ index other, Stores s index other → index < snapshot.metadata.lastIncludedIndex

/-- A publication throws and leaves the store as it was, or places the file of the snapshot. -/
theorem publish_cases (fits : snapshot.Fits) (written linked : Except StorageError Unit) :
    (∃ e, publish written linked snapshot s = .error e s)
      ∨ ∃ bytes, Admits s snapshot bytes
        ∧ (publish written linked snapshot s).state = s.place snapshot bytes := by
  simp only [publish, EStateM.get_bind_apply, EStateM.ite_apply, EStateM.throw_bind_apply]
  split
  · exact .inl ⟨_, rfl⟩
  rename_i hlatest
  cases hencode : encodeSnapshot s.limits snapshot with
  | error e =>
    rw [EStateM.ofExcept_bind_apply_of_error rfl]
    exact .inl ⟨_, rfl⟩
  | ok bytes =>
    rw [EStateM.ofExcept_bind_apply_of_ok rfl]
    simp only [EStateM.ite_apply, EStateM.throw_bind_apply]
    split
    · exact .inl ⟨_, rfl⟩
    rename_i hpath
    cases written with
    | error e => exact .inl ⟨_, rfl⟩
    | ok =>
      refine .inr ⟨bytes, ⟨fits, hencode, hpath, fun index other hstores => ?_⟩, ?_⟩
      · cases hcurrent : s.latest with
        | none => exact absurd hstores (latest_eq_none hcurrent)
        | some current =>
          have hhighest := (latest_eq_some hcurrent).2 _ _ hstores
          rw [hcurrent, Option.any_some, decide_eq_true_eq] at hlatest
          omega
      · cases linked with
        | ok | error => rfl

section

variable {bytes : List UInt8} (h : Admits s snapshot bytes)
include h

theorem Admits.stores :
    Stores (s.place snapshot bytes) snapshot.metadata.lastIncludedIndex snapshot.stamped := by
  obtain ⟨hindex, hlength⟩ := encodeSnapshot_length h.fits h.encodes
  have hfile : (s.place snapshot bytes).directory[snapshotName snapshot.metadata.lastIncludedIndex]?
      = some { bytes } := Std.ExtTreeMap.getElem?_insert_self
  refine ⟨hindex, h.fits.index, ⟨_, hfile, rfl⟩, readCandidate_eq_some.mpr ⟨⟨bytes, ?_, ?_⟩, rfl⟩⟩
  · simp only [Directory.readFile, hfile]
    exact if_neg (Nat.not_lt.mpr hlength)
  · exact decodeSnapshot_encodeSnapshot h.fits h.encodes

theorem Admits.kept (hstores : Stores s index other) :
    Stores (s.place snapshot bytes) index other := by
  refine (stores_congr (Std.ExtTreeMap.getElem?_insert_of_ne (fun hname => h.free ?_) _)).mpr
    hstores
  obtain ⟨entry, hentry, -⟩ := hstores.file
  rw [hname, ← Std.ExtTreeMap.isSome_getElem?_iff_mem, hentry]
  rfl

theorem Admits.latest : (s.place snapshot bytes).latest = some snapshot.stamped := by
  refine latest_of_highest h.stores fun index other hstores => ?_
  by_cases hname : snapshotName snapshot.metadata.lastIncludedIndex = snapshotName index
  · have hparse := parseDecimalName_decimalName snapshotStem snapshotExtension hstores.index_le
    rw [← snapshotName, ← hname, snapshotName, parseDecimalName_decimalName _ _ h.fits.index]
      at hparse
    exact (Option.some.inj hparse).ge
  · refine (h.above index other ((stores_congr ?_).mp hstores)).le
    exact Std.ExtTreeMap.getElem?_insert_of_ne hname _

end

/-! ## Sequences of publications -/

/-- A sequence of publications with any failures, and the snapshots whose files it has placed. -/
inductive Attempts (s : FileSnapshotStore) : List Snapshot → FileSnapshotStore → Prop
  | start : Attempts s [] s
  | attempt {placed : List Snapshot} {t : FileSnapshotStore} (run : Attempts s placed t)
      {snapshot : Snapshot} (fits : snapshot.Fits) (written linked : Except StorageError Unit) :
      Attempts s
        (if (publish written linked snapshot t).state = t then placed else placed ++ [snapshot])
        (publish written linked snapshot t).state

/-- What can be read of the store `t` that has become of `s`. -/
structure Keeps (s : FileSnapshotStore) (placed : List Snapshot) (t : FileSnapshotStore) :
    Prop where
  latest : t.latest = (placed.getLast?.map Snapshot.stamped).or s.latest
  increasing : (placed.map (·.metadata.lastIncludedIndex)).Pairwise (· < ·)
  above : ∀ p ∈ placed, ∀ index other, Stores s index other → index < p.metadata.lastIncludedIndex
  kept : ∀ index other, Stores s index other → Stores t index other
  stored : ∀ p ∈ placed, Stores t p.metadata.lastIncludedIndex p.stamped

theorem Keeps.place {bytes : List UInt8} (h : Keeps s placed t)
    (admits : Admits t snapshot bytes) :
    Keeps s (placed ++ [snapshot]) (t.place snapshot bytes) where
  latest := by
    rw [getLast?_concat]
    exact admits.latest
  increasing := by
    rw [map_append, pairwise_append]
    refine ⟨h.increasing, pairwise_singleton _ _, fun i hi j hj => ?_⟩
    obtain ⟨p, hp, rfl⟩ := mem_map.mp hi
    rw [mem_singleton.mp hj]
    exact admits.above _ _ (h.stored p hp)
  above := by
    refine List.forall_mem_append.mpr ⟨h.above, List.forall_mem_singleton.mpr ?_⟩
    exact fun index other hstores => admits.above _ _ (h.kept _ _ hstores)
  kept index other hstores := admits.kept (h.kept _ _ hstores)
  stored := List.forall_mem_append.mpr
    ⟨fun p hp => admits.kept (h.stored p hp), List.forall_mem_singleton.mpr admits.stores⟩

theorem Keeps.publish (h : Keeps s placed t) (fits : snapshot.Fits)
    (written linked : Except StorageError Unit) :
    (∃ e, publish written linked snapshot t = .error e t)
      ∨ (publish written linked snapshot t).state ≠ t
        ∧ Keeps s (placed ++ [snapshot]) (publish written linked snapshot t).state := by
  refine (publish_cases fits written linked).imp id ?_
  rintro ⟨bytes, admits, hplaced⟩
  rw [hplaced]
  refine ⟨fun heq => admits.free ?_, h.place admits⟩
  obtain ⟨entry, hentry, -⟩ := admits.stores.file
  rw [heq] at hentry
  exact Std.ExtTreeMap.isSome_getElem?_iff_mem.mp (hentry ▸ rfl)

/-- **Published snapshots stay.** Whatever fails in a sequence of publications, from whatever
directory, the latest snapshot is the one placed last, the indexes placed increase, and every
snapshot that could be read or was placed can be read. One that `publish` returns from is placed. -/
theorem publications_kept (run : Attempts s placed t) :
    Keeps s placed t ∧ ∀ (written linked : Except StorageError Unit) (snapshot : Snapshot)
      (u : FileSnapshotStore), snapshot.Fits → publish written linked snapshot t = .ok () u →
        Keeps s (placed ++ [snapshot]) u := by
  have hkeeps : Keeps s placed t := by
    induction run with
    | start =>
      exact ⟨rfl, List.Pairwise.nil, forall_mem_nil _, fun _ _ h => h, forall_mem_nil _⟩
    | attempt run fits written linked ih =>
      split
      · rename_i hsame
        rwa [hsame]
      · rename_i hne
        rcases ih.publish fits written linked with ⟨e, herror⟩ | ⟨-, hkeeps⟩
        · exact absurd (congrArg EStateM.Result.state herror) hne
        · exact hkeeps
  refine ⟨hkeeps, fun written linked snapshot u fits hok => ?_⟩
  rcases hkeeps.publish fits written linked with ⟨e, herror⟩ | ⟨-, hkeeps⟩
  · rw [herror] at hok
    cases hok
  · rwa [hok] at hkeeps

/-- A snapshot of the log up to an index. -/
def smallSnapshot (index : Nat) : Snapshot where
  metadata := { lastIncludedIndex := index, lastIncludedTerm := 1, storeRevision := 0
                compactionRevision := 0, membership := { voters := [1, 2], learners := [3] }
                formatVersion := 1 }
  state := [7]
  checksum := 0

/-- The second publication throws after its file is linked. -/
theorem publications_kept_small :
    ∃ t, Attempts ⟨∅, {}⟩ [smallSnapshot 1, smallSnapshot 2] t
      ∧ t.latest = some (smallSnapshot 2).stamped := by
  have hfits₁ : (smallSnapshot 1).Fits := ⟨by decide, by decide, by decide, by decide, by decide⟩
  have hfits₂ : (smallSnapshot 2).Fits := ⟨by decide, by decide, by decide, by decide, by decide⟩
  have hfirst := Attempts.start.attempt (s := ⟨∅, {}⟩) hfits₁ (.ok ()) (.ok ())
  rw [if_neg (by decide +kernel)] at hfirst
  have hsecond := hfirst.attempt hfits₂ (.ok ()) (.error ⟨"synchronize directory"⟩)
  rw [if_neg (by decide +kernel)] at hsecond
  exact ⟨_, hsecond, (publications_kept hsecond).1.latest⟩

end FileSnapshotStore

end KuraMetadata.Storage
