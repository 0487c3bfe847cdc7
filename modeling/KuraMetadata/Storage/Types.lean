import Mathlib.Algebra.Ring.Nat
import Mathlib.Data.List.Sort
import KuraMetadata.Raft.Types
import KuraMetadata.Library.Except

/-! # Data of the durable stores

The limits and the snapshots of `include/kura/metadata/storage`, the directories the stores keep
their files in, and the hard states a store accepts. -/

namespace KuraMetadata.Storage

/-- `StorageError`, thrown by `fail`. -/
structure StorageError where
  message : String
  deriving DecidableEq, Repr

/-- `StorageLimits`: the limits the modelled stores read. A count is a 32-bit integer in the
source, which the proof field keeps. -/
structure StorageLimits where
  maxSnapshotBytes : Nat := 536870912
  maxRaftHardStateBytes : Nat := 4096
  maxSnapshotMembers : Nat := 10000
  maxSnapshotMembers_lt : maxSnapshotMembers < 2 ^ 32 := by exact Nat.le_of_ble_eq_true rfl
  deriving DecidableEq, Repr

theorem lt_of_le_u64Max {v : Nat} (h : v ≤ u64Max) : v < 256 ^ 8 := Nat.lt_of_le_of_lt h (by decide)

structure Snapshot where
  metadata : SnapshotMetadata
  state : List UInt8
  checksum : Nat
  deriving DecidableEq, Repr

/-! ## Directories -/

/-- A file name, as the bytes it consists of. -/
abbrev FileName := List UInt8

/-- An entry of a directory: a regular file with its content, or anything else. -/
structure DirectoryEntry where
  regular : Bool := true
  bytes : List UInt8
  deriving DecidableEq, Repr

/-- A directory. The temporary files the stores write before they rename them are left out: their
names are unique and no store reads one. -/
abbrev Directory := Std.ExtTreeMap FileName DirectoryEntry compare

def Directory.readFile (directory : Directory) (path : FileName) (maximum : Nat) :
    Except StorageError (List UInt8) :=
  match directory[path]? with
  | none => throw ⟨"open file for reading"⟩
  | some entry =>
    if maximum < entry.bytes.length then throw ⟨"file exceeds configured size limit"⟩
    else pure entry.bytes

/-! ## Transitions of the hard state -/

def validateTransition (current next : RaftHardState) : Except StorageError Unit :=
  if next.votedFor = some 0 then
    .error ⟨"Raft votedFor must be absent or a nonzero node ID"⟩
  else if next.currentTerm = 0 ∧ next.votedFor.isSome then
    .error ⟨"Raft term zero cannot contain a vote"⟩
  else if next.currentTerm < current.currentTerm then
    .error ⟨"Raft currentTerm must not regress"⟩
  else if next.currentTerm = current.currentTerm ∧ current.votedFor ≠ next.votedFor
      ∧ current.votedFor.isSome then
    .error ⟨"Raft votedFor must not change or clear within a term"⟩
  else .ok ()

/-- The hard state `next` may be written over `current`. -/
structure Follows (current next : RaftHardState) : Prop where
  node : next.votedFor ≠ some 0
  zero : next.currentTerm = 0 → next.votedFor = none
  term : current.currentTerm ≤ next.currentTerm
  vote : next.currentTerm = current.currentTerm → current.votedFor ≠ none →
    next.votedFor = current.votedFor

theorem validateTransition_eq_ok {current next : RaftHardState} {u : Unit} :
    validateTransition current next = .ok u ↔ Follows current next := by
  simp only [validateTransition, Except.ite_error_eq_ok, not_and, Nat.not_lt,
    Option.isSome_iff_ne_none, ne_eq, not_not, and_true]
  constructor
  · rintro ⟨hnode, hzero, hterm, hvote⟩
    refine ⟨hnode, hzero, hterm, fun he hs => ?_⟩
    by_contra hne
    exact hs (hvote he (Ne.symm hne))
  · rintro ⟨hnode, hzero, hterm, hvote⟩
    refine ⟨hnode, hzero, hterm, fun he hne => ?_⟩
    by_contra hs
    exact hne (hvote he hs).symm

/-- A written hard state may be written once more. -/
theorem Follows.again {current next : RaftHardState} (h : Follows current next) :
    Follows next next :=
  ⟨h.node, h.zero, le_rfl, fun _ _ => rfl⟩

end KuraMetadata.Storage
