import Mathlib.Data.Finset.Insert
import Mathlib.Data.Finset.Card

/-! # The data model of the Raft subsystem

The value types of `include/kura/metadata/raft` and the part of `include/kura/metadata/core`
they rest on. `Term`, `LogIndex`, `NodeId`, `ReadIndexContext` and the request identifiers
wrap 64-bit unsigned integers in the source and are natural numbers here; every place where
the source guards a counter against `2^64 - 1` keeps its guard (`u64Max`). `Revision` wraps a
signed integer. -/

namespace KuraMetadata

abbrev NodeId := Nat

/-- `std::numeric_limits<std::uint64_t>::max()`. -/
def u64Max : Nat := 18446744073709551615

/-! ## Exceptions -/

/-- The standard exception classes the Raft code throws. -/
inductive ExceptionKind where
  | invalidArgument
  | logicError
  | overflowError
  | outOfRange
  deriving DecidableEq, Repr

/-- A thrown exception: its class and its `what()` text. -/
structure Exn where
  kind : ExceptionKind
  what : String
  deriving DecidableEq, Repr

def Exn.invalidArgument (what : String) : Exn := ⟨.invalidArgument, what⟩
def Exn.logicError (what : String) : Exn := ⟨.logicError, what⟩
def Exn.overflowError (what : String) : Exn := ⟨.overflowError, what⟩
def Exn.outOfRange (what : String) : Exn := ⟨.outOfRange, what⟩

/-! ## Commands, entries and snapshots -/

structure RequestId where
  client : Nat := 0
  sequence : Nat := 0
  deriving DecidableEq, Repr

structure CommandEnvelope where
  requestId : RequestId := {}
  typeTag : Nat := 0
  payload : List UInt8 := []
  deriving DecidableEq, Repr

structure LogEntry where
  term : Nat
  index : Nat
  command : CommandEnvelope
  deriving DecidableEq, Repr

inductive RaftRole where
  | follower
  | candidate
  | leader
  | learner
  deriving DecidableEq, Repr

structure ClusterMembership where
  voters : List NodeId
  learners : List NodeId
  deriving DecidableEq, Repr

structure SnapshotMetadata where
  lastIncludedIndex : Nat
  lastIncludedTerm : Nat
  storeRevision : Int
  compactionRevision : Int
  membership : ClusterMembership
  formatVersion : Nat
  deriving DecidableEq, Repr

structure RaftSnapshot where
  metadata : SnapshotMetadata
  state : List UInt8
  checksum : Nat
  deriving DecidableEq, Repr

structure RaftHardState where
  currentTerm : Nat := 0
  votedFor : Option NodeId := none
  deriving DecidableEq, Repr

structure PersistentRaftState where
  currentTerm : Nat := 0
  votedFor : Option NodeId := none
  snapshot : Option SnapshotMetadata := none
  log : List LogEntry := []
  deriving DecidableEq, Repr

/-! ## Messages between peers -/

structure RequestVoteRequest where
  term : Nat
  candidate : NodeId
  lastLogIndex : Nat
  lastLogTerm : Nat
  deriving DecidableEq, Repr

structure RequestVoteResponse where
  term : Nat
  granted : Bool
  deriving DecidableEq, Repr

structure AppendEntriesRequest where
  term : Nat
  leader : NodeId
  previousLogIndex : Nat
  previousLogTerm : Nat
  entries : List LogEntry
  leaderCommit : Nat
  readContext : Option Nat
  deriving DecidableEq, Repr

structure AppendEntriesResponse where
  term : Nat
  succeeded : Bool
  matchedIndex : Nat
  readContext : Option Nat
  deriving DecidableEq, Repr

structure InstallSnapshotRequest where
  term : Nat
  leader : NodeId
  transferId : Nat
  metadata : SnapshotMetadata
  offset : Nat
  totalSize : Nat
  chunk : List UInt8
  stateChecksum : Nat
  done : Bool
  readContext : Option Nat
  deriving DecidableEq, Repr

structure InstallSnapshotResponse where
  term : Nat
  transferId : Nat
  succeeded : Bool
  lastIncludedIndex : Nat := 0
  readContext : Option Nat
  deriving DecidableEq, Repr

/-- The payload of a peer message, `DecodedMessage` of the simulator's codec. -/
inductive Message where
  | requestVote (request : RequestVoteRequest)
  | requestVoteResponse (response : RequestVoteResponse)
  | appendEntries (request : AppendEntriesRequest)
  | appendEntriesResponse (response : AppendEntriesResponse)
  | installSnapshot (request : InstallSnapshotRequest)
  | installSnapshotResponse (response : InstallSnapshotResponse)
  deriving DecidableEq, Repr

/-- The term a peer message carries. -/
def Message.term : Message → Nat
  | .requestVote request => request.term
  | .requestVoteResponse response => response.term
  | .appendEntries request => request.term
  | .appendEntriesResponse response => response.term
  | .installSnapshot request => request.term
  | .installSnapshotResponse response => response.term

/-! ## Durability requests and their completions

`PersistRaftHardState` and `RaftHardStatePersisted` (and likewise the log and snapshot pairs)
have the same fields in the source; the request and its completion share one type here. -/

structure PersistRaftHardState where
  requestId : Nat
  state : RaftHardState
  deriving DecidableEq, Repr

structure PersistRaftLog where
  requestId : Nat
  log : List LogEntry
  deriving DecidableEq, Repr

structure PersistRaftSnapshot where
  requestId : Nat
  snapshot : RaftSnapshot
  deriving DecidableEq, Repr

structure ApplyLogEntry where
  requestId : Nat
  entry : LogEntry
  deriving DecidableEq, Repr

structure CreateRaftSnapshot where
  appliedIndex : Nat
  storeRevision : Int
  compactionRevision : Int
  membership : ClusterMembership
  state : List UInt8
  deriving DecidableEq, Repr

inductive SnapshotRejection where
  | noAppliedEntry
  | stale
  | invalidMembership
  | invalidRevision
  | invalidTransfer
  | corrupt
  | tooLarge
  | persistenceBusy
  deriving DecidableEq, Repr

inductive ReadIndexFailure where
  | notLeader
  | currentTermNotCommitted
  | capacityExceeded
  | duplicateRequest
  | cancelled
  | timedOut
  | leadershipLost
  | contextExhausted
  deriving DecidableEq, Repr

end KuraMetadata
